/-
  Inferno.CSP.Represents
  ──────────────────────
  The mutable state of a solver represents a stack of frames of its tree.

    • `Represents`          — the state invariant: one selector per frame, the
                              assignments of the top frame's path except at the
                              current variable, whose entry may be stale,
    • one spec lemma for each operation of `ReferenceSolver`: finding a value,
      succeeding (push or report), and failing (pop).
-/
import Inferno.CSP.SearchTree

namespace Inferno.CSP.ReferenceSolver

open Inferno.Common
open Inferno.Lib

variable {C Var Val : Type} [LinearOrder C] [DecidableEq Var] [LinearOrder Val]

/-! ## §1. The state invariant. -/

/-- The state `s` represents the stack with `f` on top of `fs`. -/
structure Represents (S : ReferenceSolver C Var Val) (s : SolverState Var Val) (f : Frame Val)
    (fs : List (Frame Val)) : Prop where
  stacked : Search.Stacked (f :: fs)
  index : s.currentVarIndex = f.path.length
  inRange : f.path.length < S.plan.freeVariables.length
  selectors : ∀ g ∈ f :: fs, s.valueSelectors g.path.length = some g.rest
  counted : ∀ g ∈ f :: fs, ∃ m, s.successCount g.path.length = some m
  assigned : ∀ x y, S.plan.freeVariables[f.path.length]? = some x → y ≠ x →
    s.assignments.lookup y = (S.assignPath f.path).lookup y

/-- Where a consistency check may happen after the first: at level `k`, on exactly
the constraints completed there, with exactly the variables up to `k` assigned. -/
def TestedInPlace (S : ReferenceSolver C Var Val) : Event C Var Val → Prop
  | .check (some k) toTest a =>
      k < S.plan.freeVariables.length ∧ toTest = S.plan.completedConstraints k
        ∧ a.keys = S.forcedAssignments.keys ∪ (S.plan.freeVariables.take (k + 1)).toFinset
  | .check none _ _ => False
  | .solution _ => True
  | .rejection _ => True

section

variable {S : ReferenceSolver C Var Val} {cs : List C} (hS : S.Ready cs)

omit [LinearOrder C] [LinearOrder Val] in
/-- The current variable. -/
theorem Represents.variable {s : SolverState Var Val} {f : Frame Val} {fs : List (Frame Val)}
    (h : S.Represents s f fs) : ∃ x, S.plan.freeVariables[f.path.length]? = some x :=
  ⟨_, List.getElem?_eq_getElem h.inRange⟩

omit [LinearOrder C] [LinearOrder Val] in
/-- Only the top frame's selector and the current variable's assignment change. -/
theorem Represents.replaceTop {s : SolverState Var Val} {f : Frame Val} {fs : List (Frame Val)}
    (h : S.Represents s f fs) (rest : List Val) (a : Assignments Var Val)
    (ha : ∀ x y, S.plan.freeVariables[f.path.length]? = some x → y ≠ x →
      a.lookup y = (S.assignPath f.path).lookup y) :
    S.Represents { s with
        assignments := a
        valueSelectors := Function.update s.valueSelectors f.path.length (some rest) }
      ⟨f.path, rest⟩ fs := by
  have hlow := Search.Stacked.length_lt h.stacked
  refine ⟨?_, h.index, h.inRange, ?_, ?_, ha⟩
  · cases fs with
    | nil => exact h.stacked
    | cons g gs => exact h.stacked
  · intro g hg
    rcases List.mem_cons.mp hg with rfl | hg
    · exact Function.update_self _ _ _
    · show Function.update s.valueSelectors f.path.length (some rest) g.path.length = _
      rw [Function.update_of_ne (hlow g hg).ne]
      exact h.selectors g (List.mem_cons_of_mem _ hg)
  · intro g hg
    rcases List.mem_cons.mp hg with rfl | hg
    · exact h.counted f List.mem_cons_self
    · exact h.counted g (List.mem_cons_of_mem _ hg)

/-! ## §2. Finding a value. -/

/-- What the loop of `TryFindNextConsistentValue` does on the values `vals`: it
skips the rejected ones, and stops at the first accepted one if there is one. -/
theorem tryValues_spec {path : List Val} {x : Var}
    (hx : S.plan.freeVariables[path.length]? = some x) :
    ∀ (vals : List Val) (a : Assignments Var Val) (unsat : Finset C),
      (∀ y, y ≠ x → a.lookup y = (S.assignPath path).lookup y) →
      ∃ r, S.tryValues path.length x vals a unsat = some r
        ∧ (∀ e ∈ r.checks, S.TestedInPlace e ∧ e.solution? = none)
        ∧ (∀ y, y ≠ x → r.assignments.lookup y = (S.assignPath path).lookup y)
        ∧ ((r.value = none ∧ r.selector = [] ∧ ∀ v ∈ vals, S.tree.ok path v = false)
          ∨ ∃ v skipped, r.value = some v ∧ vals = skipped ++ v :: r.selector
              ∧ (∀ w ∈ skipped, S.tree.ok path w = false) ∧ S.tree.ok path v = true
              ∧ r.assignments = S.assignPath (v :: path)) := by
  intro vals
  -- on the values that are left; a rejected one is skipped
  induction vals with
  | nil =>
      intro a unsat ha
      exact ⟨⟨none, unsat, [], a, []⟩, rfl, by simp, ha, Or.inl ⟨rfl, rfl, by simp⟩⟩
  | cons v vals ih =>
      intro a unsat ha
      -- whatever stale value was there, setting the variable gives the path's assignments
      have hset : a.set x v = S.assignPath (v :: path) := by
        rw [S.assignPath_cons v hx]
        exact StdMap.set_congr v ha
      have hlt : (v :: path).length ≤ S.plan.freeVariables.length :=
        (List.getElem?_eq_some_iff.mp hx).1
      set toTest := S.plan.completedConstraints path.length with htest
      set check := Event.check (some path.length) toTest (S.assignPath (v :: path)) with hcheck
      have hplace : S.TestedInPlace check := ⟨hlt, rfl, keys_assignPath hlt⟩
      have hassert := ASSERT_pos
        (consistencyCheck_unsatisfied S.methods (S.assignPath (v :: path)) toTest)
      -- the check at this value is the test of the tree
      cases hok : S.tree.ok path v with
      | true =>
          have hcons : (consistencyCheck S.methods (S.assignPath (v :: path)) toTest).1 = true :=
            hok
          refine ⟨⟨some v, unsat ∪ (consistencyCheck S.methods (S.assignPath (v :: path)) toTest).2,
            vals, S.assignPath (v :: path), [check]⟩, ?_, ?_, ?_,
            Or.inr ⟨v, [], rfl, rfl, by simp, hok, rfl⟩⟩
          · simp only [tryValues, hset, ← htest, hassert, Option.bind_eq_bind, Option.bind_some]
            simp only [hcons, if_true, hcheck]
          · intro e he
            rw [List.mem_singleton] at he
            subst he
            exact ⟨hplace, rfl⟩
          · intro y hy
            show (S.assignPath (v :: path)).lookup y = _
            rw [S.assignPath_cons v hx, StdMap.lookup_set, if_neg hy]
      | false =>
          have hcons : (consistencyCheck S.methods (S.assignPath (v :: path)) toTest).1 = false :=
            hok
          have herase : (S.assignPath (v :: path)).eraseSolo x = some (a.erase x) := by
            rw [← hset, StdMap.eraseSolo_set]
          have ha' : ∀ y, y ≠ x → (a.erase x).lookup y = (S.assignPath path).lookup y := by
            intro y hy
            rw [StdMap.lookup_erase, if_neg hy, ha y hy]
          obtain ⟨r, hr, hchecks, hassign, hcase⟩ := ih (a.erase x)
            (unsat ∪ (consistencyCheck S.methods (S.assignPath (v :: path)) toTest).2) ha'
          refine ⟨{ r with checks := check :: r.checks }, ?_, ?_, hassign, ?_⟩
          · simp only [tryValues, hset, ← htest, hassert, Option.bind_eq_bind, Option.bind_some]
            simp only [hcons, Bool.false_eq_true, if_false, herase, hr, Option.bind_some, hcheck]
          · intro e he
            rcases List.mem_cons.mp he with rfl | he
            · exact ⟨hplace, rfl⟩
            · exact hchecks e he
          · rcases hcase with ⟨hv, hsel, hall⟩ | ⟨w, skipped, hv, hvals, hskip, hw, hass⟩
            · exact Or.inl ⟨hv, hsel, List.forall_mem_cons.mpr ⟨hok, hall⟩⟩
            · refine Or.inr ⟨w, v :: skipped, hv, ?_, List.forall_mem_cons.mpr ⟨hok, hskip⟩,
                hw, hass⟩
              rw [List.cons_append, ← hvals]

/-- **`TryFindNextConsistentValue`** moves the top frame past the rejected values. -/
theorem tryFind_spec {s : SolverState Var Val} {f : Frame Val} {fs : List (Frame Val)}
    (h : S.Represents s f fs) :
    ∃ r s', S.tryFindNextConsistentValue s = some (r, s')
      ∧ (∀ e ∈ r.checks, S.TestedInPlace e ∧ e.solution? = none)
      ∧ S.Represents s' ⟨f.path, r.selector⟩ fs
      ∧ s'.successCount = s.successCount ∧ s'.conflictedCount = s.conflictedCount
      ∧ ((r.value = none ∧ r.selector = [] ∧ ∀ v ∈ f.rest, S.tree.ok f.path v = false)
        ∨ ∃ v skipped, r.value = some v ∧ f.rest = skipped ++ v :: r.selector
            ∧ (∀ w ∈ skipped, S.tree.ok f.path w = false) ∧ S.tree.ok f.path v = true
            ∧ s'.assignments = S.assignPath (v :: f.path)) := by
  obtain ⟨x, hx⟩ := h.variable
  have hsel := h.selectors f List.mem_cons_self
  obtain ⟨r, hr, hchecks, hassign, hcase⟩ := tryValues_spec hx f.rest s.assignments ∅
    (fun y hy => h.assigned x y hx hy)
  refine ⟨r, { s with
    assignments := r.assignments
    valueSelectors := Function.update s.valueSelectors f.path.length (some r.selector) },
    ?_, hchecks, h.replaceTop r.selector r.assignments ?_, rfl, rfl, hcase⟩
  · simp only [tryFindNextConsistentValue, h.index, hx, hsel, hr, Option.bind_eq_bind,
      Option.bind_some]
  · intro x' y hx' hy
    rw [hx, Option.some.injEq] at hx'
    subst hx'
    exact hassign y hy

/-! ## §3. Success: push a level, or report. -/

/-- **`AssignSuccessful` above the last level** pushes a fresh level. -/
theorem assignSuccessful_push {s : SolverState Var Val} {f : Frame Val}
    {fs : List (Frame Val)} {v : Val} (h : S.Represents s f fs)
    (hassign : s.assignments = S.assignPath (v :: f.path))
    (hmore : f.path.length + 1 < S.plan.freeVariables.length) :
    ∃ s', S.assignSuccessful s = some (s', [])
      ∧ S.Represents s' ⟨v :: f.path, S.tree.choices (v :: f.path)⟩ (f :: fs)
      ∧ s'.conflictedCount = s.conflictedCount := by
  obtain ⟨m, hm⟩ := h.counted f List.mem_cons_self
  have hx : S.plan.freeVariables[(v :: f.path).length]?
      = some (S.plan.freeVariables[f.path.length + 1]) := List.getElem?_eq_getElem hmore
  have hsel := S.valueSelector_eq_choices hx
  rw [List.length_cons] at hx hsel
  -- the frames below are at lower levels, which the new level does not write to
  have hlow : ∀ g ∈ f :: fs, g.path.length < f.path.length + 1 := by
    intro g hg
    exact Nat.lt_succ_of_le (Search.Stacked.suffix h.stacked g hg).length_le
  refine ⟨{ s with
    currentVarIndex := f.path.length + 1
    valueSelectors := Function.update s.valueSelectors (f.path.length + 1)
      (some (S.tree.choices (v :: f.path)))
    successCount := Function.update
      (Function.update s.successCount f.path.length (some (m + 1)))
      (f.path.length + 1) (some 0) },
    ?_, ⟨⟨⟨v, rfl⟩, h.stacked⟩, rfl, hmore, ?_, ?_, ?_⟩, rfl⟩
  · simp only [assignSuccessful, h.index, hm, hmore, makeSelector, hx, hassign, hsel,
      Option.bind_eq_bind, Option.bind_some, if_true]
  · intro g hg
    rcases List.mem_cons.mp hg with rfl | hg
    · exact Function.update_self _ _ _
    · exact (Function.update_of_ne (hlow g hg).ne _ _).trans (h.selectors g hg)
  · -- the new level counts from 0, the one that succeeded has one more
    intro g hg
    rcases List.mem_cons.mp hg with rfl | hg
    · exact ⟨0, Function.update_self _ _ _⟩
    · have hskip := Function.update_of_ne (hlow g hg).ne (some 0)
        (Function.update s.successCount f.path.length (some (m + 1)))
      by_cases hgf : g.path.length = f.path.length
      · exact ⟨m + 1, hskip.trans (by rw [hgf, Function.update_self])⟩
      · obtain ⟨m', hm'⟩ := h.counted g hg
        exact ⟨m', hskip.trans (by rw [Function.update_of_ne hgf, hm'])⟩
  · intro x y _ _
    show s.assignments.lookup y = _
    rw [hassign]

include hS

/-- **`AssignSuccessful` at the last level** reports the solution and stays. -/
theorem Ready.assignSuccessful_report {s : SolverState Var Val} {f : Frame Val}
    {fs : List (Frame Val)} {v : Val} (h : S.Represents s f fs)
    (hassign : s.assignments = S.assignPath (v :: f.path))
    (hlast : f.path.length + 1 = S.plan.freeVariables.length) :
    ∃ s' m, S.assignSuccessful s = some (s', [Event.solution (S.solutionOf (v :: f.path))])
      ∧ S.Represents s' f fs ∧ s'.successCount f.path.length = some (m + 1) := by
  obtain ⟨m, hm⟩ := h.counted f List.mem_cons_self
  have hlow := Search.Stacked.length_lt h.stacked
  have hdiff : s.assignments.differenceOfSolo S.forcedAssignments
      = some (S.solutionOf (v :: f.path)) := by
    rw [hassign]
    exact StdMap.differenceOfSolo_eq (hS.forced_keys_subset _)
  have hnot : ¬ f.path.length + 1 < S.plan.freeVariables.length := by omega
  refine ⟨{ s with
    successCount := Function.update s.successCount f.path.length (some (m + 1)) },
    m, ?_, ⟨h.stacked, h.index, h.inRange, h.selectors, ?_, h.assigned⟩,
    Function.update_self _ _ _⟩
  · simp only [assignSuccessful, h.index, hm, hnot, hdiff, Option.bind_eq_bind, Option.bind_some,
      if_false]
  · intro g hg
    rcases List.mem_cons.mp hg with rfl | hg
    · exact ⟨m + 1, Function.update_self _ _ _⟩
    · obtain ⟨m', hm'⟩ := h.counted g (List.mem_cons_of_mem _ hg)
      exact ⟨m', (Function.update_of_ne (hlow g hg).ne _ _).trans hm'⟩

/-! ## §4. Failure: pop a level. -/

omit [LinearOrder C] [LinearOrder Val] in
/-- **`AssignUnsuccessful`** pops the top frame, and ceases when it was the last. -/
theorem Ready.assignUnsuccessful_pop {s : SolverState Var Val} {f : Frame Val}
    {fs : List (Frame Val)} (h : S.Represents s f fs) :
    ∃ s', S.assignUnsuccessful s = some (s', fs.isEmpty)
      ∧ s'.conflictedCount = s.conflictedCount
      ∧ ∀ g gs, fs = g :: gs → S.Represents s' g gs := by
  obtain ⟨x, hx⟩ := h.variable
  have hsel := h.selectors f List.mem_cons_self
  cases fs with
  | nil =>
      have hzero : f.path.length = 0 := by rw [show f.path = [] from h.stacked, List.length_nil]
      refine ⟨{ s with
        valueSelectors := Function.update s.valueSelectors f.path.length none
        assignments := s.assignments.erase x }, ?_, rfl, by simp⟩
      simp only [assignUnsuccessful, h.index, hsel, hx, Option.bind_eq_bind, Option.bind_some,
        List.isEmpty_nil]
      rw [if_pos hzero]
  | cons g gs =>
      obtain ⟨⟨v, hv⟩, hstacked⟩ := h.stacked
      have hlow := Search.Stacked.length_lt h.stacked
      have hlen : f.path.length = g.path.length + 1 := by rw [hv, List.length_cons]
      -- above the first level: the level below is current again
      have hne : f.path.length ≠ 0 := by omega
      refine ⟨{ s with
        currentVarIndex := f.path.length - 1
        valueSelectors := Function.update s.valueSelectors f.path.length none
        assignments := s.assignments.erase x }, ?_, rfl, ?_⟩
      · simp only [assignUnsuccessful, h.index, hsel, hx, hne, Option.bind_eq_bind,
          Option.bind_some, if_false, List.isEmpty_cons]
      · rintro g' gs' heq
        obtain ⟨rfl, rfl⟩ := List.cons.inj heq
        refine ⟨hstacked, ?_, ?_, ?_, ?_, ?_⟩
        · show f.path.length - 1 = _
          omega
        · have hin := h.inRange
          omega
        · intro k hk
          exact (Function.update_of_ne (hlow k hk).ne _ _).trans
            (h.selectors k (List.mem_cons_of_mem _ hk))
        · intro k hk
          exact h.counted k (List.mem_cons_of_mem _ hk)
        · -- erasing the current variable restores the shorter path's assignments
          intro y z hy hz
          have hgf := S.assignPath_cons v hy
          rw [← hv] at hgf
          show (s.assignments.erase x).lookup z = _
          rw [StdMap.lookup_erase]
          split
          next hzx =>
            subst hzx
            exact (hS.lookup_assignPath_unassigned hx (by omega)).symm
          next hzx =>
            rw [h.assigned x z hx hzx, hgf, StdMap.lookup_set, if_neg hz]

end

end Inferno.CSP.ReferenceSolver
