/-
  Inferno.CSP.ReferenceExact
  ──────────────────────────
  **`ReferenceSolver::Run` IS EXACT.**

    • `solveTurn_spec`   — one turn of the `while(true)` of `Solve`, for any
                           overrides: what the found value, or its absence, does
                           to the stack,
    • `reference_emits`  — a turn of `ReferenceSolver` keeps what is owed,
    • `run_of_emits`     — from the turn to the run, for any overrides,
    • `reference_run_exact` — every solution exactly once, nothing else, each
                           constraint tested where it is completed.
-/
import Inferno.CSP.Represents

namespace Inferno.CSP.ReferenceSolver

open Inferno.Common
open Inferno.SYM
open Inferno.Lib

variable {C Var Val : Type} [LinearOrder C] [DecidableEq Var] [LinearOrder Val]

/-! ## §1. What is owed. -/

/-- The solutions a stack still has to report. -/
def owedSolutions (S : ReferenceSolver C Var Val) (fs : List (Frame Val)) :
    List (Assignments Var Val) :=
  (S.tree.owed fs).map S.solutionOf

section

variable {S : ReferenceSolver C Var Val} {cs : List C} (hS : S.Ready cs)

/-- A top frame whose values all fail owes nothing itself. -/
theorem owedSolutions_failed {f : Frame Val} (fs : List (Frame Val))
    (hall : ∀ v ∈ f.rest, S.tree.ok f.path v = false) :
    S.owedSolutions (f :: fs) = S.owedSolutions fs := by
  rw [owedSolutions, Search.owed_cons, S.tree.pending_eq_nil_of_skip f.path hall]
  rfl

/-- An admitted value above the last level moves what is owed to a fresh level. -/
theorem owedSolutions_push {path rest skipped : List Val} {v : Val} (fs : List (Frame Val))
    (hskip : ∀ w ∈ skipped, S.tree.ok path w = false) (hok : S.tree.ok path v = true)
    (hmore : path.length + 1 < S.plan.freeVariables.length) :
    S.owedSolutions (⟨path, skipped ++ v :: rest⟩ :: fs)
      = S.owedSolutions (⟨v :: path, S.tree.choices (v :: path)⟩ :: ⟨path, rest⟩ :: fs) := by
  simp only [owedSolutions, Search.owed_cons, S.tree.pending_skip path hskip,
    S.tree.pending_push hok hmore, List.append_assoc]

/-- An admitted value at the last level is reported now. -/
theorem owedSolutions_report {path rest skipped : List Val} {v : Val} (fs : List (Frame Val))
    (hskip : ∀ w ∈ skipped, S.tree.ok path w = false) (hok : S.tree.ok path v = true)
    (hlast : path.length + 1 = S.plan.freeVariables.length) :
    S.owedSolutions (⟨path, skipped ++ v :: rest⟩ :: fs)
      = S.solutionOf (v :: path) :: S.owedSolutions (⟨path, rest⟩ :: fs) := by
  simp only [owedSolutions, Search.owed_cons, S.tree.pending_skip path hskip,
    S.tree.pending_report hok hlast, List.cons_append, List.map_cons]

theorem weight_push {path rest skipped : List Val} {v : Val} (fs : List (Frame Val))
    (hmore : path.length + 1 < S.plan.freeVariables.length) :
    S.tree.weight (⟨v :: path, S.tree.choices (v :: path)⟩ :: ⟨path, rest⟩ :: fs)
      < S.tree.weight (⟨path, skipped ++ v :: rest⟩ :: fs) := by
  have hpush := S.tree.frameWeight_push rest v hmore
  have hskip := S.tree.frameWeight_skip path skipped (v :: rest)
  simp only [Search.weight_cons]
  omega

theorem weight_report {path rest skipped : List Val} {v : Val} (fs : List (Frame Val)) :
    S.tree.weight (⟨path, rest⟩ :: fs)
      < S.tree.weight (⟨path, skipped ++ v :: rest⟩ :: fs) := by
  have hreport := S.tree.frameWeight_report path rest v
  have hskip := S.tree.frameWeight_skip path skipped (v :: rest)
  simp only [Search.weight_cons]
  omega

theorem weight_pop (f : Frame Val) (fs : List (Frame Val)) :
    S.tree.weight fs < S.tree.weight (f :: fs) := by
  have hpos := S.tree.frameWeight_pos f.path f.rest
  rw [Search.weight_cons]
  omega

/-! ## §2. One turn, for any overrides. -/

omit [LinearOrder C] [LinearOrder Val] in
/-- Checks report no solution. -/
theorem filterMap_checks {checks : List (Event C Var Val)}
    (h : ∀ e ∈ checks, S.TestedInPlace e ∧ e.solution? = none)
    (out : List (Event C Var Val)) :
    (checks ++ out).filterMap Event.solution? = out.filterMap Event.solution? := by
  rw [List.filterMap_append, List.filterMap_eq_nil_iff.mpr (fun e he => (h e he).2),
    List.nil_append]

/-- The state `Solve` starts from represents the root frame. -/
theorem makeSelector_root (hne : S.plan.freeVariables ≠ []) :
    ∃ s, S.makeSelector ⟨0, S.forcedAssignments, fun _ => none, fun _ => none, 0⟩ 0 = some s
      ∧ S.Represents s ⟨[], S.tree.choices []⟩ [] ∧ s.successCount 0 = some 0
      ∧ s.conflictedCount = 0 := by
  have hpos : 0 < S.plan.freeVariables.length := List.length_pos_of_ne_nil hne
  have hx : S.plan.freeVariables[([] : List Val).length]? = some S.plan.freeVariables[0] :=
    List.getElem?_eq_getElem hpos
  have hsel := S.valueSelector_eq_choices hx
  rw [assignPath_nil] at hsel
  simp only [List.length_nil] at hx hsel
  refine ⟨⟨0, S.forcedAssignments, Function.update (fun _ => none) 0 (some (S.tree.choices [])),
    Function.update (fun _ => none) 0 (some 0), 0⟩, ?_,
    ⟨rfl, rfl, hpos, ?_, ?_, ?_⟩, rfl, rfl⟩
  · simp only [makeSelector, hx, hsel, Option.bind_eq_bind, Option.bind_some]
  · intro g hg
    rw [List.mem_singleton] at hg
    subst hg
    rfl
  · intro g hg
    rw [List.mem_singleton] at hg
    subst hg
    exact ⟨0, rfl⟩
  · intro x y _ _
    rfl

/-- **One turn of `Solve`**: either every value left fails, and the failure hook
runs on the exhausted top frame; or the first admitted value is assigned, and the
success hook runs. -/
theorem solveTurn_spec (ov : Overrides C Var Val) {s : SolverState Var Val} {f : Frame Val}
    {fs : List (Frame Val)} (h : S.Represents s f fs) :
    ∃ checks s', (∀ e ∈ checks, S.TestedInPlace e ∧ e.solution? = none)
      ∧ s'.successCount = s.successCount ∧ s'.conflictedCount = s.conflictedCount
      ∧ (((∀ v ∈ f.rest, S.tree.ok f.path v = false) ∧ S.Represents s' ⟨f.path, []⟩ fs
          ∧ S.solveTurn ov s = (ov.assignUnsuccessful s').map (fun r =>
              ⟨checks ++ [Event.rejection r.1.assignments], if r.2 then none else some r.1⟩))
        ∨ ∃ v skipped rest, f.rest = skipped ++ v :: rest
          ∧ (∀ w ∈ skipped, S.tree.ok f.path w = false) ∧ S.tree.ok f.path v = true
          ∧ S.Represents s' ⟨f.path, rest⟩ fs ∧ s'.assignments = S.assignPath (v :: f.path)
          ∧ S.solveTurn ov s = (ov.assignSuccessful s').map (fun r =>
              ⟨checks ++ r.2, some r.1⟩)) := by
  obtain ⟨r, s', hfind, hchecks, hrep, hcount, hconf, hcase⟩ := tryFind_spec h
  refine ⟨r.checks, s', hchecks, hcount, hconf, ?_⟩
  rcases hcase with ⟨hval, hsel, hall⟩ | ⟨v, skipped, hval, hrest, hskip, hok, hassign⟩
  · rw [hsel] at hrep
    refine Or.inl ⟨hall, hrep, ?_⟩
    simp only [solveTurn, hfind, hval, Option.bind_eq_bind, Option.bind_some, Option.map_eq_bind]
    rfl
  · refine Or.inr ⟨v, skipped, r.selector, hrest, hskip, hok, hrep, hassign, ?_⟩
    simp only [solveTurn, hfind, hval, Option.bind_eq_bind, Option.bind_some, Option.map_eq_bind]
    rfl

/-- The state a stack is represented by, as the relation of the run rule. -/
def Rel (S : ReferenceSolver C Var Val) (s : SolverState Var Val) (fs : List (Frame Val)) : Prop :=
  ∃ f gs, fs = f :: gs ∧ S.Represents s f gs

include hS in
/-- **A turn of `ReferenceSolver` keeps what is owed.** -/
theorem Ready.reference_emits :
    Emits (S.solveTurn S.reference) S.Rel S.tree.weight Event.solution? S.owedSolutions
      S.TestedInPlace := by
  rintro s _ ⟨f, fs, rfl, h⟩
  obtain ⟨checks, s', hchecks, _, _, hturn⟩ := solveTurn_spec S.reference h
  rcases hturn with ⟨hall, hrep, hturn⟩ | ⟨v, skipped, rest, hrest, hskip, hok, hrep, hassign, hturn⟩
  · -- no value left: the base method pops the top frame
    obtain ⟨s'', hpop, _, hnext⟩ := hS.assignUnsuccessful_pop hrep
    have hbody : S.solveTurn S.reference s = some ⟨checks ++ [Event.rejection s''.assignments],
        if fs.isEmpty then none else some s''⟩ := by
      rw [hturn]
      show Option.map _ (S.assignUnsuccessful s') = _
      rw [hpop]
      rfl
    refine ⟨_, hbody, ?_, ?_⟩
    · intro e he
      rcases List.mem_append.mp he with he | he
      · exact (hchecks e he).1
      · rw [List.mem_singleton] at he
        subst he
        trivial
    · have hsols := filterMap_checks hchecks [Event.rejection s''.assignments]
      rw [owedSolutions_failed fs hall]
      cases fs with
      | nil => exact hsols.symm
      | cons g gs =>
          refine ⟨g :: gs, ⟨g, gs, rfl, hnext g gs rfl⟩, weight_pop f (g :: gs), ?_⟩
          show _ = List.filterMap Event.solution? (checks ++ _) ++ _
          rw [hsols]
          rfl
  · obtain ⟨path, rest₀⟩ := f
    simp only at hrest hskip hok hrep hassign
    subst hrest
    have hlen : path.length + 1 ≤ S.plan.freeVariables.length := h.inRange
    rcases Nat.lt_or_eq_of_le hlen with hmore | hlast
    · -- above the last level: a fresh level is pushed
      obtain ⟨s'', hpush, hrep', _⟩ := assignSuccessful_push hrep hassign hmore
      have hbody : S.solveTurn S.reference s = some ⟨checks ++ [], some s''⟩ := by
        rw [hturn]
        show Option.map _ (S.assignSuccessful s') = _
        rw [hpush]
        rfl
      refine ⟨_, hbody, ?_, _, ⟨_, _, rfl, hrep'⟩, weight_push fs hmore, ?_⟩
      · intro e he
        rw [List.append_nil] at he
        exact (hchecks e he).1
      · show _ = List.filterMap Event.solution? (checks ++ []) ++ _
        rw [filterMap_checks hchecks, owedSolutions_push fs hskip hok hmore]
        rfl
    · -- at the last level: the solution is reported
      obtain ⟨s'', m, hreport, hrep', _⟩ := hS.assignSuccessful_report hrep hassign hlast
      have hbody : S.solveTurn S.reference s
          = some ⟨checks ++ [Event.solution (S.solutionOf (v :: path))], some s''⟩ := by
        rw [hturn]
        show Option.map _ (S.assignSuccessful s') = _
        rw [hreport]
        rfl
      refine ⟨_, hbody, ?_, _, ⟨_, _, rfl, hrep'⟩, weight_report fs, ?_⟩
      · intro e he
        rcases List.mem_append.mp he with he | he
        · exact (hchecks e he).1
        · rw [List.mem_singleton] at he
          subst he
          trivial
      · show _ = List.filterMap Event.solution? (checks ++ [_]) ++ _
        rw [filterMap_checks hchecks, owedSolutions_report fs hskip hok hlast]
        rfl

/-! ## §3. From the turn to the run. -/

/-- **From the turn to the run**, for any overrides: if every turn keeps what is
owed, the run returns, reports exactly the leaves of the tree, and tests each
constraint in its place. -/
theorem run_of_emits (ov : Overrides C Var Val)
    {R : SolverState Var Val → List (Frame Val) → Prop}
    (hemits : Emits (S.solveTurn ov) R S.tree.weight Event.solution? S.owedSolutions
      S.TestedInPlace)
    (hinit : ∀ s, S.Represents s ⟨[], S.tree.choices []⟩ [] → s.successCount 0 = some 0 →
      s.conflictedCount = 0 → R s [⟨[], S.tree.choices []⟩]) :
    ∃ N ev, (∀ fuel, N ≤ fuel → S.run ov fuel = some ev)
      ∧ ev.filterMap Event.solution?
          = (if (consistencyCheck S.methods S.forcedAssignments
                S.plan.fullyForcedConstraintSet).1 = true
              then (S.tree.leaves S.tree.depth []).map S.solutionOf else [])
      ∧ ∃ rest, ev = Event.check none S.plan.fullyForcedConstraintSet S.forcedAssignments :: rest
          ∧ ∀ e ∈ rest, S.TestedInPlace e := by
  -- the forces alone fail a constraint: no solution, and no other check
  cases hforced : (consistencyCheck S.methods S.forcedAssignments
      S.plan.fullyForcedConstraintSet).1 with
  | false =>
      refine ⟨0, _, fun fuel _ => by simp only [run, hforced, if_true]; rfl,
        by simp [Event.solution?],
        _, rfl, ?_⟩
      intro e he
      rw [List.mem_singleton] at he
      subst he
      trivial
  | true =>
      by_cases hfree : S.plan.freeVariables = []
      · refine ⟨0, [Event.check none S.plan.fullyForcedConstraintSet S.forcedAssignments,
          Event.solution StdMap.empty], fun fuel _ => by simp [run, hforced, hfree], ?_,
          _, rfl, ?_⟩
        · -- with no free variables the only leaf is the root
          have hdepth : S.tree.depth = 0 := by rw [tree_depth, hfree, List.length_nil]
          have hroot : S.solutionOf [] = StdMap.empty := by
            apply StdMap.ext_lookup
            intro x
            by_cases hx : x ∈ S.forcedAssignments.keys
            · simp [solutionOf, hx]
            · simp [solutionOf, hx, StdMap.lookup_eq_none.mpr hx]
          rw [if_pos rfl, hdepth, Search.leaves, List.map_singleton, hroot]
          rfl
        · intro e he
          rw [List.mem_singleton] at he
          subst he
          trivial
      · -- otherwise the loop starts at the root, with a frame of all its values
        obtain ⟨s, hs, hrep, hcount, hconf⟩ := makeSelector_root hfree
        obtain ⟨ev, hev, hsols, hplace⟩ := loop_emits _ hemits _ s [⟨[], S.tree.choices []⟩]
          (Nat.lt_succ_self _) (hinit s hrep hcount hconf)
        have hpos : 0 < S.plan.freeVariables.length := List.length_pos_of_ne_nil hfree
        refine ⟨S.tree.weight [⟨[], S.tree.choices []⟩] + 1, _, fun fuel hf => ?_, ?_, ev, rfl,
          hplace⟩
        · simp only [run, solve, hforced, hfree, hs, hev fuel hf, Option.bind_eq_bind,
            Option.bind_some, if_false, Bool.true_eq_false]
        · have hleaves := S.tree.leaves_eq_pending [] hpos
          rw [List.length_nil, Nat.sub_zero] at hleaves
          rw [List.filterMap_cons, if_pos rfl]
          show ev.filterMap Event.solution? = _
          rw [hsols, owedSolutions, Search.owed_cons, Search.owed_nil, List.append_nil, hleaves]

end

/-! ## §4. The main theorem. -/

/-- **`ReferenceSolver::Run` is sound, complete and ends.**  From any accepted
plan and matching forces, with selectors that offer at least the values of the
solutions: every fuel from some bound on returns the same events; the solutions
reported are distinct, and are exactly the total assignments of the free
variables that satisfy all constraints with the forces.  The first event checks
the fully forced constraints (those with no free variable) against the forces
alone; every other check is in place: at level `k`, on exactly the constraints
whose last free variable is the `k`-th. -/
theorem reference_run_exact {M : ConstraintMethods C Var Val} {cs : List C} {free : List Var}
    {df af : Finset Var} {plan : Plan C Var} {forces : Assignments Var Val}
    {db : XTreeDatabase Val} {S : ReferenceSolver C Var Val}
    (hplan : deduceVariables M cs free df af = some plan)
    (hstart : start M plan forces db = some S) (hsel : S.SelectorsComplete cs) :
    ∃ N ev, (∀ fuel, N ≤ fuel → S.run S.reference fuel = some ev)
      ∧ (ev.filterMap Event.solution?).Nodup
      ∧ (∀ a, a ∈ ev.filterMap Event.solution? ↔ a.keys = free.toFinset
          ∧ ∀ c ∈ cs, M.isSatisfied c (forces.merge a) = true)
      ∧ (∃ rest, ev = Event.check none S.plan.fullyForcedConstraintSet forces :: rest
          ∧ ∀ e ∈ rest, S.TestedInPlace e)
      ∧ (∀ c, c ∈ S.plan.fullyForcedConstraintSet ↔
          c ∈ cs ∧ ∀ x ∈ M.getVariables c, x ∉ free)
      ∧ (∀ k c, c ∈ S.plan.completedConstraints k ↔ c ∈ cs
          ∧ (∃ x ∈ M.getVariables c, free[k]? = some x)
          ∧ ∀ j, ∀ x ∈ M.getVariables c, free[j]? = some x → j ≤ k) := by
  obtain ⟨hS, rfl, rfl, rfl⟩ := start_ready hplan hstart
  obtain ⟨N, ev, hrun, hsols, hplace⟩ := run_of_emits S.reference hS.reference_emits
    (fun s hrep _ _ => ⟨_, _, rfl, hrep⟩)
  have hmemIdx := fun c i => mem_freeVarIndices S.methods c i hS.plan_for.nodup
  refine ⟨N, ev, hrun, ?_, ?_, hplace, ?_, ?_⟩
  · -- the leaves of the tree, each once
    rw [hsols]
    split
    · exact hS.nodup_solutions
    · exact List.nodup_nil
  · intro a
    rw [hsols]
    split
    next hforced => exact hS.mem_leaves_iff hsel hforced
    next hforced =>
      -- some fully forced constraint fails, so there is no solution at all
      refine ⟨fun h => absurd h List.not_mem_nil, fun ha => absurd ?_ hforced⟩
      rw [consistencyCheck_fst]
      intro c hc
      rw [← hS.isSatisfied_fullyForced hc (S.forcedAssignments.merge a)]
      · exact ha.2 c ((hS.plan_for.mem_fullyForced c).mp hc).1
      · intro x hx
        have hnone : a.lookup x = none := by
          rw [StdMap.lookup_eq_none, ha.1, List.mem_toFinset]
          exact hx
        rw [StdMap.lookup_merge, hnone, Option.or_none]
  · intro c
    rw [hS.plan_for.mem_fullyForced, ← freeVars_eq_empty, freeVars, Finset.filter_eq_empty_iff]
  · -- the last variable of a constraint, as the plan has it
    intro k c
    rw [hS.plan_for.mem_completed, IsLastIndex, hmemIdx]
    refine and_congr_right (fun _ => and_congr_right (fun _ => ?_))
    constructor
    · intro h j x hx hj
      exact h j ((hmemIdx c j).mpr ⟨x, hx, hj⟩)
    · intro h j hj
      obtain ⟨x, hx, hjx⟩ := (hmemIdx c j).mp hj
      exact h j x hx hjx

/-! ## §5. An instance. -/

/-- One constraint on variables 0, 1 (free) and 2 (forced): the free ones take the
values 0 and 1, in either order, when the forced one is 7.  It suggests nothing. -/
def swapMethods : ConstraintMethods Nat Nat Nat where
  getVariables _ := {0, 1, 2}
  getVariablesRequiringDB _ := ∅
  isSatisfied _ a := decide (a.lookup 2 = some 7
    ∧ (a.lookup 0, a.lookup 1) ∈ [(some 0, some 1), (some 1, some 0)])
  getSuggestedValues _ _ _ := ⟨∅, true⟩
  isSatisfied_congr := by
    intro c a b h
    rw [h 0 (by decide), h 1 (by decide), h 2 (by decide)]

def swapDb : XTreeDatabase Nat := ⟨[0, 1, 2], by decide⟩

def swapForces : Assignments Nat Nat := StdMap.empty.set 2 7

def swapPlan : Plan Nat Nat :=
  (deduceVariables swapMethods [0] [0, 1] {2} ∅).get (by decide)

def swapSolver : ReferenceSolver Nat Nat Nat :=
  (start swapMethods swapPlan swapForces swapDb).get (by decide)

theorem swapPlan_eq : deduceVariables swapMethods [0] [0, 1] {2} ∅ = some swapPlan :=
  (Option.some_get _).symm

theorem swapSolver_eq : start swapMethods swapPlan swapForces swapDb = some swapSolver :=
  (Option.some_get _).symm

theorem swapSolver_selectorsComplete : swapSolver.SelectorsComplete [0] := by
  intro a ha k x hx
  have hsat := of_decide_eq_true (ha.2 0 List.mem_cons_self)
  obtain ⟨vals, hvals, _⟩ := valueSelector_spec swapSolver.methods swapSolver.xTreeDb
    (swapSolver.plan.affectedConstraints k) (swapSolver.partialAssignment a k) x
  have hforced : ∀ y, y ≠ 2 → swapSolver.forcedAssignments.lookup y = none := by
    intro y hy
    show (if y = 2 then some 7 else none) = none
    rw [if_neg hy]
  have hx01 : x = 0 ∨ x = 1 := by
    have hmem : x ∈ [0, 1] := List.mem_of_getElem? hx
    simpa using hmem
  have hdom : ∃ v, a.lookup x = some v ∧ v ∈ [0, 1, 2] := by
    simp only [StdMap.lookup_merge, hforced 0 (by decide), hforced 1 (by decide),
      Option.none_or] at hsat
    rcases hx01 with rfl | rfl <;> rcases List.mem_cons.mp hsat.2 with h | h <;> simp_all
  obtain ⟨v, hv, hmem⟩ := hdom
  refine ⟨vals, v, hvals, hv, mem_valueSelector hvals ?_ hmem⟩
  intro c _
  show SubsetResult.contains ⟨∅, true⟩ v
  simp [SubsetResult.contains]

/-- The main theorem at the instance. -/
theorem reference_run_exact_swap :
    ∃ N ev, (∀ fuel, N ≤ fuel → swapSolver.run swapSolver.reference fuel = some ev)
      ∧ (ev.filterMap Event.solution?).Nodup
      ∧ (∀ a, a ∈ ev.filterMap Event.solution? ↔ a.keys = {0, 1}
          ∧ ∀ c ∈ [0], swapMethods.isSatisfied c (swapForces.merge a) = true) := by
  obtain ⟨N, ev, hrun, hnodup, hmem, _⟩ :=
    reference_run_exact swapPlan_eq swapSolver_eq swapSolver_selectorsComplete
  exact ⟨N, ev, hrun, hnodup, hmem⟩

end Inferno.CSP.ReferenceSolver
