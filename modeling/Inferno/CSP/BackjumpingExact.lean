/-
  Inferno.CSP.BackjumpingExact
  ────────────────────────────
  **`BackjumpingSolver` REPORTS WHAT `ReferenceSolver` REPORTS.**

    • `Fresh`              — the invariant behind the two counters: while both
                             are 0 the current selector has only lost values
                             that failed their test,
    • `dead_of_agreement`  — a level that admits no value stays dead when the
                             levels outside the possibly conflicted ones change,
    • `backjump_spec`      — so every level jumped over owes nothing,
    • `backjumping_emits`  — a turn of `BackjumpingSolver` keeps what is owed,
    • `backjumping_refines_reference` — the two runs report the same sequence.
-/
import Inferno.CSP.BackjumpingSolver
import Inferno.CSP.ReferenceExact

namespace Inferno.CSP.ReferenceSolver

open Inferno.Common
open Inferno.Lib

variable {C Var Val : Type} [LinearOrder C] [DecidableEq Var] [LinearOrder Val]
variable {S : ReferenceSolver C Var Val} {cs : List C} (hS : S.Ready cs)

/-! ## §1. Dead levels stay dead. -/

section

include hS

/-- **A dead level stays dead.**  If the level below `p` admits no value, and none
of the levels from `base` up to it holds a variable of a constraint affecting it,
then every other way of descending from `base` to that level is dead too. -/
theorem Ready.dead_of_agreement (hloc : S.methods.SuggestionsLocal) {p base : List Val}
    (hlt : p.length < S.plan.freeVariables.length)
    (hdead : ∀ v ∈ S.tree.choices p, S.tree.ok p v = false) (hsuf : base <:+ p)
    (hskip : ∀ c ∈ S.plan.affectedConstraints p.length, ∀ i, base.length ≤ i → i < p.length →
      i ∉ freeVarIndices S.methods S.plan.freeVariables c) :
    ∀ q, base <:+ q → q.length = p.length → S.tree.leaves (S.tree.depth - p.length) q = [] := by
  intro q hq hlen
  have hx : S.plan.freeVariables[p.length]? = some S.plan.freeVariables[p.length] :=
    List.getElem?_eq_getElem hlt
  set x := S.plan.freeVariables[p.length] with hxdef
  have hxq : S.plan.freeVariables[q.length]? = some x := by rw [hlen, hx]
  -- the two paths give the affecting constraints the same assignments
  have hlook : ∀ c ∈ S.plan.affectedConstraints p.length, ∀ y ∈ S.methods.getVariables c,
      (S.assignPath q).lookup y = (S.assignPath p).lookup y := by
    intro c hc y hy
    have hout : ∀ i, base.length ≤ i → i < p.length → S.plan.freeVariables[i]? ≠ some y := by
      intro i hb hi hiy
      exact hskip c hc i hb hi
        ((mem_freeVarIndices S.methods c i hS.plan_for.nodup).mpr ⟨y, hy, hiy⟩)
    rw [S.lookup_assignPath_of_suffix hsuf hout, S.lookup_assignPath_of_suffix hq]
    rw [hlen]
    exact hout
  -- so the same values are suggested
  have hchoices : S.tree.choices q = S.tree.choices p := by
    have hp := S.valueSelector_eq_choices hx
    have hq' := S.valueSelector_eq_choices hxq
    have hmap : (S.plan.affectedConstraints p.length).sort.map
          (fun c => S.methods.getSuggestedValues c (S.assignPath q) x)
        = (S.plan.affectedConstraints p.length).sort.map
          (fun c => S.methods.getSuggestedValues c (S.assignPath p) x) := by
      refine List.map_congr_left (fun c hc => ?_)
      exact hloc c _ _ (hlook c ((Finset.mem_sort _).mp hc)) x
    rw [hlen] at hq'
    rw [valueSelector, hmap] at hq'
    rw [valueSelector, hq', Option.some.injEq] at hp
    exact hp
  rw [← hlen]
  refine S.tree.leaves_eq_nil_of_dead (by rw [hlen]; exact hlt) ?_
  intro v hv
  rw [hchoices] at hv
  -- and each of them fails the same test
  rw [← hdead v hv, Bool.eq_iff_iff, tree_ok_iff, tree_ok_iff, hlen]
  refine forall₂_congr (fun c hc => ?_)
  rw [S.methods.isSatisfied_congr c _ (S.assignPath (v :: p))]
  intro y hy
  rw [S.assignPath_cons v hxq, S.assignPath_cons v hx, StdMap.lookup_set,
    StdMap.lookup_set, hlook c (hS.completed_subset_affected _ hc) y hy]

omit [LinearOrder Val] in
/-- `GetAffectedVariableIndices` finds the positions of every free variable of the
given constraints, and never throws on constraints of the plan. -/
theorem Ready.getAffectedVariableIndices_spec {toQuery : Finset C} (hcs : ∀ c ∈ toQuery, c ∈ cs) :
    ∃ pcv, S.getAffectedVariableIndices toQuery = some pcv
      ∧ ∀ c ∈ toQuery, freeVarIndices S.methods S.plan.freeVariables c ⊆ pcv := by
  have hfold : ∀ (l : List C), (∀ c ∈ l, c ∈ cs) → ∀ acc : Finset Nat, ∃ pcv,
      l.foldlM (fun allVarIndices c =>
        (S.plan.freeVarIndicesForConstraint c).map (allVarIndices ∪ ·)) acc = some pcv
      ∧ acc ⊆ pcv
      ∧ ∀ c ∈ l, freeVarIndices S.methods S.plan.freeVariables c ⊆ pcv := by
    intro l
    induction l with
    | nil => intro _ acc; exact ⟨acc, rfl, Finset.Subset.refl _, by simp⟩
    | cons c l ih =>
        intro hl acc
        have hidx := hS.plan_for.indices c (hl c List.mem_cons_self)
        obtain ⟨pcv, hpcv, hacc, hall⟩ := ih (fun d hd => hl d (List.mem_cons_of_mem _ hd))
          (acc ∪ freeVarIndices S.methods S.plan.freeVariables c)
        refine ⟨pcv, ?_, Finset.union_subset_left hacc, ?_⟩
        · simp only [List.foldlM_cons, hidx, Option.map_some, Option.bind_eq_bind,
            Option.bind_some, hpcv]
        · intro d hd
          rcases List.mem_cons.mp hd with rfl | hd
          · exact Finset.union_subset_right hacc
          · exact hall d hd
  obtain ⟨pcv, hpcv, _, hall⟩ := hfold toQuery.sort
    (fun c hc => hcs c ((Finset.mem_sort _).mp hc)) ∅
  exact ⟨pcv, hpcv, fun c hc => hall c ((Finset.mem_sort _).mpr hc)⟩

/-! ## §2. The jump. -/

/-- **The `do … while` of the jump.**  `p` is the path where the jump began.  If
the frame on top owes nothing, and neither does any frame the jump may pass over,
the loop ends in a stack that owes the same and weighs less. -/
theorem Ready.backjump_spec {p : List Val} {pcv : Finset Nat} {can : Bool}
    (hdead : can = true → ∀ base, base <:+ p → base.length < p.length →
      (∀ i, base.length ≤ i → i < p.length → i ∉ pcv) → ∀ rest, S.tree.pending base rest = []) :
    ∀ (n : Nat) {s : SolverState Var Val} {f : Frame Val} {fs : List (Frame Val)},
      S.Represents s f fs → f.path.length = n → f.path <:+ p →
      S.tree.pending f.path f.rest = [] →
      (∀ i, f.path.length ≤ i → i < p.length → i ∉ pcv) →
      ∃ s' cease, S.backjump pcv can n s = some (s', cease)
        ∧ (cease = true → S.owedSolutions (f :: fs) = [])
        ∧ (cease = false → ∃ g gs, S.Represents s' g gs
            ∧ S.owedSolutions (f :: fs) = S.owedSolutions (g :: gs)
            ∧ S.tree.weight (g :: gs) < S.tree.weight (f :: fs)) := by
  intro n
  -- on the length of the path; each round pops one frame, which owes nothing
  induction n with
  | zero =>
      intro s f fs h hn _ hpend _
      obtain ⟨s', hpop, _, _⟩ := hS.assignUnsuccessful_pop h
      cases fs with
      -- no frame is left: nothing was owed
      | nil =>
          refine ⟨s', true, hpop, fun _ => ?_, by simp⟩
          rw [owedSolutions, Search.owed_cons, hpend]
          rfl
      | cons g gs =>
          have hlow := Search.Stacked.length_lt h.stacked g List.mem_cons_self
          omega
  | succ n ih =>
      intro s f fs h hn hsuf hpend hskip
      obtain ⟨s', hpop, _, hnext⟩ := hS.assignUnsuccessful_pop h
      have hsame : S.owedSolutions (f :: fs) = S.owedSolutions fs := by
        rw [owedSolutions, Search.owed_cons, hpend]
        rfl
      cases fs with
      | nil =>
          refine ⟨s', true, ?_, fun _ => hsame, by simp⟩
          simp only [backjump, hpop, List.isEmpty_nil, Option.bind_eq_bind, Option.bind_some,
            if_true]
      | cons g gs =>
          have hrep := hnext g gs rfl
          obtain ⟨⟨v, hv⟩, _⟩ := h.stacked
          have hlen : f.path.length = g.path.length + 1 := by rw [hv, List.length_cons]
          have hsufg : g.path <:+ p := by
            rw [hv] at hsuf
            exact (List.suffix_cons v g.path).trans hsuf
          by_cases hjump : g.path.length ∉ pcv ∧ can = true
          · -- the level below is not suspect either: it owes nothing, pop it too
            have hskipg : ∀ i, g.path.length ≤ i → i < p.length → i ∉ pcv := by
              intro i hi hip
              rcases Nat.eq_or_lt_of_le hi with rfl | hi
              · exact hjump.1
              · exact hskip i (by omega) hip
            have hgp : g.path.length < p.length := by
              have hle := hsuf.length_le
              omega
            obtain ⟨s'', cease, hloop, hcease, hcont⟩ := ih hrep (by omega) hsufg
              (hdead hjump.2 g.path hsufg hgp hskipg g.rest) hskipg
            refine ⟨s'', cease, ?_, ?_, ?_⟩
            · simp only [backjump, hpop, List.isEmpty_cons, hrep.index, Option.bind_eq_bind,
                Option.bind_some, Bool.false_eq_true, if_false]
              rw [if_pos hjump, hloop]
            · intro hc
              rw [hsame]
              exact hcease hc
            · intro hc
              obtain ⟨g', gs', hrep', howed, hweight⟩ := hcont hc
              refine ⟨g', gs', hrep', hsame.trans howed, hweight.trans (weight_pop f _)⟩
          · -- a suspect level: the search goes on from there
            refine ⟨s', false, ?_, by simp, fun _ => ⟨g, gs, hrep, hsame, weight_pop f _⟩⟩
            simp only [backjump, hpop, List.isEmpty_cons, hrep.index, Option.bind_eq_bind,
              Option.bind_some, Bool.false_eq_true, if_false]
            rw [if_neg hjump]

end

/-! ## §3. The counters. -/

/-- While the current level has had no success and no conflict since it was
entered, the selector has only lost values that failed their test. -/
def Fresh (S : ReferenceSolver C Var Val) (s : SolverState Var Val) (f : Frame Val) : Prop :=
  s.conflictedCount = 0 → s.successCount f.path.length = some 0 →
    ∀ v ∈ S.tree.choices f.path, S.tree.ok f.path v = true → v ∈ f.rest

/-- The run rule's relation for `BackjumpingSolver`. -/
def BackjumpingRel (S : ReferenceSolver C Var Val) (s : SolverState Var Val)
    (fs : List (Frame Val)) : Prop :=
  ∃ f gs, fs = f :: gs ∧ S.Represents s f gs ∧ S.Fresh s f

section

include hS

/-- **`BackjumpingSolver::AssignUnsuccessful`**, on a level that ran out of values. -/
theorem Ready.backjumpingAssignUnsuccessful_spec (hloc : S.methods.SuggestionsLocal)
    {s : SolverState Var Val} {path : List Val} {fs : List (Frame Val)}
    (h : S.Represents s ⟨path, []⟩ fs) (hfresh : S.Fresh s ⟨path, []⟩) :
    ∃ s' cease, S.backjumpingAssignUnsuccessful s = some (s', cease)
      ∧ (cease = true → S.owedSolutions fs = [])
      ∧ (cease = false → ∃ gs, S.BackjumpingRel s' gs ∧ S.owedSolutions fs = S.owedSolutions gs
          ∧ S.tree.weight gs < S.tree.weight (⟨path, []⟩ :: fs)) := by
  have hsuspect : ∀ c ∈ S.plan.affectedConstraints path.length, c ∈ cs :=
    fun c hc => ((hS.plan_for.mem_affected _ c).mp hc).1
  obtain ⟨pcv, hpcv, hall⟩ := hS.getAffectedVariableIndices_spec hsuspect
  obtain ⟨m, hm⟩ := h.counted _ List.mem_cons_self
  set can := decide (s.conflictedCount = 0 ∧ m = 0) with hcan
  -- both counters zero: the level never admitted a value, so it is dead
  have hdead : can = true → ∀ base, base <:+ path → base.length < path.length →
      (∀ i, base.length ≤ i → i < path.length → i ∉ pcv) →
      ∀ rest, S.tree.pending base rest = [] := by
    intro hc base hsuf hlt hskip rest
    obtain ⟨hconf, hzero⟩ := of_decide_eq_true hc
    have hnone : ∀ v ∈ S.tree.choices path, S.tree.ok path v = false := by
      intro v hv
      by_contra hok
      rw [Bool.not_eq_false] at hok
      exact absurd (hfresh hconf (by rw [hm, hzero]) v hv hok) List.not_mem_nil
    refine S.tree.pending_eq_nil_of_extensions h.inRange.le hlt ?_ rest
    exact hS.dead_of_agreement hloc h.inRange hnone hsuf
      (fun c hc i hb hi hmem => hskip i hb hi (hall c hc hmem))
  -- the jump, from the level that ran out
  obtain ⟨s', cease, hloop, hcease, hcont⟩ := hS.backjump_spec hdead path.length h rfl
    List.suffix_rfl rfl (fun i hi hlt => absurd hlt (Nat.not_lt.mpr hi))
  have hsame : S.owedSolutions (⟨path, []⟩ :: fs) = S.owedSolutions fs :=
    owedSolutions_failed fs (by simp)
  cases cease with
  | true =>
      refine ⟨s', true, ?_, fun _ => hsame ▸ hcease rfl, by simp⟩
      simp only [backjumpingAssignUnsuccessful, h.index, hpcv, hm, ← hcan, hloop,
        Option.bind_eq_bind, Option.bind_some, if_true]
  | false =>
      obtain ⟨g, gs, hrep, howed, hweight⟩ := hcont rfl
      -- the count of conflicts is all that is changed after the jump
      refine ⟨{ s' with conflictedCount := s'.conflictedCount + 1 }, false, ?_, by simp,
        fun _ => ⟨g :: gs, ⟨g, gs, rfl, ⟨hrep.stacked, hrep.index, hrep.inRange, hrep.selectors,
          hrep.counted, hrep.assigned⟩, ?_⟩, hsame ▸ howed, hweight⟩⟩
      · simp only [backjumpingAssignUnsuccessful, h.index, hpcv, hm, ← hcan, hloop,
          Option.bind_eq_bind, Option.bind_some, Bool.false_eq_true, if_false]
      · -- a conflict has been counted
        intro hconf
        exact absurd hconf (Nat.succ_ne_zero _)

/-- **A turn of `BackjumpingSolver` keeps what is owed.** -/
theorem Ready.backjumping_emits (hloc : S.methods.SuggestionsLocal) :
    Emits (S.solveTurn S.backjumping) S.BackjumpingRel S.tree.weight Event.solution?
      S.owedSolutions S.TestedInPlace := by
  rintro s _ ⟨f, fs, rfl, h, hfresh⟩
  obtain ⟨checks, s', hchecks, hcount, hconf, hturn⟩ := solveTurn_spec S.backjumping h
  rcases hturn with ⟨hall, hrep, hturn⟩ | ⟨v, skipped, rest, hrest, hskip, hok, hrep, hassign, hturn⟩
  · -- no value left: the jump, which passes over frames that owe nothing
    have hfresh' : S.Fresh s' ⟨f.path, []⟩ := by
      intro hc hz v hv hokv
      rw [hconf] at hc
      rw [hcount] at hz
      have hmem := hfresh hc hz v hv hokv
      rw [hall v hmem] at hokv
      cases hokv
    obtain ⟨s'', cease, hfail, hcease, hcont⟩ :=
      hS.backjumpingAssignUnsuccessful_spec hloc hrep hfresh'
    have hbody : S.solveTurn S.backjumping s = some ⟨checks ++ [Event.rejection s''.assignments],
        if cease then none else some s''⟩ := by
      rw [hturn]
      show Option.map _ (S.backjumpingAssignUnsuccessful s') = _
      rw [hfail]
      rfl
    refine ⟨_, hbody, ?_, ?_⟩
    · intro e he
      rcases List.mem_append.mp he with he | he
      · exact (hchecks e he).1
      · rw [List.mem_singleton] at he
        subst he
        trivial
    · have hsols := filterMap_checks hchecks [Event.rejection s''.assignments]
      rw [owedSolutions_failed fs hall]
      cases cease with
      | true => exact (hcease rfl).trans hsols.symm
      | false =>
          obtain ⟨gs, hrel, howed, hweight⟩ := hcont rfl
          refine ⟨gs, hrel, ?_, ?_⟩
          · -- the exhausted frame weighs no more than the one the turn began with
            have hle := S.tree.frameWeight_skip f.path f.rest []
            rw [List.append_nil] at hle
            simp only [Search.weight_cons] at hweight ⊢
            omega
          · show _ = List.filterMap Event.solution? (checks ++ _) ++ _
            rw [hsols, howed]
            rfl
  · obtain ⟨path, rest₀⟩ := f
    simp only at hrest hskip hok hrep hassign
    subst hrest
    have hlen : path.length + 1 ≤ S.plan.freeVariables.length := h.inRange
    -- the override clears the conflict count and calls the base method
    have hrep₀ : S.Represents { s' with conflictedCount := 0 } ⟨path, rest⟩ fs :=
      ⟨hrep.stacked, hrep.index, hrep.inRange, hrep.selectors, hrep.counted, hrep.assigned⟩
    -- above the last level: a fresh level is pushed
    rcases Nat.lt_or_eq_of_le hlen with hmore | hlast
    · obtain ⟨s'', hpush, hrep', _⟩ := assignSuccessful_push hrep₀ hassign hmore
      have hbody : S.solveTurn S.backjumping s = some ⟨checks ++ [], some s''⟩ := by
        rw [hturn]
        show Option.map _ (S.assignSuccessful { s' with conflictedCount := 0 }) = _
        rw [hpush]
        rfl
      refine ⟨_, hbody, ?_, _, ⟨_, _, rfl, hrep', fun _ _ v hv _ => hv⟩, weight_push fs hmore, ?_⟩
      · intro e he
        rw [List.append_nil] at he
        exact (hchecks e he).1
      · show _ = List.filterMap Event.solution? (checks ++ []) ++ _
        rw [filterMap_checks hchecks, owedSolutions_push fs hskip hok hmore]
        rfl
    · -- at the last level: the solution is reported
      obtain ⟨s'', m, hreport, hrep', hcounted⟩ :=
        hS.assignSuccessful_report hrep₀ hassign hlast
      have hbody : S.solveTurn S.backjumping s
          = some ⟨checks ++ [Event.solution (S.solutionOf (v :: path))], some s''⟩ := by
        rw [hturn]
        show Option.map _ (S.assignSuccessful { s' with conflictedCount := 0 }) = _
        rw [hreport]
        rfl
      have hfresh' : S.Fresh s'' ⟨path, rest⟩ := by
        -- a success has been counted
        intro _ hz
        rw [hcounted] at hz
        exact absurd (Option.some.inj hz) (Nat.succ_ne_zero m)
      refine ⟨_, hbody, ?_, _, ⟨_, _, rfl, hrep', hfresh'⟩, weight_report fs, ?_⟩
      · intro e he
        rcases List.mem_append.mp he with he | he
        · exact (hchecks e he).1
        · rw [List.mem_singleton] at he
          subst he
          trivial
      · show _ = List.filterMap Event.solution? (checks ++ [_]) ++ _
        rw [filterMap_checks hchecks, owedSolutions_report fs hskip hok hlast]
        rfl

end

/-! ## §4. The main theorem. -/

/-- **`BackjumpingSolver` refines `ReferenceSolver`.**  From any accepted plan and
matching forces, over any domain, when satisfaction and suggestions depend only on
each constraint's own variables: both runs return, and report the same solutions
in the same order, with the same multiplicity. -/
theorem backjumping_refines_reference {M : ConstraintMethods C Var Val} {cs : List C}
    {free : List Var} {df af : Finset Var} {plan : Plan C Var} {forces : Assignments Var Val}
    {db : XTreeDatabase Val} {S : ReferenceSolver C Var Val}
    (hplan : deduceVariables M cs free df af = some plan)
    (hstart : start M plan forces db = some S) (hloc : M.SuggestionsLocal) :
    ∃ N evB evR, (∀ fuel, N ≤ fuel → S.run S.backjumping fuel = some evB
        ∧ S.run S.reference fuel = some evR)
      ∧ evB.filterMap Event.solution? = evR.filterMap Event.solution? := by
  obtain ⟨hS, rfl, rfl, rfl⟩ := start_ready hplan hstart
  obtain ⟨N₁, evB, hB, hsolsB, _⟩ := run_of_emits S.backjumping (hS.backjumping_emits hloc)
    (fun s hrep _ _ => ⟨_, _, rfl, hrep, fun _ _ v hv _ => hv⟩)
  obtain ⟨N₂, evR, hR, hsolsR, _⟩ := run_of_emits S.reference hS.reference_emits
    (fun s hrep _ _ => ⟨_, _, rfl, hrep⟩)
  refine ⟨max N₁ N₂, evB, evR, fun fuel hf => ⟨hB fuel ?_, hR fuel ?_⟩, ?_⟩
  · exact (le_max_left _ _).trans hf
  · exact (le_max_right _ _).trans hf
  · rw [hsolsB, hsolsR]

/-- The main theorem at the instance. -/
theorem backjumping_refines_reference_swap :
    ∃ N evB evR, (∀ fuel, N ≤ fuel → swapSolver.run swapSolver.backjumping fuel = some evB
        ∧ swapSolver.run swapSolver.reference fuel = some evR)
      ∧ evB.filterMap Event.solution? = evR.filterMap Event.solution? :=
  backjumping_refines_reference swapPlan_eq swapSolver_eq (fun _ _ _ _ _ => rfl)

end Inferno.CSP.ReferenceSolver
