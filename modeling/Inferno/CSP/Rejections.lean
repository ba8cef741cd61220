/-
  Inferno.CSP.Rejections
  ──────────────────────
  **WHAT THE REJECTION REPORTS SAY.**

    • `NoGood`            — a partial assignment that no solution agrees with,
    • `Hooks`             — what the two overrides do to the stack, whatever they owe,
    • `Hooks.last_rejection` — a run over free variables ends by rejecting the forces
                            alone,
    • `rejections_are_no_goods` — so its rejections are no-goods exactly when there
                            is nothing to lose.
-/
import Inferno.CSP.BackjumpingExact

namespace Inferno.CSP.ReferenceSolver

open Inferno.Common
open Inferno.Lib

variable {C Var Val : Type} [LinearOrder C] [DecidableEq Var] [LinearOrder Val]
variable {S : ReferenceSolver C Var Val} {cs : List C} (hS : S.Ready cs)

/-! ## §1. No-goods. -/

/-- The complete assignment of a solution agrees with `a` on all the variables of `a`. -/
def AgreesWith (S : ReferenceSolver C Var Val) (b a : Assignments Var Val) : Prop :=
  ∀ x v, a.lookup x = some v → (S.forcedAssignments.merge b).lookup x = some v

/-- **A no-good**: no solution agrees with it. -/
def NoGood (S : ReferenceSolver C Var Val) (Sol : Assignments Var Val → Prop)
    (a : Assignments Var Val) : Prop :=
  ∀ b, Sol b → ¬ S.AgreesWith b a

omit [LinearOrder C] [LinearOrder Val] in
/-- Every solution agrees with the forces. -/
theorem agreesWith_forces (b : Assignments Var Val) :
    S.AgreesWith b S.forcedAssignments := by
  intro x v hx
  rw [StdMap.lookup_merge, hx]
  rfl

omit [LinearOrder C] [LinearOrder Val] in
/-- There is no solution when the fully forced constraints fail. -/
theorem Ready.not_isSolution (hS : S.Ready cs)
    (hforced : (consistencyCheck S.methods S.forcedAssignments
      S.plan.fullyForcedConstraintSet).1 = false) (b : Assignments Var Val) :
    ¬ S.IsSolution cs b := by
  intro hb
  have htrue : (consistencyCheck S.methods S.forcedAssignments
      S.plan.fullyForcedConstraintSet).1 = true := by
    rw [consistencyCheck_fst]
    intro c hc
    rw [← hS.isSatisfied_fullyForced hc (S.forcedAssignments.merge b)]
    · exact hb.2 c ((hS.plan_for.mem_fullyForced c).mp hc).1
    · intro x hx
      have hnone : b.lookup x = none := by
        rw [StdMap.lookup_eq_none, hb.1, List.mem_toFinset]
        exact hx
      rw [StdMap.lookup_merge, hnone, Option.or_none]
  rw [hforced] at htrue
  cases htrue

/-! ## §2. The hooks. -/

/-- The overrides move over the stack: failing pops levels, and leaves the forces alone
when it ceases; succeeding pushes a level or stays. -/
structure Hooks (S : ReferenceSolver C Var Val) (ov : Overrides C Var Val) : Prop where
  unsuccessful : ∀ {s path fs}, S.Represents s ⟨path, []⟩ fs →
    ∃ s' cease, ov.assignUnsuccessful s = some (s', cease)
      ∧ (cease = true → s'.assignments = S.forcedAssignments)
      ∧ (cease = false → ∃ g gs, S.Represents s' g gs
          ∧ S.tree.weight (g :: gs) < S.tree.weight (⟨path, []⟩ :: fs))
  successful : ∀ {s path rest fs v} (skipped : List Val), S.Represents s ⟨path, rest⟩ fs →
    s.assignments = S.assignPath (v :: path) →
    ∃ s' out, ov.assignSuccessful s = some (s', out)
      ∧ ∃ g gs, S.Represents s' g gs
        ∧ S.tree.weight (g :: gs) < S.tree.weight (⟨path, skipped ++ v :: rest⟩ :: fs)

section

include hS

omit [LinearOrder C] [LinearOrder Val] in
/-- Failing at the first level leaves the forces alone. -/
theorem Ready.assignUnsuccessful_last {s s' : SolverState Var Val} {f : Frame Val}
    {cease : Bool} (h : S.Represents s f []) (hpop : S.assignUnsuccessful s = some (s', cease)) :
    s'.assignments = S.forcedAssignments := by
  obtain ⟨x, hx⟩ := h.variable
  have hsel := h.selectors f List.mem_cons_self
  have hindex := h.index
  have hassigned := h.assigned
  have hpath : f.path = [] := h.stacked
  rw [hpath, List.length_nil] at hx hsel hindex
  rw [hpath, List.length_nil, assignPath_nil] at hassigned
  have herase : s'.assignments = s.assignments.erase x := by
    simp only [assignUnsuccessful, hindex, hsel, hx, Option.bind_eq_bind, Option.bind_some,
      if_true, Option.some.injEq, Prod.mk.injEq] at hpop
    rw [← hpop.1]
  rw [herase]
  apply StdMap.ext_lookup
  intro y
  rw [StdMap.lookup_erase]
  by_cases hy : y = x
  · rw [if_pos hy, hy, hS.not_forced hx]
  · rw [if_neg hy, hassigned x y hx hy]

/-- `ReferenceSolver` succeeds by pushing a level or reporting. -/
theorem Ready.assignSuccessful_moves {s : SolverState Var Val} {path rest : List Val}
    {fs : List (Frame Val)} {v : Val} (skipped : List Val) (h : S.Represents s ⟨path, rest⟩ fs)
    (hassign : s.assignments = S.assignPath (v :: path)) :
    ∃ s' out, S.assignSuccessful s = some (s', out)
      ∧ ∃ g gs, S.Represents s' g gs
        ∧ S.tree.weight (g :: gs) < S.tree.weight (⟨path, skipped ++ v :: rest⟩ :: fs) := by
  have hlen : path.length + 1 ≤ S.plan.freeVariables.length := h.inRange
  rcases Nat.lt_or_eq_of_le hlen with hmore | hlast
  · obtain ⟨s', hpush, hrep, _⟩ := assignSuccessful_push h hassign hmore
    exact ⟨s', _, hpush, _, _, hrep, weight_push fs hmore⟩
  · obtain ⟨s', m, hreport, hrep, _⟩ := hS.assignSuccessful_report h hassign hlast
    exact ⟨s', _, hreport, _, _, hrep, weight_report fs⟩

theorem Ready.reference_hooks : S.Hooks S.reference := by
  refine ⟨?_, fun skipped h hassign => hS.assignSuccessful_moves skipped h hassign⟩
  intro s path fs h
  obtain ⟨s', hpop, _, hnext⟩ := hS.assignUnsuccessful_pop h
  refine ⟨s', fs.isEmpty, hpop, ?_, ?_⟩
  · intro hempty
    rw [List.isEmpty_iff.mp hempty] at h
    exact hS.assignUnsuccessful_last h hpop
  · intro hempty
    cases fs with
    | nil => cases hempty
    | cons g gs => exact ⟨g, gs, hnext g gs rfl, weight_pop _ _⟩

/-- The jump pops levels too, whichever it jumps over. -/
theorem Ready.backjump_pops (pcv : Finset Nat) (can : Bool) :
    ∀ (n : Nat) {s : SolverState Var Val} {f : Frame Val} {fs : List (Frame Val)},
      S.Represents s f fs → f.path.length = n →
      ∃ s' cease, S.backjump pcv can n s = some (s', cease)
        ∧ (cease = true → s'.assignments = S.forcedAssignments)
        ∧ (cease = false → ∃ g gs, S.Represents s' g gs
            ∧ S.tree.weight (g :: gs) < S.tree.weight (f :: fs)) := by
  intro n
  induction n with
  | zero =>
      intro s f fs h hn
      -- at the first level there is nothing below to jump to
      obtain ⟨s', hpop, _, _⟩ := hS.assignUnsuccessful_pop h
      cases fs with
      | nil => exact ⟨s', true, hpop, fun _ => hS.assignUnsuccessful_last h hpop, by simp⟩
      | cons g gs =>
          have hlow := Search.Stacked.length_lt h.stacked g List.mem_cons_self
          omega
  | succ n ih =>
      intro s f fs h hn
      obtain ⟨s', hpop, _, hnext⟩ := hS.assignUnsuccessful_pop h
      unfold backjump
      rw [hpop]
      cases fs with
      | nil => exact ⟨s', true, rfl, fun _ => hS.assignUnsuccessful_last h hpop, by simp⟩
      | cons g gs =>
          have hrep := hnext g gs rfl
          obtain ⟨⟨v, hv⟩, _⟩ := h.stacked
          have hlen : g.path.length = n := by
            rw [hv, List.length_cons] at hn
            omega
          dsimp only [Option.bind_eq_bind, Option.bind_some, List.isEmpty_cons]
          rw [if_neg (by simp)]
          -- the level below is not among the conflicting ones: the jump goes on
          by_cases hjump : s'.currentVarIndex ∉ pcv ∧ can = true
          · rw [if_pos hjump]
            obtain ⟨s'', cease, hloop, hcease, hcont⟩ := ih hrep hlen
            refine ⟨s'', cease, hloop, hcease, ?_⟩
            intro hc
            obtain ⟨g', gs', hrep', hweight⟩ := hcont hc
            exact ⟨g', gs', hrep', hweight.trans (weight_pop f _)⟩
          · rw [if_neg hjump]
            exact ⟨s', false, rfl, by simp, fun _ => ⟨g, gs, hrep, weight_pop f _⟩⟩

theorem Ready.backjumping_hooks : S.Hooks S.backjumping := by
  refine ⟨?_, ?_⟩
  · intro s path fs h
    have hsuspect : ∀ c ∈ S.plan.affectedConstraints path.length, c ∈ cs :=
      fun c hc => ((hS.plan_for.mem_affected _ c).mp hc).1
    obtain ⟨pcv, hpcv, _⟩ := hS.getAffectedVariableIndices_spec hsuspect
    obtain ⟨m, hm⟩ := h.counted _ List.mem_cons_self
    obtain ⟨s', cease, hloop, hcease, hcont⟩ :=
      hS.backjump_pops pcv (decide (s.conflictedCount = 0 ∧ m = 0)) path.length h rfl
    have hbody : S.backjumpingAssignUnsuccessful s = some (if cease then (s', true)
        else ({ s' with conflictedCount := s'.conflictedCount + 1 }, false)) := by
      simp only [backjumpingAssignUnsuccessful, h.index, hpcv, hm, hloop, Option.bind_eq_bind,
        Option.bind_some]
      cases cease <;> rfl
    cases cease with
    | true => exact ⟨s', true, hbody, fun _ => hcease rfl, by simp⟩
    | false =>
        obtain ⟨g, gs, hrep, hweight⟩ := hcont rfl
        exact ⟨_, false, hbody, by simp, fun _ => ⟨g, gs, ⟨hrep.stacked, hrep.index, hrep.inRange,
          hrep.selectors, hrep.counted, hrep.assigned⟩, hweight⟩⟩
  · intro s path rest fs v skipped h hassign
    exact hS.assignSuccessful_moves skipped (s := { s with conflictedCount := 0 })
      ⟨h.stacked, h.index, h.inRange, h.selectors, h.counted, h.assigned⟩ hassign

/-! ## §3. The last rejection. -/

omit hS in
/-- **A run over free variables ends by rejecting the forces alone**, however many
solutions it has reported. -/
theorem Hooks.last_rejection {ov : Overrides C Var Val} (hov : S.Hooks ov)
    (hfree : S.plan.freeVariables ≠ [])
    (hforced : (consistencyCheck S.methods S.forcedAssignments
      S.plan.fullyForcedConstraintSet).1 = true) :
    ∃ N ev, (∀ fuel, N ≤ fuel → S.run ov fuel = some ev)
      ∧ Event.rejection S.forcedAssignments ∈ ev := by
  obtain ⟨s, hs, hrep, _, _⟩ := makeSelector_root hfree
  obtain ⟨pre, out, hloop, hlast⟩ := loop_breaks (S.solveTurn ov) S.Rel S.tree.weight
    (fun out => Event.rejection S.forcedAssignments ∈ out) (by
      intro s fs hrel
      obtain ⟨f, gs, rfl, h⟩ := hrel
      obtain ⟨checks, s', _, _, _, hturn⟩ := solveTurn_spec ov h
      -- the turn fails, and ceases by the rejection of the forces, or goes on lighter
      rcases hturn with ⟨_, hrep, hturn⟩ | ⟨v, skipped, rest, hrest, _, _, hrep, hassign, hturn⟩
      · obtain ⟨s'', cease, hfail, hcease, hcont⟩ := hov.unsuccessful hrep
        rw [hfail] at hturn
        refine ⟨_, hturn, ?_⟩
        cases cease with
        | true =>
            show _ ∈ checks ++ [Event.rejection s''.assignments]
            rw [hcease rfl]
            simp
        | false =>
            obtain ⟨g, gs', hrep', hweight⟩ := hcont rfl
            refine ⟨g :: gs', ⟨g, gs', rfl, hrep'⟩, ?_⟩
            have hle := S.tree.frameWeight_skip f.path f.rest []
            rw [List.append_nil] at hle
            simp only [Search.weight_cons] at hweight ⊢
            omega
      · -- the turn succeeds, and goes on lighter
        obtain ⟨path, rest₀⟩ := f
        dsimp only at hrest hrep hassign
        subst hrest
        obtain ⟨s'', out, hsucc, g, gs', hrep', hweight⟩ :=
          hov.successful skipped hrep hassign
        rw [hsucc] at hturn
        exact ⟨_, hturn, g :: gs', ⟨g, gs', rfl, hrep'⟩, hweight⟩)
    _ s [⟨[], S.tree.choices []⟩] (Nat.lt_succ_self _) ⟨_, _, rfl, hrep⟩
  refine ⟨S.tree.weight [⟨[], S.tree.choices []⟩] + 1,
    Event.check none S.plan.fullyForcedConstraintSet S.forcedAssignments :: (pre ++ out), ?_, ?_⟩
  · intro fuel hf
    simp only [run, solve, hforced, hfree, hs, hloop fuel hf, Option.bind_eq_bind,
      Option.bind_some, if_false, Bool.true_eq_false]
  · exact List.mem_cons_of_mem _ (List.mem_append_right pre hlast)

/-- **A run of either solver** rejects no-goods only exactly when it has no free
variable, or there is no solution. -/
theorem Ready.rejections_iff {ov : Overrides C Var Val} (hov : S.Hooks ov) :
    ∃ N ev, (∀ fuel, N ≤ fuel → S.run ov fuel = some ev)
      ∧ ∀ Sol : Assignments Var Val → Prop, (∀ b, Sol b → S.IsSolution cs b) →
          ((∀ a, Event.rejection a ∈ ev → S.NoGood Sol a)
            ↔ S.plan.freeVariables = [] ∨ ¬ ∃ b, Sol b) := by
  have hnone (Sol : Assignments Var Val → Prop) (h : ¬ ∃ b, Sol b) (a : Assignments Var Val) :
      S.NoGood Sol a :=
    fun b hb => absurd ⟨b, hb⟩ h
  cases hforced : (consistencyCheck S.methods S.forcedAssignments
      S.plan.fullyForcedConstraintSet).1 with
  | false =>
      refine ⟨0, _, fun fuel _ => by simp only [run, hforced, if_true]; rfl, ?_⟩
      intro Sol hSol
      -- the forces fail a constraint, so there is no solution
      have hempty : ¬ ∃ b, Sol b := by
        intro h
        obtain ⟨b, hb⟩ := h
        exact hS.not_isSolution hforced b (hSol b hb)
      exact ⟨fun _ => Or.inr hempty, fun _ a _ => hnone Sol hempty a⟩
  | true =>
      by_cases hfree : S.plan.freeVariables = []
      · refine ⟨0, [Event.check none S.plan.fullyForcedConstraintSet S.forcedAssignments,
          Event.solution StdMap.empty], fun fuel _ => by simp [run, hforced, hfree], ?_⟩
        intro Sol _
        exact ⟨fun _ => Or.inl hfree, fun _ a ha => absurd ha (by simp)⟩
      · obtain ⟨N, ev, hrun, hlast⟩ := hov.last_rejection hfree hforced
        refine ⟨N, ev, hrun, ?_⟩
        intro Sol _
        constructor
        · intro h
          refine Or.inr ?_
          intro hsol
          obtain ⟨b, hb⟩ := hsol
          -- every solution agrees with the forces, which are rejected last
          exact h _ hlast b hb (agreesWith_forces b)
        · intro h a _
          exact hnone Sol (h.resolve_left hfree) a

end

/-! ## §4. The main theorem. -/

/-- **When the rejections are no-goods.**  From any accepted plan and matching
forces, a run of `ReferenceSolver` or of `BackjumpingSolver` returns, and the maps
it passes to the rejection report function are all no-goods exactly when the run has
no free variable or there is no solution to extend them to.  `Sol` is any set of
solutions of the constraints: all of them, those over the domain, those reported. -/
theorem rejections_are_no_goods {M : ConstraintMethods C Var Val} {cs : List C}
    {free : List Var} {df af : Finset Var} {plan : Plan C Var} {forces : Assignments Var Val}
    {db : XTreeDatabase Val} {S : ReferenceSolver C Var Val}
    (hplan : deduceVariables M cs free df af = some plan)
    (hstart : start M plan forces db = some S)
    (ov : Overrides C Var Val) (hov : ov = S.reference ∨ ov = S.backjumping) :
    ∃ N ev, (∀ fuel, N ≤ fuel → S.run ov fuel = some ev)
      ∧ ∀ Sol : Assignments Var Val → Prop, (∀ b, Sol b → S.IsSolution cs b) →
          ((∀ a, Event.rejection a ∈ ev → S.NoGood Sol a) ↔ free = [] ∨ ¬ ∃ b, Sol b) := by
  obtain ⟨hS, rfl, rfl, rfl⟩ := start_ready hplan hstart
  rcases hov with rfl | rfl
  · exact hS.rejections_iff hS.reference_hooks
  · exact hS.rejections_iff hS.backjumping_hooks

/-- The main theorem at the instance, for both solvers. -/
theorem rejections_are_no_goods_swap :
    (∃ N ev, (∀ fuel, N ≤ fuel → swapSolver.run swapSolver.reference fuel = some ev)
      ∧ ((∀ a, Event.rejection a ∈ ev → swapSolver.NoGood (swapSolver.IsSolution [0]) a)
          ↔ [0, 1] = [] ∨ ¬ ∃ b, swapSolver.IsSolution [0] b))
    ∧ ∃ N ev, (∀ fuel, N ≤ fuel → swapSolver.run swapSolver.backjumping fuel = some ev)
      ∧ ((∀ a, Event.rejection a ∈ ev → swapSolver.NoGood (swapSolver.IsSolution [0]) a)
          ↔ [0, 1] = [] ∨ ¬ ∃ b, swapSolver.IsSolution [0] b) := by
  constructor
  · obtain ⟨N, ev, hrun, h⟩ :=
      rejections_are_no_goods swapPlan_eq swapSolver_eq swapSolver.reference (Or.inl rfl)
    exact ⟨N, ev, hrun, h _ (fun b hb => hb)⟩
  · obtain ⟨N, ev, hrun, h⟩ :=
      rejections_are_no_goods swapPlan_eq swapSolver_eq swapSolver.backjumping (Or.inr rfl)
    exact ⟨N, ev, hrun, h _ (fun b hb => hb)⟩

/-- The free variables 0 and 1 take the values 0 and 1. -/
def swapSolution : Assignments Nat Nat := (StdMap.empty.set 0 0).set 1 1

theorem swapSolution_isSolution : swapSolver.IsSolution [0] swapSolution := by
  refine ⟨by decide, ?_⟩
  intro c _
  show swapMethods.isSatisfied 0 (swapForces.merge swapSolution) = true
  decide

/-- **A rejected map that a solution extends**: both solvers end by rejecting the
forces alone, and 0 ↦ 0, 1 ↦ 1 is a solution. -/
theorem rejected_solution_swap (ov : Overrides Nat Nat Nat)
    (hov : ov = swapSolver.reference ∨ ov = swapSolver.backjumping) :
    ∃ N ev a b, (∀ fuel, N ≤ fuel → swapSolver.run ov fuel = some ev)
      ∧ Event.rejection a ∈ ev ∧ swapSolver.IsSolution [0] b ∧ swapSolver.AgreesWith b a := by
  obtain ⟨hS, _, _, _⟩ := start_ready swapPlan_eq swapSolver_eq
  have hhooks : swapSolver.Hooks ov := by
    rcases hov with rfl | rfl
    · exact hS.reference_hooks
    · exact hS.backjumping_hooks
  obtain ⟨N, ev, hrun, hlast⟩ := hhooks.last_rejection (by decide) (by decide)
  exact ⟨N, ev, _, swapSolution, hrun, hlast, swapSolution_isSolution, agreesWith_forces _⟩

/-- Both solvers reject a map that is no no-good. -/
theorem not_rejections_are_no_goods :
    (∃ N ev a b, (∀ fuel, N ≤ fuel → swapSolver.run swapSolver.reference fuel = some ev)
      ∧ Event.rejection a ∈ ev ∧ swapSolver.IsSolution [0] b ∧ swapSolver.AgreesWith b a)
    ∧ ∃ N ev a b, (∀ fuel, N ≤ fuel → swapSolver.run swapSolver.backjumping fuel = some ev)
      ∧ Event.rejection a ∈ ev ∧ swapSolver.IsSolution [0] b ∧ swapSolver.AgreesWith b a :=
  ⟨rejected_solution_swap _ (Or.inl rfl), rejected_solution_swap _ (Or.inr rfl)⟩

end Inferno.CSP.ReferenceSolver
