/-
  Inferno.CSP.Plan
  ────────────────
  `ReferenceSolver::Plan`: which constraints bear on which free variable.

    • `deduceVariables` — the planning loop, as the code runs it; `none` is one
                          of its assertions firing,
    • `completionIndex` — the nested loop that finds the variable completing a
                          constraint; it returns the LAST of the constraint's
                          free variables in the given order,
    • `Plan.For`        — what an accepted plan says, field by field,
    • `deduceVariables_for` — every accepted plan says it.
-/
import Inferno.CSP.Constraint
import Mathlib.Data.List.Nodup
import Mathlib.Order.Interval.Finset.Nat

namespace Inferno.CSP

open Inferno.Common

variable {C Var Val : Type} [DecidableEq C] [DecidableEq Var]

/-! ## §1. The plan, as built by the code. -/

/-- `ReferenceSolver::Plan`.  The vectors are indexed by the position of a free
variable. -/
structure Plan (C Var : Type) where
  constraints : List C
  freeVariables : List Var
  domainForcedVariables : Finset Var
  arbitraryForcedVariables : Finset Var
  constraintSet : Finset C
  fullyForcedConstraintSet : Finset C
  freeVarIndicesForConstraint : C → Option (Finset Nat)
  affectedConstraints : Nat → Finset C
  completedConstraints : Nat → Finset C

/-- "Which variables complete this constraint": walk the positions, accumulate
them, and stop at the first where all of the constraint's are in. -/
def completionIndex (cFreeVarIndices : Finset Nat) : List Nat → Finset Nat → Option Nat
  | [], _ => none
  | i :: is, cumulativeFreeVars =>
      if cFreeVarIndices ⊆ insert i cumulativeFreeVars then some i
      else completionIndex cFreeVarIndices is (insert i cumulativeFreeVars)

/-- `c_free_vars`: the constraint's free variables. -/
def freeVars (M : ConstraintMethods C Var Val) (freeVariables : List Var) (c : C) :
    Finset Var :=
  (M.getVariables c).filter (· ∈ freeVariables)

/-- `c_free_var_indices`: their positions. -/
def freeVarIndices (M : ConstraintMethods C Var Val) (freeVariables : List Var) (c : C) :
    Finset Nat :=
  (freeVars M freeVariables c).image (freeVariables.idxOf ·)

/-- The plan and the `free_variables_used_by_constraints` of the planning loop. -/
structure PlanningState (C Var : Type) where
  plan : Plan C Var
  freeVariablesUsedByConstraints : Finset Nat

/-- The body of the loop over the constraints. -/
def planConstraint (M : ConstraintMethods C Var Val) (st : PlanningState C Var) (c : C) :
    Option (PlanningState C Var) := do
  let p := st.plan
  let vars := freeVars M p.freeVariables c
  let idx := freeVarIndices M p.freeVariables c
  -- rule #525: an arbitrary force must not need the database
  ASSERT (∀ v ∈ M.getVariables c, v ∈ p.arbitraryForcedVariables →
    v ∉ M.getVariablesRequiringDB c)
  some
    { plan :=
        { p with
          constraintSet := insert c p.constraintSet
          affectedConstraints := fun i =>
            if i ∈ idx then insert c (p.affectedConstraints i) else p.affectedConstraints i
          fullyForcedConstraintSet :=
            if vars = ∅ then insert c p.fullyForcedConstraintSet else p.fullyForcedConstraintSet
          completedConstraints := fun i =>
            if vars ≠ ∅ ∧ completionIndex idx (List.range p.freeVariables.length) ∅ = some i
            then insert c (p.completedConstraints i) else p.completedConstraints i
          freeVarIndicesForConstraint := fun d =>
            if d = c then some idx else p.freeVarIndicesForConstraint d }
      freeVariablesUsedByConstraints := st.freeVariablesUsedByConstraints ∪ idx }

/-- `Plan::DeduceVariables`. -/
def deduceVariables (M : ConstraintMethods C Var Val) (constraints : List C)
    (freeVariables : List Var) (domainForced arbitraryForced : Finset Var) :
    Option (Plan C Var) := do
  ASSERT freeVariables.Nodup
  ASSERT (domainForced ∩ arbitraryForced = ∅)
  ASSERT (freeVariables.toFinset ∩ (domainForced ∪ arbitraryForced) = ∅)
  let st ← constraints.foldlM (planConstraint M)
    { plan :=
        { constraints := constraints
          freeVariables := freeVariables
          domainForcedVariables := domainForced
          arbitraryForcedVariables := arbitraryForced
          constraintSet := ∅
          fullyForcedConstraintSet := ∅
          freeVarIndicesForConstraint := fun _ => none
          affectedConstraints := fun _ => ∅
          completedConstraints := fun _ => ∅ }
      freeVariablesUsedByConstraints := ∅ }
  ASSERT (∀ i ∈ List.range freeVariables.length, i ∈ st.freeVariablesUsedByConstraints)
  some st.plan

/-! ## §2. The completion loop finds the last position. -/

/-- `i` is the last of the positions `idx`. -/
def IsLastIndex (idx : Finset Nat) (i : Nat) : Prop := i ∈ idx ∧ ∀ j ∈ idx, j ≤ i

private theorem completionIndex_range' (idx : Finset Nat) :
    ∀ (m s : Nat), idx ⊆ Finset.range (s + m) → ¬ idx ⊆ Finset.range s →
      ∃ i, completionIndex idx (List.range' s m) (Finset.range s) = some i
        ∧ IsLastIndex idx i := by
  intro m
  induction m with
  | zero => intro s hsub hnot; exact absurd hsub hnot
  | succ m ih =>
      intro s hsub hnot
      have hins : insert s (Finset.range s) = Finset.range (s + 1) :=
        (Finset.range_add_one).symm
      rw [List.range'_succ, completionIndex, hins]
      split
      next hin =>
        refine ⟨s, rfl, ?_, fun j hj => ?_⟩
        · -- everything fits below `s + 1` but not below `s`, so `s` itself is used
          by_contra hs
          refine hnot (fun j hj => ?_)
          have hlt := Finset.mem_range.mp (hin hj)
          have hne : j ≠ s := fun h => hs (h ▸ hj)
          exact Finset.mem_range.mpr (by omega)
        · have hlt := Finset.mem_range.mp (hin hj)
          omega
      next hout =>
        refine ih (s + 1) ?_ hout
        rwa [Nat.add_right_comm]

theorem IsLastIndex.unique {idx : Finset Nat} {i j : Nat} (hi : IsLastIndex idx i)
    (hj : IsLastIndex idx j) : i = j :=
  Nat.le_antisymm (hj.2 i hi.1) (hi.2 j hj.1)

/-- **The nested loop returns the last position of a constraint's free variables.** -/
theorem completionIndex_eq_some {idx : Finset Nat} {n : Nat} (hne : idx ≠ ∅)
    (hsub : idx ⊆ Finset.range n) (i : Nat) :
    completionIndex idx (List.range n) ∅ = some i ↔ IsLastIndex idx i := by
  have hnot : ¬ idx ⊆ Finset.range 0 := by
    rw [Finset.range_zero, Finset.subset_empty]
    exact hne
  obtain ⟨j, hj, hlast⟩ := completionIndex_range' idx n 0 (by rwa [Nat.zero_add]) hnot
  rw [← List.range_eq_range', Finset.range_zero] at hj
  rw [hj, Option.some.injEq]
  constructor
  · rintro rfl
    exact hlast
  · intro hi
    exact hlast.unique hi

omit [DecidableEq C] in
theorem mem_freeVarIndices (M : ConstraintMethods C Var Val) {free : List Var} (c : C) (i : Nat)
    (hnd : free.Nodup) :
    i ∈ freeVarIndices M free c ↔ ∃ x ∈ M.getVariables c, free[i]? = some x := by
  unfold freeVarIndices freeVars
  simp only [Finset.mem_image, Finset.mem_filter]
  constructor
  · rintro ⟨x, ⟨hx, hfree⟩, rfl⟩
    exact ⟨x, hx, List.getElem?_idxOf hfree⟩
  · rintro ⟨x, hx, hi⟩
    obtain ⟨hlt, rfl⟩ := List.getElem?_eq_some_iff.mp hi
    exact ⟨free[i], ⟨hx, List.getElem_mem hlt⟩, hnd.idxOf_getElem i hlt⟩

omit [DecidableEq C] in
theorem freeVarIndices_subset (M : ConstraintMethods C Var Val) (free : List Var) (c : C) :
    freeVarIndices M free c ⊆ Finset.range free.length := by
  intro i hi
  unfold freeVarIndices freeVars at hi
  simp only [Finset.mem_image, Finset.mem_filter] at hi
  obtain ⟨x, ⟨_, hfree⟩, rfl⟩ := hi
  exact Finset.mem_range.mpr (List.idxOf_lt_length_of_mem hfree)

omit [DecidableEq C] in
theorem freeVars_eq_empty (M : ConstraintMethods C Var Val) (free : List Var) (c : C) :
    freeVars M free c = ∅ ↔ freeVarIndices M free c = ∅ :=
  Finset.image_eq_empty.symm

/-! ## §3. What an accepted plan says. -/

/-- What the planning loop has established after the constraints `done`. -/
structure Planned (M : ConstraintMethods C Var Val) (free : List Var) (done : List C)
    (st : PlanningState C Var) : Prop where
  freeVariables : st.plan.freeVariables = free
  mem_fullyForced : ∀ c, c ∈ st.plan.fullyForcedConstraintSet ↔
    c ∈ done ∧ freeVarIndices M free c = ∅
  mem_affected : ∀ i c, c ∈ st.plan.affectedConstraints i ↔
    c ∈ done ∧ i ∈ freeVarIndices M free c
  mem_completed : ∀ i c, c ∈ st.plan.completedConstraints i ↔
    c ∈ done ∧ IsLastIndex (freeVarIndices M free c) i
  indices : ∀ c ∈ done, st.plan.freeVarIndicesForConstraint c = some (freeVarIndices M free c)
  mem_used : ∀ i, i ∈ st.freeVariablesUsedByConstraints ↔
    ∃ c ∈ done, i ∈ freeVarIndices M free c

theorem planConstraint_forced {M : ConstraintMethods C Var Val} {st st' : PlanningState C Var}
    {c : C} (h : planConstraint M st c = some st') :
    st'.plan.domainForcedVariables = st.plan.domainForcedVariables
      ∧ st'.plan.arbitraryForcedVariables = st.plan.arbitraryForcedVariables
      ∧ st'.plan.constraints = st.plan.constraints := by
  simp only [planConstraint, ASSERT_bind_eq_some, Option.some.injEq] at h
  obtain ⟨_, rfl⟩ := h
  exact ⟨rfl, rfl, rfl⟩

/-- A set collecting the `d ∈ done` with `P d` keeps doing so when the next
element is inserted exactly if it has the property. -/
private theorem mem_collect {s : Finset C} {done : List C} {P : C → Prop} {p : Prop} [Decidable p]
    {c : C} (hs : ∀ d, d ∈ s ↔ d ∈ done ∧ P d) (hp : p ↔ P c) (d : C) :
    d ∈ (if p then insert c s else s) ↔ d ∈ done ++ [c] ∧ P d := by
  rw [List.mem_append, List.mem_singleton]
  split
  next h =>
    rw [Finset.mem_insert, hs]
    constructor
    · rintro (rfl | ⟨hd, hP⟩)
      · exact ⟨Or.inr rfl, hp.mp h⟩
      · exact ⟨Or.inl hd, hP⟩
    · rintro ⟨hd | rfl, hP⟩
      · exact Or.inr ⟨hd, hP⟩
      · exact Or.inl rfl
  next h =>
    rw [hs]
    constructor
    · rintro ⟨hd, hP⟩
      exact ⟨Or.inl hd, hP⟩
    · rintro ⟨hd | rfl, hP⟩
      · exact ⟨hd, hP⟩
      · exact absurd (hp.mpr hP) h

/-- One more constraint. -/
theorem Planned.step {M : ConstraintMethods C Var Val} {free : List Var} {done : List C}
    {st st' : PlanningState C Var} {c : C} (hp : Planned M free done st)
    (h : planConstraint M st c = some st') : Planned M free (done ++ [c]) st' := by
  simp only [planConstraint, ASSERT_bind_eq_some, Option.some.injEq] at h
  obtain ⟨_, rfl⟩ := h
  have hfree := hp.freeVariables
  refine ⟨hfree, ?_, ?_, ?_, ?_, ?_⟩
  · -- the sets grow by this constraint at the indices that it belongs to
    intro d
    simp only [hfree]
    exact mem_collect hp.mem_fullyForced (freeVars_eq_empty M free c) d
  · intro i d
    simp only [hfree]
    exact mem_collect (hp.mem_affected i) Iff.rfl d
  · intro i d
    simp only [hfree]
    refine mem_collect (hp.mem_completed i) ?_ d
    rw [ne_eq, freeVars_eq_empty]
    constructor
    · -- a constraint with free variables is completed at the largest of their indices
      rintro ⟨hne, hi⟩
      exact (completionIndex_eq_some hne (freeVarIndices_subset M free c) i).mp hi
    · intro hi
      have hne : freeVarIndices M free c ≠ ∅ := Finset.ne_empty_of_mem hi.1
      exact ⟨hne, (completionIndex_eq_some hne (freeVarIndices_subset M free c) i).mpr hi⟩
  · intro d hd
    simp only [hfree]
    split
    next hdc => rw [hdc]
    next hdc =>
      rcases List.mem_append.mp hd with hd | hd
      · exact hp.indices d hd
      · exact absurd (List.mem_singleton.mp hd) hdc
  · intro i
    simp only [hfree, Finset.mem_union, hp.mem_used, List.mem_append, List.mem_singleton]
    constructor
    · rintro (⟨d, hd, hi⟩ | hi)
      · exact ⟨d, Or.inl hd, hi⟩
      · exact ⟨c, Or.inr rfl, hi⟩
    · rintro ⟨d, hd | rfl, hi⟩
      · exact Or.inl ⟨d, hd, hi⟩
      · exact Or.inr hi

private theorem planned_foldlM {M : ConstraintMethods C Var Val} {free : List Var} :
    ∀ (todo done : List C) {st st' : PlanningState C Var}, Planned M free done st →
      todo.foldlM (planConstraint M) st = some st' →
      Planned M free (done ++ todo) st'
        ∧ st'.plan.domainForcedVariables = st.plan.domainForcedVariables
        ∧ st'.plan.arbitraryForcedVariables = st.plan.arbitraryForcedVariables
        ∧ st'.plan.constraints = st.plan.constraints := by
  intro todo
  induction todo with
  | nil =>
      intro done st st' hp h
      simp only [List.foldlM_nil, Option.pure_def, Option.some.injEq] at h
      subst h
      rw [List.append_nil]
      exact ⟨hp, rfl, rfl, rfl⟩
  | cons c todo ih =>
      intro done st st' hp h
      rw [List.foldlM_cons, Option.bind_eq_bind, Option.bind_eq_some_iff] at h
      obtain ⟨st₁, h₁, h⟩ := h
      obtain ⟨hp', hd, ha, hc⟩ := ih (done ++ [c]) (hp.step h₁) h
      obtain ⟨hd₁, ha₁, hc₁⟩ := planConstraint_forced h₁
      rw [List.append_assoc, List.singleton_append] at hp'
      exact ⟨hp', hd.trans hd₁, ha.trans ha₁, hc.trans hc₁⟩

/-- What an accepted plan says about its inputs. -/
structure Plan.For (plan : Plan C Var) (M : ConstraintMethods C Var Val) (cs : List C)
    (free : List Var) (df af : Finset Var) : Prop where
  constraints : plan.constraints = cs
  freeVariables : plan.freeVariables = free
  domainForced : plan.domainForcedVariables = df
  arbitraryForced : plan.arbitraryForcedVariables = af
  nodup : free.Nodup
  forced_disjoint : Disjoint df af
  free_disjoint : ∀ x ∈ free, x ∉ df ∪ af
  mem_fullyForced : ∀ c, c ∈ plan.fullyForcedConstraintSet ↔
    c ∈ cs ∧ freeVarIndices M free c = ∅
  mem_affected : ∀ i c, c ∈ plan.affectedConstraints i ↔
    c ∈ cs ∧ i ∈ freeVarIndices M free c
  mem_completed : ∀ i c, c ∈ plan.completedConstraints i ↔
    c ∈ cs ∧ IsLastIndex (freeVarIndices M free c) i
  indices : ∀ c ∈ cs, plan.freeVarIndicesForConstraint c = some (freeVarIndices M free c)
  used : ∀ i < free.length, ∃ c ∈ cs, i ∈ freeVarIndices M free c

/-- **Every plan `DeduceVariables` accepts is a plan for its inputs.** -/
theorem deduceVariables_for {M : ConstraintMethods C Var Val} {cs : List C}
    {free : List Var} {df af : Finset Var} {plan : Plan C Var}
    (h : deduceVariables M cs free df af = some plan) : plan.For M cs free df af := by
  simp only [deduceVariables, ASSERT_bind_eq_some] at h
  obtain ⟨hnd, hdisj, hfd, h⟩ := h
  rw [Option.bind_eq_bind, Option.bind_eq_some_iff] at h
  obtain ⟨st, hst, h⟩ := h
  rw [ASSERT_bind_eq_some, Option.some.injEq] at h
  obtain ⟨hused, rfl⟩ := h
  obtain ⟨hp, hd, ha, hc⟩ := planned_foldlM cs []
    ⟨rfl, by simp, by simp, by simp, by simp, by simp⟩ hst
  rw [List.nil_append] at hp
  refine ⟨hc, hp.freeVariables, hd, ha, hnd, Finset.disjoint_iff_inter_eq_empty.mpr hdisj, ?_,
    hp.mem_fullyForced, hp.mem_affected, hp.mem_completed, hp.indices, ?_⟩
  · intro x hx hforced
    have hmem := Finset.mem_inter.mpr ⟨List.mem_toFinset.mpr hx, hforced⟩
    rw [hfd] at hmem
    exact absurd hmem (Finset.notMem_empty x)
  · intro i hi
    exact (hp.mem_used i).mp (hused i (List.mem_range.mpr hi))

end Inferno.CSP
