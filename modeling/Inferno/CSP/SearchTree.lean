/-
  Inferno.CSP.SearchTree
  ──────────────────────
  The search tree behind a started solver.

    • `Ready`      — a started solver whose plan was accepted,
    • `assignPath` — the assignments after choosing the values of a path,
    • `tree`       — the `Search` that the solver walks: a level's candidates are
                     what its selector would generate there, and the test is the
                     consistency check of the constraints completed there,
    • `Solution`   — what a solution of the constraints IS, independently of any
                     search, and its match with the accepted paths of the tree.
-/
import Inferno.Lib.Backtrack
import Inferno.CSP.ReferenceSolver

namespace Inferno.CSP.ReferenceSolver

open Inferno.Common
open Inferno.Lib

variable {C Var Val : Type} [LinearOrder C] [DecidableEq Var] [LinearOrder Val]

/-! ## §1. Started solvers. -/

/-- A solver whose plan was accepted and whose forces match it. -/
structure Ready (S : ReferenceSolver C Var Val) (cs : List C) : Prop where
  plan_for : S.plan.For S.methods cs S.plan.freeVariables S.plan.domainForcedVariables
    S.plan.arbitraryForcedVariables
  forced_keys : S.forcedAssignments.keys
    = S.plan.domainForcedVariables ∪ S.plan.arbitraryForcedVariables

omit [LinearOrder Val] in
/-- **`DeduceVariables` and `Start` together make a ready solver.** -/
theorem start_ready {M : ConstraintMethods C Var Val} {cs : List C} {free : List Var}
    {df af : Finset Var} {plan : Plan C Var} {forces : Assignments Var Val}
    {db : XTreeDatabase Val} {S : ReferenceSolver C Var Val}
    (hplan : deduceVariables M cs free df af = some plan)
    (hstart : start M plan forces db = some S) :
    S.Ready cs ∧ S.methods = M ∧ S.plan.freeVariables = free ∧ S.forcedAssignments = forces := by
  have hfor := deduceVariables_for hplan
  simp only [start, ASSERT_bind_eq_some, Option.some.injEq] at hstart
  obtain ⟨hd, ha, hcard, rfl⟩ := hstart
  have hdisj : Disjoint plan.domainForcedVariables plan.arbitraryForcedVariables := by
    rw [hfor.domainForced, hfor.arbitraryForced]
    exact hfor.forced_disjoint
  refine ⟨⟨?_, ?_⟩, rfl, hfor.freeVariables, rfl⟩
  · show plan.For M cs plan.freeVariables plan.domainForcedVariables plan.arbitraryForcedVariables
    rw [hfor.freeVariables, hfor.domainForced, hfor.arbitraryForced]
    exact hfor
  · -- the forced variables are keys, and there is no room for another key
    symm
    refine Finset.eq_of_subset_of_card_le (Finset.union_subset hd ha) ?_
    rw [Finset.card_union_of_disjoint hdisj]
    exact hcard.le

/-! ## §2. Paths. -/

section

variable (S : ReferenceSolver C Var Val)

/-- The assignments when the values of `path` (latest first) have been chosen. -/
def assignPath : List Val → Assignments Var Val
  | [] => S.forcedAssignments
  | v :: path =>
      match S.plan.freeVariables[path.length]? with
      | some x => (assignPath path).set x v
      | none => assignPath path

/-- The candidate values of the level below `path`. -/
def candidates (path : List Val) : List Val :=
  match S.plan.freeVariables[path.length]? with
  | some x => (valueSelector S.methods S.xTreeDb (S.plan.affectedConstraints path.length)
      (S.assignPath path) x).getD []
  | none => []

/-- **The search tree of a started solver.** -/
def tree : Search Val where
  depth := S.plan.freeVariables.length
  choices := S.candidates
  ok path v := (consistencyCheck S.methods (S.assignPath (v :: path))
    (S.plan.completedConstraints path.length)).1

omit [LinearOrder C] [LinearOrder Val] in
@[simp] theorem assignPath_nil : S.assignPath [] = S.forcedAssignments := rfl

omit [LinearOrder C] [LinearOrder Val] in
theorem assignPath_cons {path : List Val} {x : Var} (v : Val)
    (hx : S.plan.freeVariables[path.length]? = some x) :
    S.assignPath (v :: path) = (S.assignPath path).set x v := by
  rw [assignPath, hx]

@[simp] theorem tree_depth : S.tree.depth = S.plan.freeVariables.length := rfl

theorem tree_ok_iff (path : List Val) (v : Val) :
    S.tree.ok path v = true ↔ ∀ c ∈ S.plan.completedConstraints path.length,
      S.methods.isSatisfied c (S.assignPath (v :: path)) = true :=
  consistencyCheck_fst _ _ _

theorem tree_choices_nodup (path : List Val) : (S.tree.choices path).Nodup := by
  show (S.candidates path).Nodup
  unfold candidates
  split
  next x hx =>
    obtain ⟨vals, hvals, hnd⟩ := valueSelector_spec S.methods S.xTreeDb
      (S.plan.affectedConstraints path.length) (S.assignPath path) x
    rw [hvals]
    exact hnd
  next => exact List.nodup_nil

/-- Below a path, the selector the code makes generates the tree's choices. -/
theorem valueSelector_eq_choices {path : List Val} {x : Var}
    (hx : S.plan.freeVariables[path.length]? = some x) :
    valueSelector S.methods S.xTreeDb (S.plan.affectedConstraints path.length)
      (S.assignPath path) x = some (S.tree.choices path) := by
  obtain ⟨vals, hvals, _⟩ := valueSelector_spec S.methods S.xTreeDb
    (S.plan.affectedConstraints path.length) (S.assignPath path) x
  show _ = some (S.candidates path)
  rw [candidates, hx]
  simp only [hvals, Option.getD_some]

omit [LinearOrder C] [LinearOrder Val] in
/-- Variables not chosen between a suffix and the path look the same in both. -/
theorem lookup_assignPath_of_suffix {base path : List Val} (hsuf : base <:+ path) {x : Var}
    (hx : ∀ i, base.length ≤ i → i < path.length → S.plan.freeVariables[i]? ≠ some x) :
    (S.assignPath path).lookup x = (S.assignPath base).lookup x := by
  obtain ⟨pre, rfl⟩ := hsuf
  induction pre with
  | nil => rfl
  | cons v pre ih =>
      have ih' := ih (fun i hb hi => hx i hb (by
        rw [List.cons_append, List.length_cons]
        omega))
      rw [List.cons_append, assignPath]
      split
      next y hy =>
        have hxy : x ≠ y := by
          rintro rfl
          refine hx (pre ++ base).length ?_ ?_ hy
          · rw [List.length_append]
            omega
          · rw [List.cons_append, List.length_cons]
            omega
        rw [StdMap.lookup_set, if_neg hxy]
        exact ih'
      next => exact ih'

end

/-! ## §3. Facts about a ready solver. -/

private theorem toFinset_take_succ {l : List Var} {k : Nat} {x : Var} (h : l[k]? = some x) :
    (l.take (k + 1)).toFinset = insert x (l.take k).toFinset := by
  rw [List.take_add_one, h]
  ext z
  simp

section

variable {S : ReferenceSolver C Var Val} {cs : List C} (hS : S.Ready cs)

include hS

omit [LinearOrder C] [LinearOrder Val] in
theorem Ready.free_inj {i j : Nat} {x : Var} (hi : S.plan.freeVariables[i]? = some x)
    (hj : S.plan.freeVariables[j]? = some x) : i = j := by
  obtain ⟨hilt, hix⟩ := List.getElem?_eq_some_iff.mp hi
  obtain ⟨hjlt, hjx⟩ := List.getElem?_eq_some_iff.mp hj
  exact (hS.plan_for.nodup.getElem_inj_iff).mp (hix.trans hjx.symm)

omit [LinearOrder C] [LinearOrder Val] in
theorem Ready.not_forced {i : Nat} {x : Var} (hi : S.plan.freeVariables[i]? = some x) :
    S.forcedAssignments.lookup x = none := by
  rw [StdMap.lookup_eq_none, hS.forced_keys]
  exact hS.plan_for.free_disjoint x (List.mem_of_getElem? hi)

omit [LinearOrder C] [LinearOrder Val] in
/-- A free variable at or past the path's level has no value yet. -/
theorem Ready.lookup_assignPath_unassigned {path : List Val} {i : Nat} {x : Var}
    (hi : S.plan.freeVariables[i]? = some x) (hle : path.length ≤ i) :
    (S.assignPath path).lookup x = none := by
  rw [S.lookup_assignPath_of_suffix (List.nil_suffix : [] <:+ path)]
  · exact hS.not_forced hi
  · intro j _ hj hjx
    have hji := hS.free_inj hjx hi
    omega

omit [LinearOrder C] [LinearOrder Val] in
/-- The free variable of a level has the value the path chose there. -/
theorem Ready.lookup_assignPath_cons {base path : List Val} {v : Val} {x : Var}
    (hsuf : (v :: base) <:+ path) (hx : S.plan.freeVariables[base.length]? = some x) :
    (S.assignPath path).lookup x = some v := by
  rw [S.lookup_assignPath_of_suffix hsuf, S.assignPath_cons v hx, StdMap.lookup_set,
    if_pos rfl]
  intro j hj _ hjx
  have hji := hS.free_inj hjx hx
  rw [List.length_cons] at hj
  omega

omit [LinearOrder C] [LinearOrder Val] in
theorem Ready.completed_subset_affected (k : Nat) :
    S.plan.completedConstraints k ⊆ S.plan.affectedConstraints k := by
  intro c hc
  obtain ⟨hcs, hlast⟩ := (hS.plan_for.mem_completed k c).mp hc
  exact (hS.plan_for.mem_affected k c).mpr ⟨hcs, hlast.1⟩

omit [LinearOrder C] [LinearOrder Val] in
/-- A forced variable keeps its forced value along every path. -/
theorem Ready.lookup_assignPath_forced {x : Var} (path : List Val)
    (hx : x ∈ S.forcedAssignments.keys) :
    (S.assignPath path).lookup x = S.forcedAssignments.lookup x := by
  refine S.lookup_assignPath_of_suffix (List.nil_suffix : [] <:+ path) ?_
  intro i _ _ hi
  have hnone := hS.not_forced hi
  rw [StdMap.lookup_eq_none] at hnone
  exact hnone hx

omit [LinearOrder C] [LinearOrder Val] in
theorem Ready.forced_keys_subset (path : List Val) :
    S.forcedAssignments.keys ⊆ (S.assignPath path).keys := by
  intro x hx
  rw [StdMap.mem_keys, hS.lookup_assignPath_forced path hx]
  exact (StdMap.mem_keys _ _).mp hx

omit [LinearOrder C] [LinearOrder Val] in
/-- A variable of a constraint completed at `k` is not a free variable past `k`. -/
theorem Ready.completed_vars {k j : Nat} {c : C} {x : Var}
    (hc : c ∈ S.plan.completedConstraints k) (hx : x ∈ S.methods.getVariables c)
    (hj : S.plan.freeVariables[j]? = some x) : j ≤ k := by
  obtain ⟨_, hlast⟩ := (hS.plan_for.mem_completed k c).mp hc
  exact hlast.2 j ((mem_freeVarIndices S.methods c j hS.plan_for.nodup).mpr ⟨x, hx, hj⟩)

end

/-! ## §4. Solutions, independently of any search. -/

section

variable (S : ReferenceSolver C Var Val)

/-- **A solution**: a total assignment of the free variables that, together with
the forces, satisfies every constraint. -/
def IsSolution (cs : List C) (a : Assignments Var Val) : Prop :=
  a.keys = S.plan.freeVariables.toFinset
    ∧ ∀ c ∈ cs, S.methods.isSatisfied c (S.forcedAssignments.merge a) = true

/-- The forces and the values `a` gives to the first `k` free variables. -/
def partialAssignment (a : Assignments Var Val) (k : Nat) : Assignments Var Val :=
  S.forcedAssignments.merge (a.restrict (S.plan.freeVariables.take k).toFinset)

/-- At each partial assignment that some solution extends, the selector for the
next variable generates that solution's value. -/
def SelectorsComplete (cs : List C) : Prop :=
  ∀ a, S.IsSolution cs a → ∀ k x, S.plan.freeVariables[k]? = some x →
    ∃ vals v, valueSelector S.methods S.xTreeDb (S.plan.affectedConstraints k)
        (S.partialAssignment a k) x = some vals
      ∧ a.lookup x = some v ∧ v ∈ vals

/-- The free assignments reported at the end of a complete path. -/
def solutionOf (path : List Val) : Assignments Var Val :=
  (S.assignPath path).difference S.forcedAssignments

end

section

variable {S : ReferenceSolver C Var Val} {cs : List C} (hS : S.Ready cs)

omit [LinearOrder C] [LinearOrder Val] in
/-- Along a path exactly the forces and the variables of its levels are assigned. -/
theorem keys_assignPath : ∀ {path : List Val},
    path.length ≤ S.plan.freeVariables.length →
    (S.assignPath path).keys
      = S.forcedAssignments.keys ∪ (S.plan.freeVariables.take path.length).toFinset := by
  intro path
  induction path with
  | nil => intro _; simp
  | cons v path ih =>
      intro hle
      have hlt : path.length < S.plan.freeVariables.length := hle
      have hx := List.getElem?_eq_getElem hlt
      rw [S.assignPath_cons v hx, StdMap.keys_set, ih hlt.le, List.length_cons,
        toFinset_take_succ hx, Finset.union_insert]

include hS

omit [LinearOrder C] [LinearOrder Val] in
/-- Paths of one length are told apart by their assignments. -/
theorem Ready.assignPath_injective : ∀ {p q : List Val}, p.length = q.length →
    p.length ≤ S.plan.freeVariables.length → S.assignPath p = S.assignPath q → p = q := by
  intro p
  induction p with
  | nil =>
      intro q hlen _ _
      exact (List.length_eq_zero_iff.mp hlen.symm).symm
  | cons v p ih =>
      intro q hlen hle heq
      cases q with
      | nil => simp at hlen
      | cons w q =>
          have hpq : p.length = q.length := by simpa using hlen
          have hlt : p.length < S.plan.freeVariables.length := hle
          obtain ⟨x, hx⟩ : ∃ x, S.plan.freeVariables[p.length]? = some x :=
            ⟨_, List.getElem?_eq_getElem hlt⟩
          have hxq : S.plan.freeVariables[q.length]? = some x := by rw [← hpq, hx]
          rw [S.assignPath_cons v hx, S.assignPath_cons w hxq] at heq
          have hlook : ∀ y, ((S.assignPath p).set x v).lookup y
              = ((S.assignPath q).set x w).lookup y := fun y => by rw [heq]
          have hvw : v = w := by simpa using hlook x
          have hassign : S.assignPath p = S.assignPath q := by
            apply StdMap.ext_lookup
            intro y
            by_cases hy : y = x
            · -- the variable being chosen has no value in either prefix
              rw [hy, hS.lookup_assignPath_unassigned hx le_rfl,
                hS.lookup_assignPath_unassigned hxq le_rfl]
            · simpa [hy] using hlook y
          rw [hvw, ih hpq hlt.le hassign]

omit [LinearOrder C] [LinearOrder Val] in
theorem Ready.solutionOf_injective {p q : List Val} (hlen : p.length = q.length)
    (hle : p.length ≤ S.plan.freeVariables.length) (h : S.solutionOf p = S.solutionOf q) :
    p = q := by
  refine hS.assignPath_injective hlen hle (StdMap.ext_lookup fun x => ?_)
  by_cases hx : x ∈ S.forcedAssignments.keys
  · rw [hS.lookup_assignPath_forced p hx, hS.lookup_assignPath_forced q hx]
  · have hlook : (S.solutionOf p).lookup x = (S.solutionOf q).lookup x := by rw [h]
    simpa [solutionOf, hx] using hlook

omit [LinearOrder C] [LinearOrder Val] in
/-- Merging the reported free assignments back into the forces gives the path's. -/
theorem Ready.merge_solutionOf (path : List Val) :
    S.forcedAssignments.merge (S.solutionOf path) = S.assignPath path := by
  apply StdMap.ext_lookup
  intro x
  by_cases hx : x ∈ S.forcedAssignments.keys
  · rw [hS.lookup_assignPath_forced path hx]
    simp [solutionOf, hx]
  · have hnone : S.forcedAssignments.lookup x = none := StdMap.lookup_eq_none.mpr hx
    simp [solutionOf, hx, hnone]

omit [LinearOrder C] [LinearOrder Val] in
/-- The keys of a complete path's report are the free variables. -/
theorem Ready.keys_solutionOf {path : List Val}
    (hlen : path.length = S.plan.freeVariables.length) :
    (S.solutionOf path).keys = S.plan.freeVariables.toFinset := by
  ext x
  rw [StdMap.mem_keys, List.mem_toFinset]
  constructor
  · intro hsome
    by_contra hx
    -- neither forced nor free: never assigned
    have hout : (S.assignPath path).lookup x = S.forcedAssignments.lookup x :=
      S.lookup_assignPath_of_suffix (List.nil_suffix : [] <:+ path)
        (fun i _ _ hi => hx (List.mem_of_getElem? hi))
    by_cases hf : x ∈ S.forcedAssignments.keys
    · simp [solutionOf, hf] at hsome
    · have hnone : S.forcedAssignments.lookup x = none := StdMap.lookup_eq_none.mpr hf
      simp [solutionOf, hf, hout, hnone] at hsome
  · intro hx
    obtain ⟨i, hi, rfl⟩ := List.getElem_of_mem hx
    have hget : S.plan.freeVariables[i]? = some S.plan.freeVariables[i] :=
      List.getElem?_eq_getElem hi
    have hf : S.plan.freeVariables[i] ∉ S.forcedAssignments.keys :=
      StdMap.lookup_eq_none.mp (hS.not_forced hget)
    obtain ⟨q, hsuf, hq⟩ := Search.exists_suffix_length (by omega : i + 1 ≤ path.length)
    cases q with
    | nil => simp at hq
    | cons v base =>
        have hbase : base.length = i := by simpa using hq
        have hlook := hS.lookup_assignPath_cons hsuf (by rw [hbase]; exact hget)
        simp [solutionOf, hf, hlook]

end

/-! ## §5. Accepted paths are the solutions. -/

section

variable {S : ReferenceSolver C Var Val} {cs : List C} (hS : S.Ready cs)

include hS

omit [LinearOrder C] [LinearOrder Val] in
/-- A constraint completed at a level below the end of a path sees there what it
will see in the complete assignment. -/
theorem Ready.isSatisfied_completed {k : Nat} {c : C} {p q : List Val}
    (hc : c ∈ S.plan.completedConstraints k) (hsuf : p <:+ q) (hp : p.length = k + 1) :
    S.methods.isSatisfied c (S.assignPath q) = S.methods.isSatisfied c (S.assignPath p) := by
  apply S.methods.isSatisfied_congr
  intro x hx
  refine S.lookup_assignPath_of_suffix hsuf ?_
  intro i hi _ hix
  have hik := hS.completed_vars hc hx hix
  omega

omit [LinearOrder C] [LinearOrder Val] in
/-- A fully forced constraint sees the forces only. -/
theorem Ready.isSatisfied_fullyForced {c : C} (hc : c ∈ S.plan.fullyForcedConstraintSet)
    (a : Assignments Var Val) (ha : ∀ x ∉ S.plan.freeVariables,
      a.lookup x = S.forcedAssignments.lookup x) :
    S.methods.isSatisfied c a = S.methods.isSatisfied c S.forcedAssignments := by
  obtain ⟨_, hempty⟩ := (hS.plan_for.mem_fullyForced c).mp hc
  apply S.methods.isSatisfied_congr
  intro x hx
  refine ha x (fun hfree => ?_)
  obtain ⟨i, hi, rfl⟩ := List.getElem_of_mem hfree
  have hmem := (mem_freeVarIndices S.methods c i hS.plan_for.nodup).mpr
    ⟨_, hx, List.getElem?_eq_getElem hi⟩
  rw [hempty] at hmem
  exact absurd hmem (Finset.notMem_empty i)

omit [LinearOrder C] [LinearOrder Val] in
/-- Every constraint is either fully forced or completed at exactly one level. -/
theorem Ready.fullyForced_or_completed {c : C} (hc : c ∈ cs) :
    c ∈ S.plan.fullyForcedConstraintSet ∨
      ∃ k < S.plan.freeVariables.length, c ∈ S.plan.completedConstraints k := by
  rcases (freeVarIndices S.methods S.plan.freeVariables c).eq_empty_or_nonempty with he | hne
  · exact Or.inl ((hS.plan_for.mem_fullyForced c).mpr ⟨hc, he⟩)
  · right
    have hmax := Finset.max'_mem _ hne
    refine ⟨_, Finset.mem_range.mp (freeVarIndices_subset _ _ _ hmax),
      (hS.plan_for.mem_completed _ c).mpr ⟨hc, hmax, fun j hj => Finset.le_max' _ j hj⟩⟩

/-- **Soundness of the tree**: a complete accepted path is a solution. -/
theorem Ready.isSolution_of_accepted {path : List Val}
    (hforced : (consistencyCheck S.methods S.forcedAssignments
      S.plan.fullyForcedConstraintSet).1 = true)
    (hlen : path.length = S.plan.freeVariables.length) (hacc : S.tree.Accepted path) :
    S.IsSolution cs (S.solutionOf path) := by
  refine ⟨hS.keys_solutionOf hlen, ?_⟩
  intro c hc
  rw [hS.merge_solutionOf]
  rcases hS.fullyForced_or_completed hc with hff | ⟨k, hk, hck⟩
  · rw [hS.isSatisfied_fullyForced hff]
    · exact (consistencyCheck_fst _ _ _).mp hforced c hff
    · intro x hx
      exact S.lookup_assignPath_of_suffix (List.nil_suffix : [] <:+ path)
        (fun i _ _ hi => hx (List.mem_of_getElem? hi))
  · -- it was tested on the prefix that ends at level `k`
    obtain ⟨q, hsuf, hq⟩ := Search.exists_suffix_length (by omega : k + 1 ≤ path.length)
    rw [hS.isSatisfied_completed hck hsuf hq]
    cases q with
    | nil => simp at hq
    | cons v base =>
        have hbase : base.length = k := by simpa using hq
        have haccq := Search.Accepted.of_suffix S.tree hsuf hacc
        exact (S.tree_ok_iff base v).mp haccq.2.1 c (by rwa [hbase])

omit [LinearOrder C] [LinearOrder Val] in
theorem Ready.partialAssignment_succ {a : Assignments Var Val} {k : Nat} {x : Var} {v : Val}
    (hx : S.plan.freeVariables[k]? = some x) (hv : a.lookup x = some v) :
    S.partialAssignment a (k + 1) = (S.partialAssignment a k).set x v := by
  apply StdMap.ext_lookup
  intro y
  have htake := toFinset_take_succ hx
  by_cases hy : y = x
  · subst hy
    simp [partialAssignment, htake, hv, hS.not_forced hx]
  · simp [partialAssignment, htake, hy]

omit [LinearOrder C] [LinearOrder Val] in
/-- At its own level a completed constraint already sees the whole solution. -/
theorem Ready.isSatisfied_partialAssignment {a : Assignments Var Val} {k : Nat} {c : C}
    (ha : S.IsSolution cs a) (hc : c ∈ S.plan.completedConstraints k) :
    S.methods.isSatisfied c (S.partialAssignment a (k + 1)) = true := by
  obtain ⟨hcs, _⟩ := (hS.plan_for.mem_completed k c).mp hc
  rw [← ha.2 c hcs]
  apply S.methods.isSatisfied_congr
  intro x hx
  simp only [partialAssignment, StdMap.lookup_merge, StdMap.lookup_restrict,
    List.mem_toFinset]
  split
  next => rfl
  next hnot =>
    -- `x` is no free variable at all, so the solution does not assign it
    have hnone : a.lookup x = none := by
      rw [StdMap.lookup_eq_none, ha.1, List.mem_toFinset]
      intro hfree
      obtain ⟨j, hj, rfl⟩ := List.getElem_of_mem hfree
      have hjk := hS.completed_vars hc hx (List.getElem?_eq_getElem hj)
      exact hnot (List.mem_take_iff_getElem.mpr ⟨j, by omega, rfl⟩)
    rw [hnone]

/-- Each prefix of a solution is an accepted path, when the selectors are complete. -/
theorem Ready.accepted_of_isSolution {a : Assignments Var Val} (hsel : S.SelectorsComplete cs)
    (ha : S.IsSolution cs a) : ∀ k ≤ S.plan.freeVariables.length,
      ∃ path, path.length = k ∧ S.tree.Accepted path
        ∧ S.assignPath path = S.partialAssignment a k := by
  intro k
  induction k with
  | zero =>
      intro _
      refine ⟨[], rfl, trivial, StdMap.ext_lookup fun x => ?_⟩
      simp [partialAssignment]
  | succ k ih =>
      intro hk
      obtain ⟨path, hlen, hacc, hassign⟩ := ih (by omega)
      have hx : S.plan.freeVariables[k]? = some S.plan.freeVariables[k] :=
        List.getElem?_eq_getElem hk
      obtain ⟨vals, v, hvals, hv, hmem⟩ := hsel a ha k _ hx
      have hxp : S.plan.freeVariables[path.length]? = some S.plan.freeVariables[k] := by
        rw [hlen, hx]
      have hcons : S.assignPath (v :: path) = S.partialAssignment a (k + 1) := by
        rw [S.assignPath_cons v hxp, hassign, hS.partialAssignment_succ hx hv]
      refine ⟨v :: path, by rw [List.length_cons, hlen], ⟨?_, ?_, hacc⟩, hcons⟩
      · have hchoices := S.valueSelector_eq_choices hxp
        rw [hlen, hassign, hvals, Option.some.injEq] at hchoices
        rwa [← hchoices]
      · rw [tree_ok_iff, hlen, hcons]
        intro c hc
        exact hS.isSatisfied_partialAssignment ha hc

omit [LinearOrder C] [LinearOrder Val] in
theorem Ready.solutionOf_eq {a : Assignments Var Val} {path : List Val}
    (ha : S.IsSolution cs a)
    (hassign : S.assignPath path = S.partialAssignment a S.plan.freeVariables.length) :
    S.solutionOf path = a := by
  apply StdMap.ext_lookup
  intro x
  simp only [solutionOf, hassign, partialAssignment, List.take_length,
    StdMap.lookup_difference, StdMap.lookup_merge, StdMap.lookup_restrict,
    List.mem_toFinset]
  split
  next hf =>
    -- forced, hence not free, hence not assigned by the solution
    symm
    rw [StdMap.lookup_eq_none, ha.1, List.mem_toFinset]
    intro hfree
    rw [hS.forced_keys] at hf
    exact hS.plan_for.free_disjoint x hfree hf
  next hf =>
    rw [StdMap.lookup_eq_none.mpr hf, Option.none_or]
    split
    next => rfl
    next hfree =>
      symm
      rwa [StdMap.lookup_eq_none, ha.1, List.mem_toFinset]

/-- **The leaves of the tree are the solutions**, once the fully forced
constraints hold and the selectors are complete. -/
theorem Ready.mem_leaves_iff {a : Assignments Var Val} (hsel : S.SelectorsComplete cs)
    (hforced : (consistencyCheck S.methods S.forcedAssignments
      S.plan.fullyForcedConstraintSet).1 = true) :
    a ∈ (S.tree.leaves S.tree.depth []).map S.solutionOf ↔ S.IsSolution cs a := by
  rw [List.mem_map]
  constructor
  · rintro ⟨path, hpath, rfl⟩
    obtain ⟨_, hlen, hacc⟩ := (S.tree.mem_leaves _ S.tree.accepted_nil).mp hpath
    exact hS.isSolution_of_accepted hforced (by simpa using hlen) hacc
  · intro ha
    obtain ⟨path, hlen, hacc, hassign⟩ := hS.accepted_of_isSolution hsel ha _ le_rfl
    refine ⟨path, (S.tree.mem_leaves _ S.tree.accepted_nil).mpr ⟨List.nil_suffix, ?_, hacc⟩,
      hS.solutionOf_eq ha hassign⟩
    simpa using hlen

/-- No solution is a leaf twice. -/
theorem Ready.nodup_solutions :
    ((S.tree.leaves S.tree.depth []).map S.solutionOf).Nodup := by
  refine (S.tree.nodup_leaves S.tree_choices_nodup _ _).map_on ?_
  intro p hp q hq heq
  obtain ⟨_, hplen⟩ := S.tree.suffix_of_mem_leaves _ hp
  obtain ⟨_, hqlen⟩ := S.tree.suffix_of_mem_leaves _ hq
  refine hS.solutionOf_injective (hplen.trans hqlen.symm) ?_ heq
  rw [hplen, List.length_nil, Nat.zero_add, tree_depth]

end

end Inferno.CSP.ReferenceSolver
