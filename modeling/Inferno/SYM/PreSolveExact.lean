/-
  Inferno.SYM.PreSolveExact
  ─────────────────────────
  What the truth table holds after `PreSolve`.

    • `Distinct`            — the axes have unequal predicates; the added ones too,
    • `Breaks`              — the rule of a pair of axes excludes a row,
    • `Survives`            — values of the added predicates that no rule excludes,
    • `get_constrainUsingDerived`, `get_constrainByEvaluating` — the cells after each
                              half,
    • `preSolve_spec`       — the cell of the actual row, and what the alternative
                              expression evaluates to.
-/
import Inferno.SYM.TruthTableSolver
import Mathlib.Data.List.Nodup

namespace Inferno.SYM

open Inferno.Common

variable {S A M : Type} [DecidableEq S] [DecidableEq A] [DecidableEq M]
  {layout : Layout S A M} {isSubcategory : A → A → Bool}

/-! ## §1. Axes. -/

omit [DecidableEq A] [DecidableEq M] in
theorem EqualPredicateSet.front_mem (layout : Layout S A M) (s : EqualPredicateSet S A M) :
    s.front layout ∈ s.preds :=
  layout.lowestAddress_mem s.preds s.preds_ne_nil

/-- The axes have unequal predicates. -/
def Distinct (layout : Layout S A M) (predicates : List (EqualPredicateSet S A M)) : Prop :=
  (predicates.map (fun s => (s.front layout).orderKey)).Nodup

theorem exists_mem_groupByEquality (layout : Layout S A M) {ps : List (PredicateOperator S A M)}
    {p : PredicateOperator S A M} (hp : p ∈ ps) :
    ∃ s ∈ groupByEquality layout ps, p ∈ s.preds := by
  have hkey : p.orderKey ∈ layout.walk (ps.map PredicateOperator.orderKey).toFinset := by
    rw [layout.mem_walk, List.mem_toFinset]
    exact List.mem_map_of_mem hp
  unfold groupByEquality
  refine ⟨_, List.mem_map_of_mem (List.mem_attach _ ⟨p.orderKey, hkey⟩), ?_⟩
  show p ∈ ps.filter (fun q => q.orderKey = p.orderKey)
  rw [List.mem_filter, decide_eq_true_iff]
  exact ⟨hp, rfl⟩

theorem mem_of_mem_groupByEquality {ps : List (PredicateOperator S A M)}
    {s : EqualPredicateSet S A M} (hs : s ∈ groupByEquality layout ps)
    {p : PredicateOperator S A M} (hp : p ∈ s.preds) : p ∈ ps := by
  unfold groupByEquality at hs
  obtain ⟨k, _, rfl⟩ := List.mem_map.mp hs
  exact (List.mem_filter.mp hp).1

theorem distinct_groupByEquality (layout : Layout S A M)
    (ps : List (PredicateOperator S A M)) : Distinct layout (groupByEquality layout ps) := by
  unfold Distinct groupByEquality
  rw [List.map_map]
  have hkeys : ∀ k ∈ (layout.walk (ps.map PredicateOperator.orderKey).toFinset).attach,
      ((fun s : EqualPredicateSet S A M => (s.front layout).orderKey) ∘ fun k =>
        .ofKey ps k.1 (layout.exists_of_mem_walk k.2)) k = k.1 := by
    intro k _
    have hfront := EqualPredicateSet.front_mem layout
      (.ofKey ps k.1 (layout.exists_of_mem_walk k.2))
    exact of_decide_eq_true (List.mem_filter.mp hfront).2
  rw [List.map_congr_left hkeys, List.attach_map_subtype_val]
  exact layout.nodup_walk _

/-- `pred_to_index` has the key of each axis, with an axis of that key. -/
theorem predToIndex_spec (layout : Layout S A M) (predicates : List (EqualPredicateSet S A M))
    (k : PredicateKind A M × OperandKey S) :
    (k ∈ (predToIndex layout predicates).keys ↔ ∃ s ∈ predicates, (s.front layout).orderKey = k)
    ∧ ∀ i, (predToIndex layout predicates).lookup k = some i →
        ∃ s, predicates[i]? = some s ∧ (s.front layout).orderKey = k := by
  have hfold := StdMap.lookup_foldl_set
    (fun p : EqualPredicateSet S A M × Nat => (p.1.front layout).orderKey) Prod.snd
    predicates.zipIdx StdMap.empty k
  -- the keys are those of the axes
  have hmem : k ∈ predicates.zipIdx.map (fun p => (p.1.front layout).orderKey)
      ↔ ∃ s ∈ predicates, (s.front layout).orderKey = k := by
    rw [List.mem_map]
    constructor
    · intro h
      obtain ⟨p, hp, hk⟩ := h
      exact ⟨p.1, List.mem_of_getElem? (List.mem_zipIdx_iff_getElem?.mp hp), hk⟩
    · intro h
      obtain ⟨s, hs, hk⟩ := h
      obtain ⟨i, hi⟩ := List.getElem?_of_mem hs
      exact ⟨(s, i), List.mem_zipIdx_iff_getElem?.mpr hi, hk⟩
  rw [← hmem]
  unfold predToIndex
  refine ⟨?_, ?_⟩
  · rw [StdMap.mem_keys]
    constructor
    · intro h
      by_contra hk
      rw [hfold.1 hk] at h
      exact absurd h (by simp)
    · intro h
      obtain ⟨p, _, _, hlookup⟩ := hfold.2 h
      rw [hlookup]
      rfl
  · -- a key is filed with the last axis of that key
    intro i hi
    by_cases hk : k ∈ predicates.zipIdx.map (fun p => (p.1.front layout).orderKey)
    · obtain ⟨p, hp, hpk, hlookup⟩ := hfold.2 hk
      rw [hlookup, Option.some.injEq] at hi
      exact ⟨p.1, hi ▸ List.mem_zipIdx_iff_getElem?.mp hp, hpk⟩
    · rw [hfold.1 hk] at hi
      exact absurd hi (by simp)

theorem mem_axisPairs {degree : Nat} {ij : Nat × Nat} :
    ij ∈ axisPairs degree ↔ ij.1 < degree ∧ ij.2 < degree ∧ ij.1 ≠ ij.2 := by
  unfold axisPairs
  rw [List.mem_flatMap]
  constructor
  · intro h
    obtain ⟨i, hi, h⟩ := h
    obtain ⟨j, hj, rfl⟩ := List.mem_map.mp h
    rw [List.mem_filter, decide_eq_true_iff] at hj
    exact ⟨List.mem_range.mp hi, List.mem_range.mp hj.1, hj.2⟩
  · intro h
    refine ⟨ij.1, List.mem_range.mpr h.1, List.mem_map.mpr ⟨ij.2, ?_, rfl⟩⟩
    rw [List.mem_filter, decide_eq_true_iff]
    exact ⟨List.mem_range.mpr h.2.1, h.2.2⟩

omit [DecidableEq A] [DecidableEq M] in
/-- Two axes of a pair have unequal predicates. -/
theorem Distinct.of_mem_axisPairs {predicates : List (EqualPredicateSet S A M)}
    (hdistinct : Distinct layout predicates) {ij : Nat × Nat}
    (h : ij ∈ axisPairs predicates.length) :
    ∃ si sj, predicates[ij.1]? = some si ∧ predicates[ij.2]? = some sj
      ∧ (si.front layout).orderKey ≠ (sj.front layout).orderKey := by
  obtain ⟨hi, hj, hne⟩ := mem_axisPairs.mp h
  refine ⟨predicates[ij.1], predicates[ij.2], List.getElem?_eq_getElem hi,
    List.getElem?_eq_getElem hj, ?_⟩
  intro heq
  apply hne
  apply (List.getElem?_inj (by rw [List.length_map]; exact hi) hdistinct).mp
  rw [List.getElem?_map, List.getElem?_map, List.getElem?_eq_getElem hi,
    List.getElem?_eq_getElem hj]
  exact congrArg some heq

/-- **The added predicates are new, and unequal.** -/
theorem addedPreds_spec {predicates : List (EqualPredicateSet S A M)}
    (hdistinct : Distinct layout predicates) :
    ∃ added, addedPreds layout predicates = some added
      ∧ Distinct layout (predicates ++ added) := by
  obtain ⟨found, hfound, hmem⟩ := exists_mapM (tryExtrapolate layout predicates)
    (axisPairs predicates.length) (by
      intro ij hij
      obtain ⟨si, sj, hi, hj, hne⟩ := hdistinct.of_mem_axisPairs hij
      obtain ⟨pk, hpk⟩ := tryDerivePredicate_isSome hne
      unfold tryExtrapolate
      rw [hi, hj]
      dsimp only [Option.bind_eq_bind, Option.bind_some]
      rw [hpk]
      exact ⟨_, rfl⟩)
  -- what was found is an extrapolation
  have hnew : ∀ d ∈ found.filterMap id, d.1.orderKey ∉ (predToIndex layout predicates).keys := by
    intro d hd
    obtain ⟨d', hd', rfl⟩ := List.mem_filterMap.mp hd
    obtain ⟨ij, _, hij⟩ := (hmem _).mp hd'
    unfold tryExtrapolate at hij
    obtain ⟨si, _, hij⟩ := Option.bind_eq_some_iff.mp hij
    obtain ⟨sj, _, hij⟩ := Option.bind_eq_some_iff.mp hij
    obtain ⟨pk, _, hij⟩ := Option.bind_eq_some_iff.mp hij
    obtain ⟨pk, _, hij⟩ := Option.bind_eq_some_iff.mp (Option.some.inj hij)
    by_cases hkey : pk.orderKey ∈ (predToIndex layout predicates).keys
    · rw [if_pos hkey] at hij
      exact absurd hij (by simp)
    · rw [if_neg hkey] at hij
      rw [← Option.some.inj hij]
      exact hkey
  -- the extrapolations differ from each other by the grouping, from the axes by `hnew`
  have hgroup := distinct_groupByEquality layout ((found.filterMap id).map (·.1))
  have hderived : ∃ derived, derivedPreds layout predicates = some derived
      ∧ Distinct layout (predicates ++ derived) := by
    unfold derivedPreds
    rw [hfound]
    refine ⟨_, rfl, ?_⟩
    unfold Distinct
    rw [List.map_append, List.nodup_append']
    refine ⟨hdistinct, (hgroup.sublist (List.filter_sublist.map _)), ?_⟩
    intro k hk hk'
    obtain ⟨s, hs, hsk⟩ := List.mem_map.mp hk
    obtain ⟨s', hs', hsk'⟩ := List.mem_map.mp hk'
    obtain ⟨d, hd, hfront⟩ := List.mem_map.mp (mem_of_mem_groupByEquality
      (List.mem_filter.mp hs').1 (s'.front_mem layout))
    apply hnew d hd
    rw [(predToIndex_spec layout predicates _).1]
    exact ⟨s, hs, by rw [hsk, ← hsk', hfront]⟩
  obtain ⟨derived, hderived, hdistinct'⟩ := hderived
  unfold addedPreds
  rw [hderived]
  -- the policy on the number of axes may leave them all out
  by_cases hpolicy : 0 < derived.length ∧ predicates.length + derived.length ≤ 10
  · exact ⟨derived, if_pos hpolicy, hdistinct'⟩
  · refine ⟨[], if_neg hpolicy, ?_⟩
    rw [List.append_nil]
    exact hdistinct

/-! ## §2. The rules. -/

/-- The relationship of two predicates excludes the row `w`. -/
def BreaksRelationship (isSubcategory : A → A → Bool) (pi pj : PredicateOperator S A M)
    (w : List Bool) (i j : Nat) : Prop :=
  (tryDeriveRelationship isSubcategory pi pj = some .CONTRADICTS
    ∧ w[i]? = some true ∧ w[j]? = some true)
  ∨ (tryDeriveRelationship isSubcategory pi pj = some .IMPLIES
    ∧ w[i]? = some true ∧ w[j]? = some false)

/-- The predicate derived from two excludes the row `w`.  A map keeps the first entry
for a key, so a predicate derived from itself is not asked to be false. -/
def BreaksDerivation (layout : Layout S A M) (predicates : List (EqualPredicateSet S A M))
    (pi pj : PredicateOperator S A M) (w : List Bool) (i j : Nat) : Prop :=
  ∃ pk k, tryDerivePredicate pi pj = some (some pk)
    ∧ (predToIndex layout predicates).lookup pk.orderKey = some k
    ∧ w[i]? = some true ∧ w[j]? = some true ∧ (k = i ∨ k = j ∨ w[k]? = some false)

/-- **A rule of the axes `ij` excludes the row `w`.** -/
def Breaks (layout : Layout S A M) (isSubcategory : A → A → Bool)
    (predicates : List (EqualPredicateSet S A M)) (w : List Bool) (ij : Nat × Nat) : Prop :=
  ∃ si sj, predicates[ij.1]? = some si ∧ predicates[ij.2]? = some sj
    ∧ (BreaksRelationship isSubcategory (si.front layout) (sj.front layout) w ij.1 ij.2
      ∨ BreaksDerivation layout predicates (si.front layout) (sj.front layout) w ij.1 ij.2)

/-- **The row `actual` survives**: the predicates `added` have truth values with which it
breaks no rule. -/
def Survives (layout : Layout S A M) (isSubcategory : A → A → Bool)
    (predicates added : List (EqualPredicateSet S A M)) (actual : List Bool) : Prop :=
  ∃ x, x.length = added.length ∧ ∀ ij ∈ axisPairs (predicates ++ added).length,
    ¬ Breaks layout isSubcategory (predicates ++ added) (actual ++ x) ij

theorem matches_pair {i j : Nat} (hne : i ≠ j) (a b : Bool) (w : List Bool) :
    (sliceSpec [(i, a), (j, b)]).Matches w ↔ w[i]? = some a ∧ w[j]? = some b := by
  unfold sliceSpec
  rw [List.foldl_cons, List.foldl_cons, List.foldl_nil, TruthTable.matches_insertNew,
    TruthTable.matches_insertNew]
  simp [SliceSpec.Matches, StdMap.insertNew, StdMap.empty, hne.symm]

theorem matches_triple {i j : Nat} (hne : i ≠ j) (k : Nat) (w : List Bool) :
    (sliceSpec [(i, true), (j, true), (k, false)]).Matches w
      ↔ w[i]? = some true ∧ w[j]? = some true ∧ (k = i ∨ k = j ∨ w[k]? = some false) := by
  unfold sliceSpec
  rw [List.foldl_cons, List.foldl_cons, List.foldl_cons, List.foldl_nil,
    TruthTable.matches_insertNew, TruthTable.matches_insertNew, TruthTable.matches_insertNew]
  simp [SliceSpec.Matches, StdMap.insertNew, StdMap.empty, hne.symm]
  tauto

theorem keys_sliceSpec_lt {n : Nat} {ps : List (Nat × Bool)} (h : ∀ p ∈ ps, p.1 < n) :
    ∀ k ∈ (sliceSpec ps).keys, k < n := by
  have hfold (ps : List (Nat × Bool)) : ∀ m : SliceSpec, (∀ k ∈ m.keys, k < n) →
      (∀ p ∈ ps, p.1 < n) → ∀ k ∈ (ps.foldl (fun m p => m.insertNew p.1 p.2) m).keys, k < n := by
    induction ps with
    | nil => exact fun m hm _ => hm
    | cons p ps ih =>
        intro m hm hps
        rw [List.foldl_cons]
        apply ih _ _ (fun q hq => hps q (List.mem_cons_of_mem p hq))
        intro k hk
        by_cases hp : p.1 ∈ m.keys
        · rw [StdMap.insertNew, if_pos hp] at hk
          exact hm k hk
        · rw [StdMap.insertNew_of_notMem _ hp, StdMap.keys_set, Finset.mem_insert] at hk
          rcases hk with rfl | hk
          · exact hps p List.mem_cons_self
          · exact hm k hk
  exact hfold ps StdMap.empty (fun k hk => absurd hk (by simp [StdMap.empty])) h

/-- The axis found for a derived predicate is an axis. -/
theorem lt_of_predToIndex {predicates : List (EqualPredicateSet S A M)}
    {k : PredicateKind A M × OperandKey S} {i : Nat}
    (h : (predToIndex layout predicates).lookup k = some i) : i < predicates.length := by
  obtain ⟨s, hs, _⟩ := (predToIndex_spec layout predicates k).2 i h
  exact (List.getElem?_eq_some_iff.mp hs).1

/-! ## §3. Enforcing the rules. -/

/-- `t'` is `t` with the rows `P` excluded. -/
structure Excludes (t t' : TruthTable) (P : List Bool → Prop) : Prop where
  degree : t'.degree = t.degree
  excluded : ∀ w, w.length = t.degree → P w → t'.get w = some .DONT_CARE
  kept : ∀ w, w.length = t.degree → ¬ P w → t'.get w = t.get w

theorem Excludes.none {t : TruthTable} {P : List Bool → Prop} (h : ∀ w, ¬ P w) :
    Excludes t t P :=
  ⟨rfl, fun w _ hw => absurd hw (h w), fun _ _ _ => rfl⟩

theorem Excludes.congr {t t' : TruthTable} {P Q : List Bool → Prop} (h : Excludes t t' P)
    (hPQ : ∀ w, P w ↔ Q w) : Excludes t t' Q :=
  ⟨h.degree, fun w hw hq => h.excluded w hw ((hPQ w).mpr hq),
    fun w hw hq => h.kept w hw (fun hp => hq ((hPQ w).mp hp))⟩

theorem Excludes.trans {t t' t'' : TruthTable} {P Q : List Bool → Prop} (h : Excludes t t' P)
    (h' : Excludes t' t'' Q) : Excludes t t'' (fun w => P w ∨ Q w) := by
  refine ⟨h'.degree.trans h.degree, ?_, ?_⟩
  · intro w hw hpq
    have hw' : w.length = t'.degree := hw.trans h.degree.symm
    by_cases hq : Q w
    · exact h'.excluded w hw' hq
    · rw [h'.kept w hw' hq]
      exact h.excluded w hw (hpq.resolve_right hq)
  · intro w hw hpq
    rw [not_or] at hpq
    rw [h'.kept w (hw.trans h.degree.symm) hpq.2, h.kept w hw hpq.1]

/-- `SetSlice` excludes the rows of the slice. -/
theorem excludes_setSlice (t : TruthTable) {ps : List (Nat × Bool)}
    (hlt : ∀ p ∈ ps, p.1 < t.degree) :
    ∃ t', t.setSlice (sliceSpec ps) .DONT_CARE = some t'
      ∧ Excludes t t' (fun w => (sliceSpec ps).Matches w) := by
  obtain ⟨t', hset, hdeg, hget⟩ := t.get_setSlice (keys_sliceSpec_lt hlt) .DONT_CARE
  refine ⟨t', hset, hdeg, ?_, ?_⟩
  · intro w hw hm
    rw [hget w hw, if_pos hm]
  · intro w hw hm
    rw [hget w hw, if_neg hm]

section

variable {predicates : List (EqualPredicateSet S A M)} {pi pj : PredicateOperator S A M}
  {i j : Nat}

theorem enforceRelationship_spec (t : TruthTable) (hne : i ≠ j) (hi : i < t.degree)
    (hj : j < t.degree) {rij : Relationship}
    (hrij : tryDeriveRelationship isSubcategory pi pj = some rij) :
    ∃ t', enforceRelationship t i j rij = some t'
      ∧ Excludes t t' (fun w => BreaksRelationship isSubcategory pi pj w i j) := by
  have hlt (a b : Bool) : ∀ p ∈ [(i, a), (j, b)], p.1 < t.degree := by
    intro p hp
    rcases List.mem_cons.mp hp with rfl | hp
    · exact hi
    · rw [List.mem_singleton.mp hp]
      exact hj
  unfold BreaksRelationship
  rw [hrij]
  cases rij with
  | NONE => exact ⟨t, rfl, Excludes.none (by simp)⟩
  | CONTRADICTS =>
      obtain ⟨t', hset, hex⟩ := excludes_setSlice t (hlt true true)
      refine ⟨t', hset, hex.congr ?_⟩
      intro w
      rw [matches_pair hne]
      simp
  | IMPLIES =>
      obtain ⟨t', hset, hex⟩ := excludes_setSlice t (hlt true false)
      refine ⟨t', hset, hex.congr ?_⟩
      intro w
      rw [matches_pair hne]
      simp

variable (layout) in
theorem enforceDerivation_spec (t : TruthTable) (hdegree : t.degree = predicates.length)
    (hne : i ≠ j) (hi : i < t.degree) (hj : j < t.degree)
    {pk : Option (PredicateOperator S A M)} (hpk : tryDerivePredicate pi pj = some pk) :
    ∃ t', enforceDerivation layout predicates t i j pk = some t'
      ∧ Excludes t t' (fun w => BreaksDerivation layout predicates pi pj w i j) := by
  -- nothing is derived, or nothing that is an axis
  cases pk with
  | none =>
      refine ⟨t, rfl, Excludes.none ?_⟩
      intro w h
      obtain ⟨pk, k, hpk', _⟩ := h
      rw [hpk] at hpk'
      exact absurd hpk' (by simp)
  | some pk =>
      unfold enforceDerivation
      dsimp only
      cases hk : (predToIndex layout predicates).lookup pk.orderKey with
      | none =>
          refine ⟨t, rfl, Excludes.none ?_⟩
          intro w h
          obtain ⟨pk', k, hpk', hlookup, _⟩ := h
          rw [hpk, Option.some.injEq, Option.some.injEq] at hpk'
          rw [← hpk', hk] at hlookup
          exact absurd hlookup (by simp)
      | some k =>
          have hlt : ∀ p ∈ [(i, true), (j, true), (k, false)], p.1 < t.degree := by
            have hlast : k < t.degree := hdegree ▸ lt_of_predToIndex hk
            simp [hi, hj, hlast]
          -- the row is struck where both hold and the derived one does not
          obtain ⟨t', hset, hex⟩ := excludes_setSlice t hlt
          refine ⟨t', hset, hex.congr ?_⟩
          intro w
          rw [matches_triple hne]
          constructor
          · exact fun h => ⟨pk, k, hpk, hk, h⟩
          · intro h
            obtain ⟨pk', k', hpk', hlookup, h⟩ := h
            rw [hpk, Option.some.injEq, Option.some.injEq] at hpk'
            rw [← hpk', hk, Option.some.injEq] at hlookup
            rw [hlookup]
            exact h

/-- **One turn of the second loop** excludes the rows that break the rule of its axes. -/
theorem enforce_spec (hdistinct : Distinct layout predicates) (t : TruthTable)
    (hdegree : t.degree = predicates.length) {ij : Nat × Nat}
    (hij : ij ∈ axisPairs predicates.length) :
    ∃ t', enforce layout isSubcategory predicates t ij = some t'
      ∧ Excludes t t' (fun w => Breaks layout isSubcategory predicates w ij) := by
  obtain ⟨hi, hj, hne⟩ := mem_axisPairs.mp hij
  rw [← hdegree] at hi hj
  -- the predicates of two axes differ, so that both derivations pass their checks
  obtain ⟨si, sj, hsi, hsj, hkey⟩ := hdistinct.of_mem_axisPairs hij
  obtain ⟨rij, hrij⟩ := tryDeriveRelationship_isSome isSubcategory hkey
  obtain ⟨pk, hpk⟩ := tryDerivePredicate_isSome hkey
  obtain ⟨t₁, ht₁, hex₁⟩ := enforceRelationship_spec t hne hi hj hrij
  rw [← hex₁.degree] at hi hj
  obtain ⟨t₂, ht₂, hex₂⟩ := enforceDerivation_spec layout t₁
    (hex₁.degree.trans hdegree) hne hi hj hpk
  refine ⟨t₂, ?_, (hex₁.trans hex₂).congr ?_⟩
  · unfold enforce
    dsimp only [Option.bind_eq_bind]
    rw [hsi, hsj]
    dsimp only [Option.bind_some]
    rw [hrij, hpk]
    dsimp only [Option.bind_some]
    rw [ht₁]
    exact ht₂
  · intro w
    constructor
    · exact fun h => ⟨si, sj, hsi, hsj, h⟩
    · intro h
      obtain ⟨si', sj', hsi', hsj', h⟩ := h
      rw [hsi, Option.some.injEq] at hsi'
      rw [hsj, Option.some.injEq] at hsj'
      rw [hsi', hsj']
      exact h

end

variable (isSubcategory) in
/-- The second loop excludes the rows that break a rule of some pair. -/
theorem foldlM_enforce {predicates : List (EqualPredicateSet S A M)}
    (hdistinct : Distinct layout predicates) (pairs : List (Nat × Nat)) : ∀ t : TruthTable,
    t.degree = predicates.length → (∀ ij ∈ pairs, ij ∈ axisPairs predicates.length) →
    ∃ t', pairs.foldlM (enforce layout isSubcategory predicates) t = some t'
      ∧ Excludes t t' (fun w => ∃ ij ∈ pairs, Breaks layout isSubcategory predicates w ij) := by
  induction pairs with
  | nil => exact fun t _ _ => ⟨t, rfl, Excludes.none (by simp)⟩
  | cons ij pairs ih =>
      intro t hdegree hpairs
      obtain ⟨t₁, henforce, hex₁⟩ :=
        enforce_spec hdistinct t hdegree (hpairs ij List.mem_cons_self)
      obtain ⟨t', hfold, hex⟩ := ih t₁ (hex₁.degree.trans hdegree)
        (fun q hq => hpairs q (List.mem_cons_of_mem ij hq))
      refine ⟨t', ?_, (hex₁.trans hex).congr ?_⟩
      · rw [List.foldlM_cons, henforce]
        exact hfold
      · intro w
        rw [List.exists_mem_cons_iff]

/-! ## §4. The two halves. -/

/-- `Range` shifted: the axes of the added predicates. -/
theorem destAxes_added (n m : Nat) :
    TruthTable.destAxes (n + m) ((Finset.range m).image (fun k => n + k)) = List.range n := by
  -- the axes that were added are the last ones
  have hmem (i : Nat) : i ∈ (Finset.range m).image (fun k => n + k) ↔ n ≤ i ∧ i < n + m := by
    rw [Finset.mem_image]
    constructor
    · intro h
      obtain ⟨k, hk, rfl⟩ := h
      rw [Finset.mem_range] at hk
      omega
    · intro h
      exact ⟨i - n, by rw [Finset.mem_range]; omega, by omega⟩
  unfold TruthTable.destAxes
  rw [List.range_add, List.filter_append]
  have hfirst : (List.range n).filter
      (fun i => decide (i ∉ (Finset.range m).image (fun k => n + k))) = List.range n := by
    apply List.filter_eq_self.mpr
    intro i hi
    rw [List.mem_range] at hi
    rw [decide_eq_true_iff, hmem]
    omega
  have hsecond : ((List.range m).map (fun k => n + k)).filter
      (fun i => decide (i ∉ (Finset.range m).image (fun k => n + k))) = [] := by
    apply List.filter_eq_nil_iff.mpr
    intro i hi
    obtain ⟨k, hk, rfl⟩ := List.mem_map.mp hi
    rw [List.mem_range] at hk
    rw [decide_eq_true_iff, hmem]
    omega
  rw [hfirst, hsecond, List.append_nil]

/-- A row of the extended table restricts to its first indices. -/
theorem restricts_range {n : Nat} {w v : List Bool} (hv : v.length = n) (hw : n ≤ w.length) :
    TruthTable.Restricts (List.range n) w v ↔ ∃ x, w = v ++ x := by
  constructor
  · intro h
    refine ⟨w.drop n, ?_⟩
    have htake : w.take n = v := by
      apply List.ext_getElem?
      intro i
      by_cases hi : i < n
      · rw [List.getElem?_take_of_lt hi]
        exact h i i (by rw [List.getElem?_range hi])
      · rw [List.getElem?_eq_none (by rw [List.length_take]; omega),
          List.getElem?_eq_none (by omega)]
    rw [← htake, List.take_append_drop]
  · intro h j k hjk
    obtain ⟨x, rfl⟩ := h
    obtain ⟨hj, hjk⟩ := List.getElem?_eq_some_iff.mp hjk
    rw [List.length_range] at hj
    rw [List.getElem_range] at hjk
    rw [← hjk, List.getElem?_append_left (by omega)]

theorem filterMap_range_getElem {α : Type} (l l' : List α) :
    (List.range l.length).filterMap (fun i => (l ++ l')[i]?) = l := by
  induction l with
  | nil => rfl
  | cons a l ih =>
      rw [List.length_cons, List.range_succ_eq_map, List.filterMap_cons, List.filterMap_map]
      exact congrArg (a :: ·) ih

variable (isSubcategory) in
/-- The rows of the extended table: `TRUE` unless some rule is broken. -/
theorem enforceExtended_spec {predicates added : List (EqualPredicateSet S A M)}
    (hdistinct : Distinct layout (predicates ++ added)) :
    ∃ t, (axisPairs (predicates ++ added).length).foldlM
          (enforce layout isSubcategory (predicates ++ added))
          (TruthTable.extend added.length (TruthTable.make predicates.length .TRUE)) = some t
      ∧ t.degree = (predicates ++ added).length
      ∧ ∀ v x, v.length = predicates.length → x.length = added.length →
        ((∀ ij ∈ axisPairs (predicates ++ added).length,
            ¬ Breaks layout isSubcategory (predicates ++ added) (v ++ x) ij) →
          t.get (v ++ x) = some .TRUE)
        ∧ ((∃ ij ∈ axisPairs (predicates ++ added).length,
            Breaks layout isSubcategory (predicates ++ added) (v ++ x) ij) →
          t.get (v ++ x) = some .DONT_CARE) := by
  have hdegree : (TruthTable.extend added.length
      (TruthTable.make predicates.length .TRUE)).degree = (predicates ++ added).length := by
    rw [TruthTable.degree_extend, List.length_append]
    rfl
  -- every pair of axes enforced excludes the rows that break its rule
  obtain ⟨t, hfold, hex⟩ := foldlM_enforce isSubcategory hdistinct
    (axisPairs (predicates ++ added).length) _ hdegree (fun _ hij => hij)
  refine ⟨t, hfold, hex.degree.trans hdegree, ?_⟩
  intro v x hv hx
  have hlen : (v ++ x).length = (TruthTable.extend added.length
      (TruthTable.make predicates.length .TRUE)).degree := by
    rw [hdegree, List.length_append, List.length_append, hv, hx]
  refine ⟨?_, hex.excluded _ hlen⟩
  intro hnone
  have hkept := hex.kept _ hlen (by
    intro hsome
    obtain ⟨ij, hij, hbreaks⟩ := hsome
    exact hnone ij hij hbreaks)
  rw [hkept, ← hx, TruthTable.get_extend x _ hv, TruthTable.get_make _ hv]

/-- The cells of the folded table: `TRUE` when some row above it is. -/
theorem foldExtended_spec {n m : Nat} {t : TruthTable} (hdegree : t.degree = n + m)
    (P : List Bool → Prop)
    (htrue : ∀ v x, v.length = n → x.length = m → P (v ++ x) → t.get (v ++ x) = some .TRUE)
    (hdont : ∀ v x, v.length = n → x.length = m → ¬ P (v ++ x) →
      t.get (v ++ x) = some .DONT_CARE) :
    ∃ t', t.getFolded ((Finset.range m).image (fun k => n + k)) = some t' ∧ t'.degree = n
      ∧ ∀ v, v.length = n →
        ((∃ x, x.length = m ∧ P (v ++ x)) → t'.get v = some .TRUE)
        ∧ ((¬ ∃ x, x.length = m ∧ P (v ++ x)) → t'.get v = some .DONT_CARE) := by
  have haxes : ∀ k ∈ (Finset.range m).image (fun k => n + k), k < t.degree := by
    intro k hk
    obtain ⟨j, hj, rfl⟩ := Finset.mem_image.mp hk
    rw [Finset.mem_range] at hj
    omega
  obtain ⟨t', hfold, hdeg', hget⟩ := t.get_getFolded haxes
  rw [hdegree, destAxes_added] at hdeg' hget
  rw [List.length_range] at hdeg'
  refine ⟨t', hfold, hdeg', ?_⟩
  intro v hv
  -- the folded cell is the highest of the row's
  obtain ⟨c, hc, ⟨w, hw, hres, hwc⟩, hmax⟩ := hget v (hv.trans hdeg'.symm)
  obtain ⟨x, rfl⟩ := (restricts_range hv (by omega)).mp hres
  have hx : x.length = m := by
    rw [List.length_append] at hw
    omega
  refine ⟨?_, ?_⟩
  · intro h
    obtain ⟨y, hy, hPy⟩ := h
    have hle := hmax (v ++ y) .TRUE (by rw [List.length_append]; omega)
      ((restricts_range hv (by rw [List.length_append]; omega)).mpr ⟨y, rfl⟩)
      (htrue v y hv hy hPy)
    -- no cell is higher than TRUE
    rw [hc]
    cases c with
    | TRUE => rfl
    | FALSE => exact absurd hle (by decide)
    | DONT_CARE => exact absurd hle (by decide)
  · intro h
    have hPx : ¬ P (v ++ x) := fun hP => h ⟨x, hx, hP⟩
    rw [hc, ← hwc, hdont v x hv hx hPx]

variable (isSubcategory) in
/-- **After `ConstrainUsingDerived`** a cell is `TRUE` when its row survives, and
`DONT_CARE` otherwise. -/
theorem constrainUsingDerived_spec {predicates : List (EqualPredicateSet S A M)}
    (hdistinct : Distinct layout predicates)
    (h : (TruthTable.make predicates.length .TRUE).degree = predicates.length) :
    ∃ added ttwp, addedPreds layout predicates = some added
      ∧ constrainUsingDerived layout isSubcategory
          ⟨predicates, TruthTable.make predicates.length .TRUE, h⟩ = some ttwp
      ∧ ttwp.predicates = predicates
      ∧ ∀ v, v.length = predicates.length →
          (Survives layout isSubcategory predicates added v → ttwp.truthTable.get v = some .TRUE)
          ∧ (¬ Survives layout isSubcategory predicates added v →
              ttwp.truthTable.get v = some .DONT_CARE) := by
  obtain ⟨added, hadded, hdistinct'⟩ := addedPreds_spec hdistinct
  obtain ⟨t, hfold, hdegree, hcell⟩ :=
    enforceExtended_spec isSubcategory hdistinct'
  -- a row that breaks a derivation is struck
  have hdont : ∀ v x, v.length = predicates.length → x.length = added.length →
      (¬ ∀ ij ∈ axisPairs (predicates ++ added).length,
        ¬ Breaks layout isSubcategory (predicates ++ added) (v ++ x) ij) →
      t.get (v ++ x) = some .DONT_CARE := by
    intro v x hv hx hP
    apply (hcell v x hv hx).2
    by_contra hnone
    apply hP
    intro ij hij hbreaks
    exact hnone ⟨ij, hij, hbreaks⟩
  have hof : TruthTableWithPredicates.ofTable (predicates ++ added) t
      = some ⟨predicates ++ added, t, hdegree⟩ := dif_pos hdegree
  have hsplit : constrainUsingDerived layout isSubcategory
        ⟨predicates, TruthTable.make predicates.length .TRUE, h⟩
      = if added.isEmpty then some ⟨predicates ++ added, t, hdegree⟩
        else TruthTableWithPredicates.getFolded ⟨predicates ++ added, t, hdegree⟩
          ((Finset.range added.length).image (fun k => predicates.length + k)) := by
    unfold constrainUsingDerived
    dsimp only [Option.bind_eq_bind]
    rw [hadded]
    show ((axisPairs (predicates ++ added).length).foldlM
      (enforce layout isSubcategory (predicates ++ added))
      (TruthTable.extend added.length (TruthTable.make predicates.length .TRUE))).bind _ = _
    rw [hfold]
    show (TruthTableWithPredicates.ofTable (predicates ++ added) t).bind _ = _
    rw [hof]
    rfl
  -- with nothing added there is nothing to fold
  cases added with
  | nil =>
      refine ⟨[], _, hadded, hsplit, List.append_nil predicates, ?_⟩
      intro v hv
      have hnil (x : List Bool) (hx : x.length = 0) : x = [] := List.length_eq_zero_iff.mp hx
      refine ⟨?_, ?_⟩
      · intro hsurvives
        obtain ⟨x, hx, hP⟩ := hsurvives
        rw [hnil x hx] at hP
        have htrue := (hcell v [] hv rfl).1 hP
        rw [List.append_nil] at htrue
        exact htrue
      · intro hnot
        have hx := hdont v [] hv rfl (fun hP => hnot ⟨[], rfl, hP⟩)
        rw [List.append_nil] at hx
        exact hx
  -- else the added axes are folded away again
  | cons s rest =>
      obtain ⟨t', hfolded, hdegree', hget⟩ := foldExtended_spec
        (hdegree.trans List.length_append)
        (fun w => ∀ ij ∈ axisPairs (predicates ++ s :: rest).length,
          ¬ Breaks layout isSubcategory (predicates ++ s :: rest) w ij)
        (fun v x hv hx hP => (hcell v x hv hx).1 hP) hdont
      have hpreds : (TruthTable.destAxes (predicates ++ s :: rest).length
          ((Finset.range (s :: rest).length).image (fun k => predicates.length + k))).filterMap
            (fun i => (predicates ++ s :: rest)[i]?) = predicates := by
        rw [List.length_append, destAxes_added, filterMap_range_getElem]
      refine ⟨s :: rest, ⟨predicates, t', hdegree'⟩, hadded, hsplit.trans ?_, rfl, hget⟩
      rw [if_neg (by simp)]
      unfold TruthTableWithPredicates.getFolded
      dsimp only [Option.bind_eq_bind]
      rw [hfolded, hpreds]
      exact dif_pos hdegree'

section

variable {expr : BooleanExpression (PredicateOperator S A M)}
  {predicates : List (EqualPredicateSet S A M)}

/-- **The loop of `ConstrainByEvaluating`**: a `TRUE` cell it visits becomes `FALSE`
when the expression evaluates false with the predicates forced. -/
theorem foldlM_evaluateCell
    (heval : ∀ v, v.length = predicates.length →
      ∃ r, expr.evaluate (forceExpression predicates v) = some r)
    (vs : List (List Bool)) : ∀ t : TruthTable, t.degree = predicates.length →
    (∀ v ∈ vs, v.length = predicates.length) →
    ∃ t', vs.foldlM (evaluateCell expr predicates) t = some t' ∧ t'.degree = t.degree
      ∧ ∀ w, w.length = t.degree → t'.get w =
          if w ∈ vs ∧ t.get w = some .TRUE
            ∧ expr.evaluate (forceExpression predicates w) = some false
          then some .FALSE else t.get w := by
  induction vs with
  | nil => exact fun t _ _ => ⟨t, rfl, rfl, by simp⟩
  | cons v vs ih =>
      intro t hdegree hvs
      have hv := hvs v List.mem_cons_self
      obtain ⟨r, hr⟩ := heval v hv
      obtain ⟨c, hc⟩ := t.get_isSome (hv.trans hdegree.symm)
      -- the first cell
      have hfirst : ∃ t₁, evaluateCell expr predicates t v = some t₁ ∧ t₁.degree = t.degree
          ∧ ∀ w, w.length = t.degree → t₁.get w =
              if w = v ∧ c = .TRUE ∧ r = false then some .FALSE else t.get w := by
        unfold evaluateCell
        rw [hc]
        dsimp only [Option.bind_eq_bind, Option.bind_some]
        by_cases hcell : c = .TRUE
        · rw [if_pos hcell, hr]
          dsimp only [Option.bind_some]
          cases r with
          | true => exact ⟨t, rfl, rfl, by simp⟩
          | false =>
              obtain ⟨t₁, hset, hdeg, hget⟩ := t.get_set (hv.trans hdegree.symm) .FALSE
              refine ⟨t₁, hset, hdeg, ?_⟩
              intro w hw
              rw [hget w hw]
              simp [hcell]
        · rw [if_neg hcell]
          exact ⟨t, rfl, rfl, by simp [hcell]⟩
      obtain ⟨t₁, hcell, hdeg₁, hget₁⟩ := hfirst
      obtain ⟨t', hfold, hdeg', hget'⟩ := ih t₁ (hdeg₁.trans hdegree)
        (fun w hw => hvs w (List.mem_cons_of_mem v hw))
      refine ⟨t', ?_, hdeg'.trans hdeg₁, ?_⟩
      · rw [List.foldlM_cons, hcell]
        exact hfold
      · -- a cell is written when its row is visited
        intro w hw
        rw [hget' w (hw.trans hdeg₁.symm), hget₁ w hw]
        by_cases hwv : w = v
        · subst hwv
          rw [hc, hr]
          cases c <;> cases r <;> simp
        · simp [hwv]

/-- **After `ConstrainByEvaluating`** a `TRUE` cell has the value of the expression, and
a `DONT_CARE` cell is left. -/
theorem constrainByEvaluating_spec (expr : BooleanExpression (PredicateOperator S A M))
    (ttwp : TruthTableWithPredicates S A M)
    (heval : ∀ v, v.length = ttwp.predicates.length →
      ∃ r, expr.evaluate (forceExpression ttwp.predicates v) = some r) :
    ∃ ttwp', constrainByEvaluating expr ttwp = some ttwp'
      ∧ ttwp'.predicates = ttwp.predicates
      ∧ ∀ v r, v.length = ttwp.predicates.length →
          expr.evaluate (forceExpression ttwp.predicates v) = some r →
          (ttwp.truthTable.get v = some .TRUE →
            ttwp'.truthTable.get v = some (if r then .TRUE else .FALSE))
          ∧ (ttwp.truthTable.get v = some .DONT_CARE →
            ttwp'.truthTable.get v = some .DONT_CARE) := by
  obtain ⟨t', hfold, hdegree, hget⟩ := foldlM_evaluateCell heval
    (forPower ttwp.predicates.length indexRangeBool) ttwp.truthTable ttwp.degree_eq
    (fun v hv => mem_forPower_bool.mp hv)
  have hdegree' := hdegree.trans ttwp.degree_eq
  refine ⟨⟨ttwp.predicates, t', hdegree'⟩, ?_, rfl, ?_⟩
  · unfold constrainByEvaluating
    rw [hfold]
    exact dif_pos hdegree'
  · -- a cell is visited once, and left as it is if there is no cell to write
    intro v r hv hr
    have hcell := hget v (hv.trans ttwp.degree_eq.symm)
    rw [hr] at hcell
    refine ⟨?_, ?_⟩
    · intro htrue
      show t'.get v = _
      rw [hcell, htrue]
      have hmem : v ∈ forPower ttwp.predicates.length indexRangeBool := mem_forPower_bool.mpr hv
      cases r <;> simp [hmem]
    · intro hdont
      show t'.get v = _
      rw [hcell, hdont]
      simp

end

/-! ## §5. The actual row. -/

section

variable {expr : BooleanExpression (PredicateOperator S A M)}
  {value : PredicateOperator S A M → Option Bool}

/-- **Forcing the actual truth values changes no predicate of the expression.** -/
theorem forceExpression_actual {predicates : List (EqualPredicateSet S A M)}
    {actual : List Bool}
    (hactual : predicates.mapM (fun s => value (s.front layout)) = some actual)
    (hequal : ∀ s ∈ predicates, ∀ p ∈ s.preds, value p = value (s.front layout))
    {p : PredicateOperator S A M} (hp : ∃ s ∈ predicates, p ∈ s.preds) :
    forceExpression predicates actual p = value p := by
  obtain ⟨hlen, hget⟩ := getElem?_of_mapM hactual
  -- every axis that has the predicate has its value
  have hvalue : ∀ a ∈ (predicates.zip actual).filter (fun a => decide (p ∈ a.1.preds)),
      value p = some a.2 := by
    intro a ha
    obtain ⟨hzip, hmem⟩ := List.mem_filter.mp ha
    obtain ⟨i, hi⟩ := List.getElem?_of_mem hzip
    obtain ⟨hs, hb⟩ := List.getElem?_zip_eq_some.mp hi
    rw [hequal a.1 (List.mem_of_getElem? hs) p (of_decide_eq_true hmem), hget i a.1 hs, hb]
  have hne : (predicates.zip actual).filter (fun a => decide (p ∈ a.1.preds)) ≠ [] := by
    obtain ⟨s, hs, hps⟩ := hp
    obtain ⟨i, hi⟩ := List.getElem?_of_mem hs
    have hlt : i < actual.length := by
      rw [hlen]
      exact (List.getElem?_eq_some_iff.mp hi).1
    have hzip : (predicates.zip actual)[i]? = some (s, actual[i]) := by
      rw [List.getElem?_zip_eq_some]
      exact ⟨hi, List.getElem?_eq_getElem hlt⟩
    exact List.ne_nil_of_mem (List.mem_filter.mpr
      ⟨List.mem_of_getElem? hzip, decide_eq_true hps⟩)
  unfold forceExpression
  rw [List.getLast?_eq_getLast_of_ne_nil hne, Option.map_some,
    hvalue _ (List.getLast_mem hne)]

omit [DecidableEq A] [DecidableEq M] in
/-- The controls of the multiplexor evaluate to the actual truth values. -/
theorem evaluateAll_predicates {predicates : List (EqualPredicateSet S A M)}
    {actual : List Bool}
    (hactual : predicates.mapM (fun s => value (s.front layout)) = some actual) :
    BooleanExpression.evaluateAll value
      (predicates.map (fun s => BooleanExpression.predicate (s.front layout))) = some actual := by
  induction predicates generalizing actual with
  | nil => exact hactual
  | cons s predicates ih =>
      rw [List.mapM_cons] at hactual
      obtain ⟨b, hb, hactual⟩ := Option.bind_eq_some_iff.mp hactual
      obtain ⟨rest, hrest, hactual⟩ := Option.bind_eq_some_iff.mp hactual
      rw [List.map_cons, BooleanExpression.evaluateAll, ih hrest]
      show (value (s.front layout)).bind _ = _
      rw [hb]
      exact hactual

/-- `Multiplexor` and `ForPower` number the vectors alike. -/
theorem intControl_eq_bitsValue (rs : List Bool) :
    BooleanExpression.intControl rs = bitsValue rs := by
  induction rs with
  | nil => rfl
  | cons r rs ih =>
      show r.toNat + 2 * BooleanExpression.intControl rs = r.toNat + 2 * bitsValue rs
      rw [ih]

omit [DecidableEq A] [DecidableEq M] in
/-- **The alternative expression** evaluates to whether the actual cell is `TRUE`. -/
theorem getAltExpressionForTesting_spec (layout : Layout S A M)
    (ttwp : TruthTableWithPredicates S A M) :
    ∃ alt, getAltExpressionForTesting layout ttwp = some alt
      ∧ ∀ value actual, ttwp.predicates.mapM (fun s => value (s.front layout)) = some actual →
        ∃ c, ttwp.truthTable.get actual = some c
          ∧ alt.evaluate value = some (decide (c = .TRUE)) := by
  obtain ⟨options, hoptions, _⟩ := exists_mapM
    (fun indices => (ttwp.truthTable.get indices).bind fun cellValue =>
      some (BooleanExpression.constant (P := PredicateOperator S A M)
        (decide (cellValue = .TRUE))))
    (forPower ttwp.predicates.length indexRangeBool) (by
      intro v hv
      obtain ⟨c, hc⟩ := ttwp.truthTable.get_isSome
        ((mem_forPower_bool.mp hv).trans ttwp.degree_eq.symm)
      exact ⟨_, by rw [hc]; rfl⟩)
  -- the options are the cells in the order of the multiplexor's control
  obtain ⟨hlen, hget⟩ := getElem?_of_mapM hoptions
  rw [length_forPower_bool] at hlen
  refine ⟨.multiplexor (ttwp.predicates.map (fun s => .predicate (s.front layout))) options,
    ?_, ?_⟩
  · unfold getAltExpressionForTesting
    dsimp only [Option.bind_eq_bind]
    rw [hoptions]
    dsimp only [Option.bind_some]
    rw [ASSERT_pos (by rw [hlen, List.length_map])]
    rfl
  · -- the control reads the actual cell
    intro value actual hactual
    have hlenActual : actual.length = ttwp.predicates.length := (getElem?_of_mapM hactual).1
    obtain ⟨c, hc⟩ := ttwp.truthTable.get_isSome (hlenActual.trans ttwp.degree_eq.symm)
    refine ⟨c, hc, ?_⟩
    have hplace : (forPower ttwp.predicates.length indexRangeBool)[bitsValue actual]?
        = some actual := by
      rw [← hlenActual]
      exact forPower_bool_bitsValue actual
    have hoption := hget (bitsValue actual) actual hplace
    rw [hc] at hoption
    rw [BooleanExpression.evaluate, evaluateAll_predicates hactual]
    show BooleanExpression.evaluateAt value options (BooleanExpression.intControl actual) = _
    rw [BooleanExpression.evaluateAt_eq, intControl_eq_bitsValue, ← hoption]
    rfl

/-- **What `PreSolve` leaves**, whatever the predicates evaluate to, when equal ones
evaluate alike: the cell of the actual row holds the value of the expression if the row
survives, and is `DONT_CARE` if it does not. -/
theorem preSolve_spec (layout : Layout S A M) (isSubcategory : A → A → Bool)
    (hconstructed : expr.Constructed) (hdefined : ∀ p ∈ expr.predicates, ∃ b, value p = some b)
    (hequal : ∀ p ∈ expr.predicates, ∀ q ∈ expr.predicates, p.orderKey = q.orderKey →
      value p = value q) :
    ∃ added ttwp actual result alt,
      addedPreds layout (getPredicates layout expr) = some added
      ∧ preSolve layout isSubcategory expr = some ttwp
      ∧ ttwp.predicates = getPredicates layout expr
      ∧ ttwp.predicates.mapM (fun s => value (s.front layout)) = some actual
      ∧ expr.evaluate value = some result
      ∧ getAltExpressionForTesting layout ttwp = some alt
      ∧ (Survives layout isSubcategory ttwp.predicates added actual →
          ttwp.truthTable.get actual = some (if result then .TRUE else .FALSE)
          ∧ alt.evaluate value = some result)
      ∧ (¬ Survives layout isSubcategory ttwp.predicates added actual →
          ttwp.truthTable.get actual = some .DONT_CARE) := by
  -- the axes are the predicates of the expression
  have hmem : ∀ s ∈ getPredicates layout expr, ∀ p ∈ s.preds, p ∈ expr.predicates :=
    fun s hs p hp => mem_of_mem_groupByEquality hs hp
  have hequal' : ∀ s ∈ getPredicates layout expr, ∀ p ∈ s.preds,
      value p = value (s.front layout) := by
    intro s hs p hp
    exact hequal p (hmem s hs p hp) _ (hmem s hs _ (s.front_mem layout))
      (s.equal p hp _ (s.front_mem layout))
  obtain ⟨actual, hactual, _⟩ := exists_mapM (fun s => value (s.front layout))
    (getPredicates layout expr) (fun s hs => hdefined _ (hmem s hs _ (s.front_mem layout)))
  have hlenActual := (getElem?_of_mapM hactual).1
  obtain ⟨result, hresult⟩ := BooleanExpression.evaluate_isSome expr hconstructed hdefined
  -- any truth values can be forced
  have heval : ∀ v, v.length = (getPredicates layout expr).length →
      ∃ r, expr.evaluate (forceExpression (getPredicates layout expr) v) = some r := by
    intro v hv
    apply BooleanExpression.evaluate_isSome expr hconstructed
    intro p hp
    obtain ⟨s, hs, hps⟩ := exists_mem_groupByEquality layout hp
    obtain ⟨i, hi⟩ := List.getElem?_of_mem hs
    have hlt : i < v.length := by
      rw [hv]
      exact (List.getElem?_eq_some_iff.mp hi).1
    have hzip : (s, v[i]) ∈ ((getPredicates layout expr).zip v).filter
        (fun a => decide (p ∈ a.1.preds)) := by
      rw [List.mem_filter]
      exact ⟨List.mem_of_getElem? (List.getElem?_zip_eq_some.mpr
        ⟨hi, List.getElem?_eq_getElem hlt⟩), decide_eq_true hps⟩
    -- some pair forces the predicate, so there is a last one that does
    unfold forceExpression
    rw [List.getLast?_eq_getLast_of_ne_nil (List.ne_nil_of_mem hzip)]
    exact ⟨_, rfl⟩
  have hforced : expr.evaluate (forceExpression (getPredicates layout expr) actual)
      = some result := by
    rw [← hresult]
    apply BooleanExpression.evaluate_congr
    intro p hp
    exact forceExpression_actual hactual hequal' (exists_mem_groupByEquality layout hp)
  have hdistinct : Distinct layout (getPredicates layout expr) :=
    distinct_groupByEquality layout expr.predicates
  have hmake : (TruthTable.make (getPredicates layout expr).length .TRUE).degree
      = (getPredicates layout expr).length := rfl
  -- the first pass: what the rules exclude
  obtain ⟨added, derived, hadded, hderived, hpreds, hcells⟩ :=
    constrainUsingDerived_spec isSubcategory hdistinct hmake
  obtain ⟨hsurvive, hdont⟩ := hcells actual hlenActual
  -- the second: what the expression evaluates to, where a row is left
  obtain ⟨ttwp, hconstrained, hpreds', hcells'⟩ := constrainByEvaluating_spec
    expr derived (by rw [hpreds]; exact heval)
  rw [hpreds] at hpreds' hcells'
  obtain ⟨htrue', hdont'⟩ := hcells' actual result hlenActual hforced
  have hpre : preSolve layout isSubcategory expr = some ttwp := by
    unfold preSolve
    show (TruthTableWithPredicates.ofTable (getPredicates layout expr)
      (TruthTable.make (getPredicates layout expr).length .TRUE)).bind _ = _
    rw [show TruthTableWithPredicates.ofTable (getPredicates layout expr)
      (TruthTable.make (getPredicates layout expr).length .TRUE) = some ⟨_, _, hmake⟩ from
        dif_pos hmake]
    show (constrainUsingDerived layout isSubcategory _).bind _ = _
    rw [hderived]
    exact hconstrained
  -- both cells are those of the actual row
  obtain ⟨alt, halt, hevalAlt⟩ := getAltExpressionForTesting_spec layout ttwp
  rw [← hpreds'] at hactual hsurvive hdont
  obtain ⟨c, hc, halte⟩ := hevalAlt value actual hactual
  refine ⟨added, ttwp, actual, result, alt, hadded, hpre, hpreds', hactual, hresult, halt, ?_, ?_⟩
  · intro h
    have hcell := htrue' (hsurvive h)
    refine ⟨hcell, ?_⟩
    rw [hc, Option.some.injEq] at hcell
    rw [halte, hcell]
    cases result <;> rfl
  · exact fun h => hdont' (hdont h)

end

end Inferno.SYM
