/-
  Inferno.UP.OrderingRanges
  ─────────────────────────
  What `FindOutOfOrderTreePatches` accepts.

    • `Accepts`      — bases at or below a link, in depth-first order, none above another,
    • `IndexBefore`  — the order of the set of indices,
    • `Discarded`    — the indices with a descendant next in the set,
    • `findOutOfOrderTreePatches_spec` — it returns, and the patches that are in order
                       are accepted.
-/
import Inferno.DB.DBWalk
import Inferno.Lib.FoldM
import Inferno.UP.LongestInOrder

namespace Inferno.UP

open Inferno.Common Inferno.DB Inferno.Lib

variable {P A : Type} {db : XTreeDatabase Nat Nat A} {records : List (PatchRecord P)}
  {inOrderBases : Finset Nat} {base : Nat}

/-! ## §1. What is accepted. -/

/-- **Patches whose bases are in order below a link**, and new. -/
structure Accepts (db : XTreeDatabase Nat Nat A) (inOrderBases : Finset Nat) (base : Nat)
    (patches : List (Patch P)) : Prop where
  below : ∀ p ∈ patches, ∃ a, p.base? = some a ∧ a ∈ db.rows.keys ∧ db.WeakDescendant base a
    ∧ a ∉ inOrderBases
  sorted : patches.Pairwise fun p q => ∀ a b, p.base? = some a → q.base? = some b →
    DFBefore db a b ∧ ¬ db.Ancestor a b

/-- Every record has a base with a row. -/
def HaveBases (db : XTreeDatabase Nat Nat A) (records : List (PatchRecord P)) : Prop :=
  ∀ r ∈ records, ∃ a, r.patch.base? = some a ∧ a ∈ db.rows.keys

/-- `i` is the index of a record with base `a`. -/
def HasBase (db : XTreeDatabase Nat Nat A) (records : List (PatchRecord P)) (i a : Nat) : Prop :=
  baseAt records i = some a ∧ a ∈ db.rows.keys

theorem HaveBases.at (h : HaveBases db records) {i : Nat} (hi : i < records.length) :
    ∃ a, HasBase db records i a := by
  obtain ⟨a, ha, hkeys⟩ := h records[i] (List.getElem_mem hi)
  refine ⟨a, ?_, hkeys⟩
  unfold baseAt
  rw [List.getElem?_eq_getElem hi]
  exact ha

/-- The order of the set of indices. -/
def IndexBefore (db : XTreeDatabase Nat Nat A) (records : List (PatchRecord P)) (i j : Nat) :
    Prop :=
  ∃ a b, HasBase db records i a ∧ HasBase db records j b ∧ DFBefore db a b

/-- An index that may be in order. -/
def Candidate (db : XTreeDatabase Nat Nat A) (records : List (PatchRecord P)) (base : Nat)
    (inOrderBases : Finset Nat) (i : Nat) : Prop :=
  ∃ a, HasBase db records i a ∧ db.WeakDescendant base a ∧ a ∉ inOrderBases

theorem IndexBefore.trans {i j k : Nat} (h : IndexBefore db records i j)
    (h' : IndexBefore db records j k) : IndexBefore db records i k := by
  obtain ⟨a, b, ha, hb, hab⟩ := h
  obtain ⟨b', c, hb', hc, hbc⟩ := h'
  obtain rfl := Option.some.inj (hb.1.symm.trans hb'.1)
  exact ⟨a, c, ha, hc, (DepthFirstRelation.compare3Way_threeWay db).trans _ _ _ hab hbc⟩

theorem IndexBefore.ne {i j : Nat} (h : IndexBefore db records i j) : i ≠ j := by
  rintro rfl
  obtain ⟨a, b, ha, hb, hab⟩ := h
  obtain rfl := Option.some.inj (ha.1.symm.trans hb.1)
  exact (DepthFirstRelation.compare3Way_threeWay db).irrefl _ hab

/-- Two indices compare as their bases. -/
theorem compareIndices_eq {i j a b : Nat} (hi : HasBase db records i a)
    (hj : HasBase db records j b) : compareIndices db records i j
      = DepthFirstRelation.compareHierarchical db (.link a) (.link b) := by
  unfold compareIndices
  rw [hi.1, hj.1]
  rfl

/-! ## §2. The provisional order. -/

/-- The set of indices, in its order. -/
structure Provisional (db : XTreeDatabase Nat Nat A) (records : List (PatchRecord P))
    (base : Nat) (inOrderBases : Finset Nat) (indices : List Nat) : Prop where
  sorted : indices.Pairwise (IndexBefore db records)
  candidate : ∀ i ∈ indices, Candidate db records base inOrderBases i

/-- **An insertion** keeps the order, and adds at most the one index. -/
theorem insertIndex_spec {i a : Nat} (hi : HasBase db records i a) : ∀ {indices : List Nat},
    indices.Pairwise (IndexBefore db records) →
    (∀ j ∈ indices, ∃ b, HasBase db records j b) →
    ∃ indices', insertIndex db records i indices = some indices'
      ∧ indices'.Pairwise (IndexBefore db records) ∧ ∀ j ∈ indices', j = i ∨ j ∈ indices := by
  intro indices
  induction indices with
  | nil =>
      intro _ _
      exact ⟨[i], rfl, List.pairwise_singleton _ _, by simp⟩
  | cons j rest ih =>
      intro hsorted hbases
      obtain ⟨hhead, htail⟩ := List.pairwise_cons.mp hsorted
      obtain ⟨b, hb⟩ := hbases j List.mem_cons_self
      obtain ⟨d, rel, hres, hneg, hpos, hzero, _, _⟩ := exists_compareHierarchical hi.2 hb.2
      unfold insertIndex
      rw [compareIndices_eq hi hb, hres]
      dsimp only [Option.bind_eq_bind, Option.bind_some]
      -- in front of `j`, at `j` or behind it
      by_cases hd : d < 0
      · rw [if_pos hd]
        have hij : IndexBefore db records i j := ⟨a, b, hi, hb, hneg.mp hd⟩
        refine ⟨_, rfl, List.pairwise_cons.mpr ⟨?_, hsorted⟩, ?_⟩
        · intro k hk
          rcases List.mem_cons.mp hk with rfl | hk
          · exact hij
          · exact hij.trans (hhead k hk)
        · intro k hk
          exact List.mem_cons.mp hk
      · rw [if_neg hd]
        by_cases hd0 : d = 0
        · rw [if_pos hd0]
          exact ⟨_, rfl, hsorted, fun k hk => .inr hk⟩
        · rw [if_neg hd0]
          obtain ⟨rest', hrest, hsorted', hmem⟩ :=
            ih htail fun k hk => hbases k (List.mem_cons_of_mem _ hk)
          have hji : IndexBefore db records j i := ⟨b, a, hb, hi, hpos.mp (by omega)⟩
          refine ⟨j :: rest', by rw [hrest]; rfl, List.pairwise_cons.mpr ⟨?_, hsorted'⟩, ?_⟩
          · intro k hk
            rcases hmem k hk with rfl | hk
            · exact hji
            · exact hhead k hk
          · intro k hk
            rcases List.mem_cons.mp hk with rfl | hk
            · exact .inr List.mem_cons_self
            · exact (hmem k hk).imp id (List.mem_cons_of_mem _)

/-- One index considered. -/
theorem considerIndex_spec (hbase : base ∈ db.rows.keys) (hrecords : HaveBases db records)
    {i : Nat} (hi : i < records.length) {indices : List Nat}
    (h : Provisional db records base inOrderBases indices) :
    ∃ indices', considerIndex db records base inOrderBases indices i = some indices'
      ∧ Provisional db records base inOrderBases indices' := by
  obtain ⟨a, ha⟩ := hrecords.at hi
  obtain ⟨d, rel, hres, _, _, _, hequal, hancestor⟩ := exists_compareHierarchical hbase ha.2
  unfold considerIndex
  rw [ha.1]
  dsimp only [Option.bind_eq_bind, Option.bind_some]
  rw [ASSERT_pos (db.row_nonnull a ha.2)]
  dsimp only [Option.bind_some]
  rw [hres]
  dsimp only [Option.bind_some]
  -- at or below the base, and not in use already
  by_cases hrange : rel = .equal ∨ rel = .leftIsAncestor
  · rw [if_pos hrange]
    by_cases hdup : a ∈ inOrderBases
    · rw [if_pos hdup]
      exact ⟨indices, rfl, h⟩
    · rw [if_neg hdup]
      have hbelow : db.WeakDescendant base a := by
        rcases hrange with hrel | hrel
        · rw [hequal.mp hrel]
          exact Relation.ReflTransGen.refl
        · exact (hancestor.mp hrel).to_reflTransGen
      obtain ⟨indices', hinsert, hsorted, hmem⟩ := insertIndex_spec ha h.sorted (by
        intro j hj
        obtain ⟨b, hb, _⟩ := h.candidate j hj
        exact ⟨b, hb⟩)
      refine ⟨indices', hinsert, hsorted, ?_⟩
      intro j hj
      rcases hmem j hj with rfl | hj
      · exact ⟨a, ha, hbelow, hdup⟩
      · exact h.candidate j hj
  · rw [if_neg hrange]
    exact ⟨indices, rfl, h⟩

/-! ## §3. Runs of ancestors. -/

/-- The loop over the runs will discard the index. -/
def AncestorRuns.Discarded (s : AncestorRuns) (i : Nat) : Prop :=
  ∃ run ∈ s.runAMap.keys, i ∈ (s.runAMap.lookup run).getD ∅

/-- `i` is the index of an ancestor of the base with index `j`. -/
def IndexAbove (db : XTreeDatabase Nat Nat A) (records : List (PatchRecord P)) (i j : Nat) :
    Prop :=
  ∃ a b, HasBase db records i a ∧ HasBase db records j b ∧ db.Ancestor a b

theorem discarded_set {s : AncestorRuns} {runI prevI i j : Nat} {p : Option Nat} {da : Bool}
    (h : s.Discarded i ∨ i = prevI) :
    AncestorRuns.Discarded ⟨j, p, da, s.runAMap.set runI
      (insert prevI ((s.runAMap.lookup runI).getD ∅))⟩ i := by
  unfold AncestorRuns.Discarded
  dsimp only
  rcases h with ⟨run, hrun, hi⟩ | rfl
  · by_cases hrr : run = runI
    · subst hrr
      refine ⟨run, StdMap.mem_keys_set_self _ _ _, ?_⟩
      rw [StdMap.lookup_set, if_pos rfl]
      exact Finset.mem_insert_of_mem hi
    · refine ⟨run, ?_, ?_⟩
      · rw [StdMap.keys_set]
        exact Finset.mem_insert_of_mem hrun
      · rw [StdMap.lookup_set, if_neg hrr]
        exact hi
  · refine ⟨runI, StdMap.mem_keys_set_self _ _ _, ?_⟩
    rw [StdMap.lookup_set, if_pos rfl]
    exact Finset.mem_insert_self _ _

/-- One turn, from the index before: an ancestor of the next is recorded. -/
theorem AncestorRuns.step_spec {s : AncestorRuns} {prevI i : Nat} (hprev : s.prevI = some prevI)
    (hlt : IndexBefore db records prevI i) :
    ∃ s', s.step db records i = some s' ∧ s'.prevI = some i
      ∧ (∀ j, s.Discarded j → s'.Discarded j)
      ∧ (IndexAbove db records prevI i → s'.Discarded prevI) := by
  obtain ⟨a, b, ha, hb, hab⟩ := hlt
  obtain ⟨d, rel, hres, hneg, _, _, _, hancestor⟩ := exists_compareHierarchical ha.2 hb.2
  unfold AncestorRuns.step
  rw [hprev]
  dsimp only
  rw [compareIndices_eq ha hb, hres]
  dsimp only [Option.bind_eq_bind, Option.bind_some]
  rw [ASSERT_pos (hneg.mpr hab)]
  dsimp only [Option.bind_some]
  refine ⟨_, rfl, rfl, ?_, ?_⟩
  · intro j hj
    by_cases hrel : rel = .leftIsAncestor
    · simp only [hrel, decide_true, if_true]
      exact discarded_set (.inl hj)
    · simp only [hrel, decide_false, Bool.false_eq_true, if_false]
      exact hj
  · rintro ⟨a', b', ha', hb', habove⟩
    obtain rfl := Option.some.inj (ha.1.symm.trans ha'.1)
    obtain rfl := Option.some.inj (hb.1.symm.trans hb'.1)
    simp only [hancestor.mpr habove, decide_true, if_true]
    exact discarded_set (.inr rfl)

/-- **The loop over the set**: of two neighbours, the first is recorded when it is an
ancestor of the second. -/
theorem runs_spec {rest : List Nat} : ∀ {s : AncestorRuns} {prevI : Nat},
    s.prevI = some prevI → (prevI :: rest).Pairwise (IndexBefore db records) →
    ∃ s', rest.foldlM (AncestorRuns.step db records) s = some s'
      ∧ (∀ j, s.Discarded j → s'.Discarded j)
      ∧ ∀ l i j l', prevI :: rest = l ++ i :: j :: l' → IndexAbove db records i j →
          s'.Discarded i := by
  induction rest with
  | nil =>
      intro s prevI _ _
      refine ⟨s, rfl, fun j hj => hj, ?_⟩
      intro l i j l' hsplit
      have hlen := congrArg List.length hsplit
      simp only [List.length_cons, List.length_append, List.length_nil] at hlen
      omega
  | cons k rest ih =>
      intro s prevI hprev hsorted
      obtain ⟨hhead, htail⟩ := List.pairwise_cons.mp hsorted
      obtain ⟨s₁, hstep, hprev₁, hmono, hnew⟩ :=
        AncestorRuns.step_spec hprev (hhead k List.mem_cons_self)
      obtain ⟨s', hrest, hmono', hall⟩ := ih hprev₁ htail
      refine ⟨s', foldlM_cons_eq_some.mpr ⟨s₁, hstep, hrest⟩, ?_, ?_⟩
      · intro j hj
        exact hmono' j (hmono j hj)
      · intro l i j l' hsplit habove
        cases l with
        | nil =>
            -- the first two
            rw [List.nil_append] at hsplit
            obtain ⟨hi, htail⟩ := List.cons.inj hsplit
            rw [← hi, ← (List.cons.inj htail).1] at habove
            exact hi ▸ hmono' prevI (hnew habove)
        | cons _ l =>
            rw [List.cons_append] at hsplit
            exact hall l i j l' (List.cons.inj hsplit).2 habove

/-- What is left after the discards. -/
theorem AncestorRuns.discard_spec (s : AncestorRuns) (indices : List Nat) :
    (s.discard indices).Sublist indices ∧ ∀ i ∈ s.discard indices, ¬ s.Discarded i := by
  have hfold : ∀ (runs : List Nat) (indices : List Nat),
      (runs.foldl (fun indices run =>
          indices.filter (· ∉ (s.runAMap.lookup run).getD ∅)) indices).Sublist indices
        ∧ ∀ i ∈ runs.foldl (fun indices run =>
            indices.filter (· ∉ (s.runAMap.lookup run).getD ∅)) indices,
          ∀ run ∈ runs, i ∉ (s.runAMap.lookup run).getD ∅ := by
    intro runs
    induction runs with
    | nil =>
        intro indices
        exact ⟨List.Sublist.refl _, by simp⟩
    | cons run runs ih =>
        intro indices
        obtain ⟨hsub, hout⟩ := ih (indices.filter (· ∉ (s.runAMap.lookup run).getD ∅))
        refine ⟨hsub.trans List.filter_sublist, ?_⟩
        intro i hi run' hrun'
        rcases List.mem_cons.mp hrun' with rfl | hrun'
        · simpa using (List.mem_filter.mp (hsub.subset hi)).2
        · exact hout i hi run' hrun'
  obtain ⟨hsub, hout⟩ := hfold (inOrder s.runAMap.keys) indices
  refine ⟨hsub, ?_⟩
  rintro i hi ⟨run, hrun, hmem⟩
  exact hout i hi run (mem_inOrder.mpr hrun) hmem

/-- **After the discards no index is above another.** -/
theorem discard_antichain {s : AncestorRuns} {indices : List Nat}
    (hsorted : indices.Pairwise (IndexBefore db records))
    (hdiscard : ∀ l i j l', indices = l ++ i :: j :: l' → IndexAbove db records i j →
      s.Discarded i) :
    (s.discard indices).Pairwise fun i j => IndexBefore db records i j
      ∧ ¬ IndexAbove db records i j := by
  obtain ⟨hsub, hout⟩ := s.discard_spec indices
  have hpairs : indices.Pairwise fun i j => IndexBefore db records i j
      ∧ (IndexAbove db records i j → s.Discarded i) := by
    rw [List.pairwise_iff_forall_sublist]
    intro i k hik
    have hbefore := List.pairwise_iff_forall_sublist.mp hsorted hik
    refine ⟨hbefore, ?_⟩
    intro habove
    -- the index after `i` is at or before `k`, so `i` is above it too
    obtain ⟨l, rest, rfl, hk⟩ : ∃ l rest, indices = l ++ i :: rest ∧ k ∈ rest := by
      obtain ⟨l, rest, hsplit, hmem, hsingle⟩ := List.cons_sublist_iff.mp hik
      obtain ⟨l₁, l₂, rfl⟩ := List.append_of_mem hmem
      exact ⟨l₁, l₂ ++ rest, by rw [hsplit]; simp,
        List.mem_append_right _ (List.singleton_sublist.mp hsingle)⟩
    cases rest with
    | nil => exact absurd hk (by simp)
    | cons j rest =>
        refine hdiscard l i j rest rfl ?_
        have htail := (List.pairwise_append.mp hsorted).2.1
        obtain ⟨hhead, hrest⟩ := List.pairwise_cons.mp htail
        obtain ⟨a, b, ha, hb, hab⟩ := hhead j List.mem_cons_self
        refine ⟨a, b, ha, hb, ?_⟩
        obtain ⟨a', c, ha', hc, hac⟩ := habove
        obtain rfl := Option.some.inj (ha.1.symm.trans ha'.1)
        have hthree := DepthFirstRelation.compare3Way_threeWay db
        have hcb : ¬ DFBefore db c b := by
          rcases List.mem_cons.mp hk with rfl | hk
          · obtain rfl := Option.some.inj (hb.1.symm.trans hc.1)
            exact hthree.irrefl _
          · obtain ⟨b', c', hb', hc', hbc⟩ := (List.pairwise_cons.mp hrest).1 k hk
            obtain rfl := Option.some.inj (hb.1.symm.trans hb'.1)
            obtain rfl := Option.some.inj (hc.1.symm.trans hc'.1)
            exact hthree.asymm hbc
        have hweak := weakDescendant_of_between ha.2 hc.2 hb.2 hac.to_reflTransGen
          (hthree.asymm hab) hcb
        rcases Relation.reflTransGen_iff_eq_or_transGen.mp hweak with rfl | htrans
        · exact absurd hab (hthree.irrefl _)
        · exact htrans
  refine (hpairs.sublist hsub).imp_of_mem ?_
  intro i j hi _ h
  exact ⟨h.1, fun habove => hout i hi (h.2 habove)⟩

/-! ## §4. The patches in order. -/

/-- The patches of the records that are in order. -/
def accepted (records : List (PatchRecord P)) : List (Patch P) :=
  (records.filter fun r => !r.outOfOrder).map (·.patch)

/-- Two indices kept are in the order of the set. -/
theorem kept_pair {kept : List Nat} {R : Nat → Nat → Prop} (hsorted : kept.Pairwise (· < ·))
    (hkept : kept.Pairwise R) {i j : Nat} (hi : i ∈ kept) (hj : j ∈ kept) (hij : i < j) :
    R i j := by
  have hboth : kept.Pairwise fun i j => (i < j ∧ R i j) ∨ (j < i ∧ R j i) :=
    (hsorted.and hkept).imp fun h => .inl h
  have hsymm : Std.Symm fun i j => (i < j ∧ R i j) ∨ (j < i ∧ R j i) := ⟨fun i j h => h.symm⟩
  rcases hboth.forall hi hj hij.ne with h | h
  · exact h.2
  · exact absurd h.1 hij.asymm

/-- The records flagged by the indices kept. -/
def flag (records : List (PatchRecord P)) (kept : List Nat) : List (PatchRecord P) :=
  records.zipIdx.map fun (record, i) => { record with outOfOrder := i ∉ kept }

theorem flag_patches (kept : List Nat) :
    (flag records kept).map (·.patch) = records.map (·.patch) := by
  unfold flag
  rw [List.map_map]
  show records.zipIdx.map ((·.patch) ∘ Prod.fst) = _
  rw [← List.map_map, List.zipIdx_map_fst]

theorem accepted_flag (kept : List Nat) : accepted (flag records kept)
    = (records.zipIdx.filter fun p => decide (p.2 ∈ kept)).map fun p => p.1.patch := by
  unfold accepted flag
  rw [List.filter_map, List.map_map]
  congr 1
  refine List.filter_congr ?_
  intro p _
  simp

/-- **The patches with the indices kept are accepted.** -/
theorem accepts_flag {kept : List Nat} (hsorted : kept.Pairwise (· < ·))
    (hkept : kept.Pairwise fun i j => IndexBefore db records i j
      ∧ ¬ IndexAbove db records i j)
    (hcandidate : ∀ i ∈ kept, Candidate db records base inOrderBases i) :
    Accepts db inOrderBases base (accepted (flag records kept)) := by
  have hbaseAt : ∀ p ∈ records.zipIdx, baseAt records p.2 = p.1.patch.base? := by
    rintro ⟨r, i⟩ hp
    unfold baseAt
    rw [List.mem_zipIdx_iff_getElem?.mp hp]
    rfl
  rw [accepted_flag]
  constructor
  · intro p hp
    obtain ⟨q, hq, rfl⟩ := List.mem_map.mp hp
    obtain ⟨hq, hkept⟩ := List.mem_filter.mp hq
    obtain ⟨a, ha, hbelow, hnew⟩ := hcandidate q.2 (of_decide_eq_true hkept)
    exact ⟨a, (hbaseAt q hq).symm.trans ha.1, ha.2, hbelow, hnew⟩
  · rw [List.pairwise_map]
    refine ((XTrees.places_sorted records).filter _).imp_of_mem ?_
    intro q q' hq hq' hlt a b ha hb
    obtain ⟨hq, hi⟩ := List.mem_filter.mp hq
    obtain ⟨hq', hj⟩ := List.mem_filter.mp hq'
    obtain ⟨⟨a', b', ha', hb', hab⟩, hnot⟩ :=
      kept_pair hsorted hkept (of_decide_eq_true hi) (of_decide_eq_true hj) hlt
    obtain rfl := Option.some.inj (ha.symm.trans ((hbaseAt q hq).symm.trans ha'.1))
    obtain rfl := Option.some.inj (hb.symm.trans ((hbaseAt q' hq').symm.trans hb'.1))
    exact ⟨hab, fun habove => hnot ⟨a, b, ha', hb', habove⟩⟩

/-- **`FindOutOfOrderTreePatches` returns**, and accepts the patches it leaves in order. -/
theorem findOutOfOrderTreePatches_spec (hbase : base ∈ db.rows.keys)
    (hrecords : HaveBases db records) (hne : records ≠ []) :
    ∃ flagged, findOutOfOrderTreePatches db inOrderBases records base = some flagged
      ∧ flagged.map (·.patch) = records.map (·.patch)
      ∧ Accepts db inOrderBases base (accepted flagged) := by
  obtain ⟨indices, hindices, hprov⟩ :=
    foldlM_returns (f := considerIndex db records base inOrderBases)
      (Provisional db records base inOrderBases) (List.range records.length)
      (fun i hi _ h => considerIndex_spec hbase hrecords (List.mem_range.mp hi) h)
      ⟨List.Pairwise.nil, by simp⟩
  -- what the walk over the indices discards
  obtain ⟨runs, hruns, hdiscard⟩ : ∃ runs,
      indices.foldlM (AncestorRuns.step db records) ⟨0, none, false, StdMap.empty⟩ = some runs
        ∧ ∀ l i j l', indices = l ++ i :: j :: l' → IndexAbove db records i j →
          runs.Discarded i := by
    cases hcases : indices with
    | nil =>
        refine ⟨_, rfl, ?_⟩
        intro l i j l' hsplit
        exact absurd hsplit (by simp)
    | cons i rest =>
        have hfirst : (⟨0, none, false, StdMap.empty⟩ : AncestorRuns).step db records i
            = some ⟨0, some i, false, StdMap.empty⟩ := rfl
        obtain ⟨runs, hrest, _, hall⟩ :=
          runs_spec (s := ⟨0, some i, false, StdMap.empty⟩) rfl (hcases ▸ hprov.sorted)
        exact ⟨runs, foldlM_cons_eq_some.mpr ⟨_, hfirst, hrest⟩, hall⟩
  have hdiscarded := discard_antichain hprov.sorted hdiscard
  have hnodup : (runs.discard indices).Nodup := hdiscarded.imp fun h => h.1.ne
  -- of what is left, the longest increasing run is kept
  obtain ⟨kept, hkept, hkeptSub, hkeptSorted⟩ :=
    maximalIncreasingSubsequence_increasing (runs.discard indices) hnodup
  have hantichain := hdiscarded.sublist hkeptSub
  refine ⟨flag records kept, ?_, flag_patches kept, accepts_flag hkeptSorted hantichain ?_⟩
  · have hlen : records.length ≠ 0 := fun h => hne (List.length_eq_zero_iff.mp h)
    unfold findOutOfOrderTreePatches
    rw [ASSERT_pos hlen, ASSERT_pos (db.row_nonnull base hbase)]
    simp only [Option.bind_eq_bind, Option.bind_some, hindices, hruns, hkept, flag]
  · intro i hi
    exact hprov.candidate i ((runs.discard_spec indices).1.subset (hkeptSub.subset hi))

end Inferno.UP
