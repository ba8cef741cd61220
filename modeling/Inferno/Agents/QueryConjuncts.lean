/-
  Inferno.Agents.QueryConjuncts
  ─────────────────────────────
  The conjuncts of a standard agent's query, for any property of conjuncts.

    • `forall_splitAnds_sequence`, `forall_splitAnds_collection`
                              — the clauses of one container,
    • `StandardPlan.forall_iff` — what a plan has is what the items have,
    • `ItemClauses`           — the clauses of one item,
    • `forall_splitAnds_mMed` — the conjuncts of the query are the pre-restriction, the
                                local match and the clauses of each item.
-/
import Inferno.Agents.PatternTree

namespace Inferno.Agents

open Inferno.Common
open Inferno.DB
open Inferno.SYM
open Inferno.SYM.BooleanExpression

variable {V L A N D M : Type}

/-! ## §1. Atoms. -/

section

variable {P : Type} {Q : BooleanExpression P → Prop}

theorem forall_splitAnds_atom {a : BooleanExpression P} (hatom : splitAnds a = [a]) :
    (∀ c ∈ splitAnds a, Q c) ↔ Q a := by
  rw [hatom, List.forall_mem_singleton]

/-- A loop that adds an atom for each element. -/
theorem forall_splitAnds_map {α : Type} {f : α → BooleanExpression P}
    (hatom : ∀ x, splitAnds (f x) = [f x]) (l : List α) :
    (∀ a ∈ l.map f, ∀ c ∈ splitAnds a, Q c) ↔ ∀ x ∈ l, Q (f x) := by
  rw [List.forall_mem_map]
  exact forall₂_congr (fun x _ => forall_splitAnds_atom (hatom x))

end

/-! ## §2. The clauses of a container. -/

section

variable [LinearOrder V] [LinearOrder L]
  {Q : BooleanExpression (PredicateOperator (SymbolExpression V L A) A M) → Prop}
  (htrue : Q (.constant true)) (hfalse : ¬ Q (.constant false))

include htrue hfalse

omit [LinearOrder L] in
/-- The conjuncts for a sequence are those on the plan's sets and ends. -/
theorem forall_splitAnds_sequence {archetypeNode : A} {planSeq : SequencePlan V}
    {keyerPlink : V} :
    (∀ c ∈ splitAnds (symbolicNormalLinkedQuerySequence archetypeNode planSeq keyerPlink), Q c)
      ↔ SequencePlan.Holds
          (fun p => Q (containerClause archetypeNode planSeq.itemiseIndex keyerPlink p))
          (fun p => Q (frontClause p)) (fun p => Q (backClause p))
          (fun p q => ∀ c ∈ adjacentClauses (p, q), Q c) (fun p q => Q (gappedClause (p, q)))
          planSeq := by
  -- a pair gives two clauses, each a conjunct of its own
  have hadjacent : (∀ a ∈ (pairsInOrder planSeq.adjacentNonStars).flatMap adjacentClauses,
      ∀ c ∈ splitAnds a, Q c)
        ↔ ∀ pq ∈ planSeq.adjacentNonStars, ∀ c ∈ adjacentClauses pq, Q c := by
    simp only [List.mem_flatMap, forall_exists_index, and_imp, mem_pairsInOrder]
    constructor
    · intro h pq hpq c hc
      refine h c pq hpq hc c ?_
      rcases List.mem_pair.mp hc with rfl | rfl <;> exact List.mem_singleton_self _
    · intro h a pq hpq ha c hc
      have hca : c = a := by
        rcases List.mem_pair.mp ha with rfl | rfl <;> exact List.mem_singleton.mp hc
      exact h pq hpq c (hca ▸ ha)
  unfold symbolicNormalLinkedQuerySequence
  simp only [forall_splitAnds_andAll htrue hfalse, hadjacent,
    forall_splitAnds_atom (Q := Q) (a := BooleanExpression.constant true) rfl, htrue, true_and]
  rw [forall_splitAnds_map (fun _ => rfl), forall_splitAnds_map (fun _ => rfl),
    forall_splitAnds_map (fun _ => rfl), forall_splitAnds_map (fun _ => rfl)]
  -- what is left is the order of the conjunction
  simp only [mem_inOrder, mem_pairsInOrder, Option.mem_toList]
  constructor
  · intro h
    exact ⟨⟨h.1.1.1.1, fun pq hpq => h.1.2 pq hpq, h.2⟩, h.1.1.1.2, h.1.1.2⟩
  · intro h
    exact ⟨⟨⟨⟨h.isIn, h.front⟩, h.back⟩, fun pq hpq => h.adjacent pq hpq⟩, h.gapped⟩

omit [LinearOrder L] in
/-- The conjuncts for a collection. -/
theorem forall_splitAnds_collection {archetypeNode : A} {planCol : CollectionPlan V}
    {keyerPlink : V} :
    (∀ c ∈ splitAnds (symbolicNormalLinkedQueryCollection archetypeNode planCol keyerPlink), Q c)
      ↔ (∀ p ∈ planCol.nonStars,
          Q (collectionClause archetypeNode planCol.itemiseIndex keyerPlink p))
        ∧ (∀ c ∈ allDiffClauses (inOrder planCol.nonStars), Q c)
        ∧ (planCol.starPlink = none →
          Q (sizedClause archetypeNode planCol.itemiseIndex keyerPlink planCol.nonStars.card)) := by
  have hdiff : (∀ a ∈ allDiffClauses (inOrder planCol.nonStars), ∀ c ∈ splitAnds a, Q c)
      ↔ ∀ c ∈ allDiffClauses (inOrder planCol.nonStars), Q c := by
    unfold allDiffClauses
    by_cases hlen : 2 ≤ (inOrder planCol.nonStars).length
    · rw [dif_pos hlen, List.forall_mem_singleton, List.forall_mem_singleton]
      exact forall_splitAnds_atom rfl
    · rw [dif_neg hlen]
      simp
  unfold symbolicNormalLinkedQueryCollection
  cases planCol.starPlink with
  | none =>
      simp only [Option.isNone_none, if_true, forall_const, forall_splitAnds_andAll htrue hfalse,
        hdiff, List.forall_mem_singleton]
      rw [forall_splitAnds_map (fun _ => rfl), forall_splitAnds_atom rfl, forall_splitAnds_atom rfl]
      simp only [mem_inOrder, htrue, true_and, and_assoc]
  | some star =>
      simp only [Option.isNone_some, Bool.false_eq_true, if_false, reduceCtorEq, false_imp_iff,
        and_true, forall_splitAnds_andAll htrue hfalse, hdiff]
      rw [forall_splitAnds_map (fun _ => rfl), forall_splitAnds_atom rfl]
      simp only [mem_inOrder, htrue, true_and]

end

/-! ## §3. The plan of a node. -/

/-- What is asked of the plan of an item, at its index. -/
def ItemPlanned [DecidableEq V] (isStar : V → Bool) (inReplaceOnly : Bool)
    (Singular : Nat × V → Prop) (Collection : List V × CollectionPlan V → Prop)
    (Sequence : List V × SequencePlan V → Prop) (item : PatternItem V × Nat) : Prop :=
  match item.1 with
  | .singular none => True
  | .singular (some plink) => Singular (item.2, plink)
  | .sequence pattern => Sequence (pattern, SequencePlan.make isStar item.2 pattern)
  | .collection pattern => ∀ planCol,
      CollectionPlan.make isStar inReplaceOnly item.2 pattern = some planCol →
        Collection (pattern, planCol)

section

variable [DecidableEq V] {isStar : V → Bool} {inReplaceOnly : Bool}
  {Singular : Nat × V → Prop} {Collection : List V × CollectionPlan V → Prop}
  {Sequence : List V × SequencePlan V → Prop}

/-- What holds of all the plans in a plan. -/
structure StandardPlan.All (Singular : Nat × V → Prop)
    (Collection : List V × CollectionPlan V → Prop) (Sequence : List V × SequencePlan V → Prop)
    (plan : StandardPlan V) : Prop where
  singulars : ∀ s ∈ plan.singulars, Singular s
  collections : ∀ c ∈ plan.collections, Collection c
  sequences : ∀ s ∈ plan.sequences, Sequence s

/-- One item more. -/
theorem StandardPlan.all_addItem {plan plan' : StandardPlan V} {item : PatternItem V × Nat}
    (h : addItem isStar inReplaceOnly plan item = some plan') :
    All Singular Collection Sequence plan'
      ↔ All Singular Collection Sequence plan
        ∧ ItemPlanned isStar inReplaceOnly Singular Collection Sequence item := by
  obtain ⟨item, i⟩ := item
  unfold addItem at h
  -- the item goes to the list of its kind; a NULL child goes to none
  cases item with
  | singular plink =>
      cases plink with
      | none =>
          cases h
          simp [ItemPlanned]
      | some p =>
          cases h
          constructor
          · intro hall
            have hs := hall.singulars
            rw [List.forall_mem_append, List.forall_mem_singleton] at hs
            exact ⟨⟨hs.1, hall.collections, hall.sequences⟩, hs.2⟩
          · intro hall
            refine ⟨?_, hall.1.collections, hall.1.sequences⟩
            rw [List.forall_mem_append, List.forall_mem_singleton]
            exact ⟨hall.1.singulars, hall.2⟩
  | sequence pattern =>
      cases h
      constructor
      · intro hall
        have hs := hall.sequences
        rw [List.forall_mem_append, List.forall_mem_singleton] at hs
        exact ⟨⟨hall.singulars, hall.collections, hs.1⟩, hs.2⟩
      · intro hall
        refine ⟨hall.1.singulars, hall.1.collections, ?_⟩
        rw [List.forall_mem_append, List.forall_mem_singleton]
        exact ⟨hall.1.sequences, hall.2⟩
  | collection pattern =>
      obtain ⟨planCol, hmake, hplan⟩ := Option.bind_eq_some_iff.mp h
      cases hplan
      -- a collection goes there with the plan made of its pattern
      have hitem : ItemPlanned isStar inReplaceOnly Singular Collection Sequence
          (.collection pattern, i) ↔ Collection (pattern, planCol) := by
        show (∀ planCol', CollectionPlan.make isStar inReplaceOnly i pattern = some planCol' → _)
          ↔ _
        rw [hmake]
        simp
      rw [hitem]
      constructor
      · intro hall
        have hs := hall.collections
        rw [List.forall_mem_append, List.forall_mem_singleton] at hs
        exact ⟨⟨hall.singulars, hs.1, hall.sequences⟩, hs.2⟩
      · intro hall
        refine ⟨hall.1.singulars, ?_, hall.1.sequences⟩
        rw [List.forall_mem_append, List.forall_mem_singleton]
        exact ⟨hall.1.collections, hall.2⟩

/-- **A plan has what the items have.** -/
theorem StandardPlan.forall_iff {items : List (PatternItem V)} {plan : StandardPlan V}
    (h : constructPlan isStar inReplaceOnly items = some plan) :
    All Singular Collection Sequence plan
      ↔ ∀ item ∈ items.zipIdx,
          ItemPlanned isStar inReplaceOnly Singular Collection Sequence item := by
  unfold constructPlan at h
  generalize items.zipIdx = its at h ⊢
  induction its using List.reverseRecOn generalizing plan with
  | nil =>
      cases h
      constructor
      · intro _ item hitem
        cases hitem
      · intro _
        exact ⟨by simp, by simp, by simp⟩
  | append_singleton its item ih =>
      rw [List.foldlM_append] at h
      obtain ⟨plan₀, hplan₀, hadd⟩ := Option.bind_eq_some_iff.mp h
      rw [all_addItem (by simpa using hadd), ih hplan₀, List.forall_mem_append,
        List.forall_mem_singleton]

/-- **With one star at most in each collection the plan is constructed.** -/
theorem StandardPlan.exists_constructPlan (isStar : V → Bool) (inReplaceOnly : Bool)
    (items : List (PatternItem V))
    (hone : ∀ pattern, .collection pattern ∈ items → (pattern.filter isStar).length ≤ 1) :
    ∃ plan, constructPlan isStar inReplaceOnly items = some plan := by
  have hone' : ∀ item ∈ items.zipIdx, ∀ pattern, item.1 = .collection pattern →
      (pattern.filter isStar).length ≤ 1 := by
    intro item hitem pattern heq
    refine hone pattern (heq ▸ ?_)
    exact List.mem_of_getElem? (List.mem_zipIdx_iff_getElem?.mp hitem)
  unfold constructPlan
  generalize items.zipIdx = its at hone'
  generalize (⟨[], [], []⟩ : StandardPlan V) = plan
  induction its generalizing plan with
  | nil => exact ⟨plan, rfl⟩
  | cons item its ih =>
      rw [List.forall_mem_cons] at hone'
      obtain ⟨plan', hadd⟩ : ∃ plan', addItem isStar inReplaceOnly plan item = some plan' := by
        obtain ⟨item, i⟩ := item
        unfold addItem
        cases item with
        | singular plink => cases plink <;> exact ⟨_, rfl⟩
        | sequence pattern => exact ⟨_, rfl⟩
        | collection pattern =>
            obtain ⟨planCol, hmake⟩ :=
              CollectionPlan.exists_make isStar inReplaceOnly i pattern (hone'.1 pattern rfl)
            exact ⟨_, Option.bind_eq_some_iff.mpr ⟨planCol, hmake, rfl⟩⟩
      obtain ⟨plan'', hrest⟩ := ih hone'.2 plan'
      exact ⟨plan'', by rw [List.foldlM_cons, hadd]; exact hrest⟩

end

/-! ## §4. The conjuncts of the query. -/

section

variable [LinearOrder V] [LinearOrder L]

/-- What is asked of the conjuncts for one item. -/
def ItemClauses (Q : BooleanExpression (PredicateOperator (SymbolExpression V L A) A M) → Prop)
    (isStar : V → Bool) (archetypeNode : A) (keyerPlink : V) : PatternItem V × Nat → Prop :=
  ItemPlanned isStar false
    (fun planSing => Q (symbolicNormalLinkedQuerySingular archetypeNode planSing keyerPlink))
    (fun planCol => ∀ c ∈ splitAnds
      (symbolicNormalLinkedQueryCollection archetypeNode planCol.2 keyerPlink), Q c)
    (fun planSeq => ∀ c ∈ splitAnds
      (symbolicNormalLinkedQuerySequence archetypeNode planSeq.2 keyerPlink), Q c)

variable [DecidableEq A] {T : PatternTree V A D}
  {Q : Engine.Expression V L A (PatternNode A D) → Prop}

omit [LinearOrder L] in
/-- **The conjuncts of a standard agent's query.** -/
theorem forall_splitAnds_mMed (htrue : Q (.constant true)) (hfalse : ¬ Q (.constant false))
    {patternNode : PatternNode A D} {items : List (PatternItem V)} {plan : StandardPlan V}
    (hplan : StandardPlan.constructPlan T.isStar false items = some plan) (keyerPlink : V) :
    (∀ c ∈ splitAnds (T.symbolicNormalLinkedQueryMMed patternNode plan keyerPlink), Q c)
      ↔ Q (T.symbolicPreRestriction keyerPlink) ∧ Q (localMatchClause patternNode keyerPlink)
        ∧ ∀ item ∈ items.zipIdx,
            ItemClauses Q T.isStar patternNode.archetypeNode keyerPlink item := by
  have hpre : splitAnds (T.symbolicPreRestriction keyerPlink : Engine.Expression V L A _)
      = [T.symbolicPreRestriction keyerPlink] := by
    unfold PatternTree.symbolicPreRestriction
    cases T.restriction keyerPlink <;> rfl
  unfold PatternTree.symbolicNormalLinkedQueryMMed symbolicNormalLinkedQueryPRed ItemClauses
  rw [← StandardPlan.forall_iff hplan]
  simp only [forall_splitAnds_and htrue hfalse, forall_splitAnds_andAll htrue hfalse,
    forall_splitAnds_atom hpre]
  rw [forall_splitAnds_map (fun _ => rfl), forall_splitAnds_atom rfl, List.forall_mem_map,
    List.forall_mem_map]
  constructor
  · intro h
    exact ⟨h.1, h.2.1.1.1, h.2.1.1.2, h.2.1.2, h.2.2⟩
  · intro h
    exact ⟨h.1, ⟨⟨h.2.1, h.2.2.singulars⟩, h.2.2.collections⟩, h.2.2.sequences⟩

end

end Inferno.Agents
