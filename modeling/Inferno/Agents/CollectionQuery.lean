/-
  Inferno.Agents.CollectionQuery
  ──────────────────────────────
  Collection patterns: what the conjunction lets the non-star children be, and what
  regeneration leaves for the star.

    • `CollectionPlan.make`            — `StandardAgent::Plan::Collection`,
    • `symbolicNormalLinkedQueryCollection`
                                       — the conjunction as the code builds it,
    • `regenerationQueryCollection`    — the sub-collection given to the star,
    • `collection_exact`               — the injective maps, onto the container when
                                         there is no star; the star has the rest.
-/
import Inferno.Agents.SequenceQuery
import Inferno.Agents.SubContainers
import Inferno.DB.FlatDatabase
import Mathlib.Data.Set.Function

namespace Inferno.Agents

open Inferno.Common
open Inferno.DB
open Inferno.SYM

/-! ## §1. The plan. -/

/-- `Plan::Collection`.  Pattern links are `V`. -/
structure CollectionPlan (V : Type) where
  itemiseIndex : Nat
  starPlink : Option V
  nonStars : Finset V

namespace CollectionPlan

variable {V : Type} [DecidableEq V]

/-- The body of the constructor's loop; `none` is the assertion that there is only one
star in a compare pattern. -/
def step (isStar : V → Bool) (inReplaceOnly : Bool) (plan : CollectionPlan V) (plink : V) :
    Option (CollectionPlan V) :=
  if isStar plink then do
    ASSERT (inReplaceOnly ∨ plan.starPlink = none)
    some (if plan.starPlink.isNone then { plan with starPlink := some plink } else plan)
  else
    some { plan with nonStars := insert plink plan.nonStars }

/-- The constructor. -/
def make (isStar : V → Bool) (inReplaceOnly : Bool) (itemiseIndex : Nat) (pattern : List V) :
    Option (CollectionPlan V) :=
  pattern.foldlM (step isStar inReplaceOnly) ⟨itemiseIndex, none, ∅⟩

/-- What the constructor reads off a pattern. -/
structure Reads (isStar : V → Bool) (pattern : List V) (plan : CollectionPlan V) : Prop where
  starPlink : plan.starPlink = pattern.find? isStar
  nonStars : plan.nonStars = (pattern.filter (fun plink => !isStar plink)).toFinset

variable {isStar : V → Bool} {inReplaceOnly : Bool} {plan : CollectionPlan V}

/-- One element more keeps the reading. -/
theorem Reads.step {pattern : List V} (h : Reads isStar pattern plan) {plink : V}
    {plan' : CollectionPlan V}
    (hstep : CollectionPlan.step isStar inReplaceOnly plan plink = some plan') :
    Reads isStar (pattern ++ [plink]) plan' ∧ plan'.itemiseIndex = plan.itemiseIndex := by
  unfold CollectionPlan.step at hstep
  cases hstar : isStar plink with
  | true =>
      rw [hstar, if_pos rfl, ASSERT_bind_eq_some] at hstep
      obtain ⟨_, hplan⟩ := hstep
      -- in a replace-only plan a later star changes nothing; elsewhere it was asserted away
      cases hp : plan.starPlink with
      | none =>
          have hplan' : { plan with starPlink := some plink } = plan' := by simpa [hp] using hplan
          subst hplan'
          refine ⟨⟨?_, ?_⟩, rfl⟩
          · simp [← h.starPlink, hp, hstar]
          · simp [h.nonStars, hstar]
      | some star =>
          have hplan' : plan = plan' := by simpa [hp] using hplan
          subst hplan'
          refine ⟨⟨?_, ?_⟩, rfl⟩
          · simp [← h.starPlink, hp]
          · simp [h.nonStars, hstar]
  | false =>
      rw [hstar] at hstep
      cases hstep
      refine ⟨⟨?_, ?_⟩, rfl⟩
      · simp [h.starPlink, hstar]
      · ext q
        simp [h.nonStars, hstar]

/-- **A plan that is made reads the pattern**: the first star, and the set of the
others. -/
theorem reads_of_make (itemiseIndex : Nat) (pattern : List V) :
    ∀ {plan : CollectionPlan V}, make isStar inReplaceOnly itemiseIndex pattern = some plan →
      Reads isStar pattern plan ∧ plan.itemiseIndex = itemiseIndex := by
  unfold make
  induction pattern using List.reverseRecOn with
  | nil =>
      intro plan hmake
      cases hmake
      exact ⟨⟨rfl, rfl⟩, rfl⟩
  | append_singleton pattern plink ih =>
      intro plan hmake
      rw [List.foldlM_append] at hmake
      obtain ⟨plan₀, hplan₀, hstep⟩ := Option.bind_eq_some_iff.mp hmake
      obtain ⟨hreads, hindex⟩ := ih hplan₀
      have hstep' : CollectionPlan.step isStar inReplaceOnly plan₀ plink = some plan := by
        simpa using hstep
      obtain ⟨hreads', hindex'⟩ := hreads.step hstep'
      exact ⟨hreads', hindex'.trans hindex⟩

/-- **With at most one star the plan is made.** -/
theorem exists_make (isStar : V → Bool) (inReplaceOnly : Bool) (itemiseIndex : Nat)
    (pattern : List V) (hone : (pattern.filter isStar).length ≤ 1) :
    ∃ plan, make isStar inReplaceOnly itemiseIndex pattern = some plan := by
  induction pattern using List.reverseRecOn with
  | nil => exact ⟨_, rfl⟩
  | append_singleton pattern plink ih =>
      rw [List.filter_append, List.length_append] at hone
      obtain ⟨plan, hplan⟩ := ih (by omega)
      have hreads := (reads_of_make itemiseIndex pattern hplan).1
      unfold make at hplan ⊢
      rw [List.foldlM_append, hplan]
      show ∃ plan', [plink].foldlM (step isStar inReplaceOnly) plan = some plan'
      simp only [List.foldlM_cons, List.foldlM_nil]
      unfold CollectionPlan.step
      cases hstar : isStar plink with
      | true =>
          -- the first star: no element before it is one
          have hnil : pattern.filter isStar = [] := by
            rw [List.filter_cons_of_pos hstar] at hone
            exact List.eq_nil_of_length_eq_zero (by simpa using hone)
          have hp : plan.starPlink = none := by
            rw [hreads.starPlink, ← List.head?_filter, hnil]
            rfl
          simp [hp, ASSERT]
      | false => simp

end CollectionPlan

/-! ## §2. The conjunction. -/

section

variable {V L A N M : Type} [LinearOrder V] [LinearOrder L]

/-- `expr &= (candidate_col_front_expr == keyer_child_col_front_expr)`. -/
def collectionClause (archetypeNode : A) (itemiseIndex : Nat) (keyerPlink candidatePlink : V) :
    BooleanExpression (PredicateOperator (SymbolExpression V L A) A M) :=
  isEqual (.xTreeDbToSymbol .myContainerFront (variableExpr candidatePlink))
    (.childToSymbol .childCollectionFront archetypeNode itemiseIndex (variableExpr keyerPlink))

/-- `expr &= MakeLazy<IsAllDiffOperator>( candidate_exprs )`, of two candidates or
more. -/
def allDiffClauses (candidatePlinks : List V) :
    List (BooleanExpression (PredicateOperator (SymbolExpression V L A) A M)) :=
  if h : 2 ≤ candidatePlinks.length then
    [.predicate ⟨.isAllDiff, candidatePlinks.map variableExpr, by
      rw [List.length_map]
      exact h⟩]
  else []

/-- `expr &= MakeLazy<IsChildCollectionSizedOperator>(…)`. -/
def sizedClause (archetypeNode : A) (itemiseIndex : Nat) (keyerPlink : V) (size : Int) :
    BooleanExpression (PredicateOperator (SymbolExpression V L A) A M) :=
  .predicate ⟨.isChildCollectionSized archetypeNode itemiseIndex size,
    [variableExpr keyerPlink], rfl⟩

/-- `SymbolicNormalLinkedQueryCollection`. -/
def symbolicNormalLinkedQueryCollection (archetypeNode : A) (planCol : CollectionPlan V)
    (keyerPlink : V) : BooleanExpression (PredicateOperator (SymbolExpression V L A) A M) :=
  let expr := BooleanExpression.constant true
  let expr := expr.andAll ((inOrder planCol.nonStars).map
    (collectionClause archetypeNode planCol.itemiseIndex keyerPlink))
  let expr := expr.andAll (allDiffClauses (inOrder planCol.nonStars))
  if planCol.starPlink.isNone then
    expr.andAll [sizedClause archetypeNode planCol.itemiseIndex keyerPlink planCol.nonStars.card]
  else expr

omit [LinearOrder L] in
/-- The conjunction holds iff its clauses do. -/
theorem satisfied_collectionQuery_iff
    {pred : PredicateOperator (SymbolExpression V L A) A M → Option Bool} {archetypeNode : A}
    {planCol : CollectionPlan V} {keyerPlink : V} :
    (symbolicNormalLinkedQueryCollection archetypeNode planCol keyerPlink).Satisfied pred
      ↔ (∀ p ∈ planCol.nonStars,
          (collectionClause archetypeNode planCol.itemiseIndex keyerPlink p).Satisfied pred)
        ∧ (∀ c ∈ allDiffClauses (inOrder planCol.nonStars), c.Satisfied pred)
        ∧ (planCol.starPlink = none →
          (sizedClause archetypeNode planCol.itemiseIndex keyerPlink
            planCol.nonStars.card).Satisfied pred) := by
  unfold symbolicNormalLinkedQueryCollection
  cases planCol.starPlink with
  | none =>
      simp [BooleanExpression.satisfied_andAll, and_assoc]
  | some star =>
      simp [BooleanExpression.satisfied_andAll]

/-! ## §3. The clauses on a link of the keyer's collection. -/

/-- The keyer is assigned a link of the database, whose node the archetype itemises
with the collection `xs` at the pattern's item. -/
structure CollectionKeyerAt (db : XTreeDatabase L N A) (hypothesisLinks : StdMap V (XLink L))
    (archetypeNode : A) (itemiseIndex : Nat) (keyerPlink : V) (node : N) (xs : List L) :
    Prop where
  exists_link : ∃ y, hypothesisLinks.lookup keyerPlink = some (.link y) ∧ y ∈ db.rows.keys
    ∧ db.childOf y = some node
  isSubcategory : db.isSubcategory archetypeNode node = true
  item : (db.itemiseAs archetypeNode node)[itemiseIndex]? = some (.collection xs)

variable {db : XTreeDatabase L N A} {hypothesisLinks : StdMap V (XLink L)} {archetypeNode : A}
  {itemiseIndex : Nat} {keyerPlink : V} {node : N} {xs : List L}
  {kit : PredicateKit (XLink L) A M} {p : V}

omit [LinearOrder V] [LinearOrder L] in
/-- The collection is one of the node's own. -/
theorem CollectionKeyerAt.containerAt
    (h : CollectionKeyerAt db hypothesisLinks archetypeNode itemiseIndex keyerPlink node xs) :
    ∃ y i, db.ContainerAt y node i (.collection xs) := by
  obtain ⟨y, _, hrow, hchild⟩ := h.exists_link
  have hmem := db.itemiseAs_sub archetypeNode node h.isSubcategory _ (List.mem_of_getElem? h.item)
  obtain ⟨i, hi⟩ := List.mem_iff_getElem?.mp hmem
  exact ⟨y, i, hrow, hchild, List.mem_zipIdx_iff_getElem?.mpr hi, by simp⟩

omit [LinearOrder V] [LinearOrder L] in
theorem CollectionKeyerAt.nodup
    (h : CollectionKeyerAt db hypothesisLinks archetypeNode itemiseIndex keyerPlink node xs) :
    xs.Nodup := by
  obtain ⟨y, i, hc⟩ := h.containerAt
  exact hc.nodup

omit [LinearOrder V] in
/-- `ChildCollectionFront` of the keyer. -/
theorem CollectionKeyerAt.evaluate_front
    (h : CollectionKeyerAt db hypothesisLinks archetypeNode itemiseIndex keyerPlink node xs) :
    SymbolExpression.evaluate hypothesisLinks db
        (.childToSymbol .childCollectionFront archetypeNode itemiseIndex
          (variableExpr keyerPlink))
      = some ((xs.head?.map (fun f => .uniqueResult (.link f))).getD .emptyResult) := by
  obtain ⟨y, i, hc⟩ := h.containerAt
  obtain ⟨z, hkey, _, hchild⟩ := h.exists_link
  have hfrom : SymbolExpression.evalFromItem db .childCollectionFront (.collection xs)
      = some ((xs.head?.map (fun f => .uniqueResult (.link f))).getD .emptyResult) := by
    cases hx : xs.head? with
    | none => simp [SymbolExpression.evalFromItem, hx]
    | some f =>
        have hplace := hc.place (k := 0) (x := f) (by
          show xs[0]? = some f
          rw [← List.head?_eq_getElem?, hx])
        obtain ⟨n, hn⟩ := Option.isSome_iff_exists.mp hplace.nonnull
        simp [SymbolExpression.evalFromItem, hx, SymbolExpression.makeXLink, hn]
  simp only [SymbolExpression.evaluate, hkey, Option.map_some, Option.bind_eq_bind,
    Option.bind_some, SymbolExpression.evaluateChild, XTrees.getChildTreePtr, hchild,
    h.isSubcategory, if_true, h.item, hfrom]

omit [LinearOrder V] in
/-- **The container clause**: the candidate is an element of the keyer's collection. -/
theorem CollectionKeyerAt.satisfied_collectionClause
    (h : CollectionKeyerAt db hypothesisLinks archetypeNode itemiseIndex keyerPlink node xs)
    {a : XLink L} (hp : hypothesisLinks.lookup p = some a) :
    (collectionClause archetypeNode itemiseIndex keyerPlink p).Satisfied
        (predicateEvaluate hypothesisLinks db kit) ↔ a ∈ xs.map XLink.link := by
  obtain ⟨y, i, hc⟩ := h.containerAt
  unfold collectionClause
  simp only [satisfied_isEqual, h.evaluate_front, evaluate_containerFront hp, List.mem_map]
  cases hx : xs.head? with
  | none =>
      -- an empty collection has no front
      have hnil : xs = [] := List.head?_eq_none_iff.mp hx
      simp [hnil]
  | some f =>
      simp only [Option.map_some, Option.getD_some, Option.some.injEq,
        SymbolicResult.uniqueResult.injEq, exists_eq_right']
      constructor
      · intro hfront
        obtain ⟨x, row, ha, hrow, hfr⟩ := hfront
        exact ⟨x, (hc.containerFront_iff hx).mp ⟨row, hrow, hfr⟩, ha.symm⟩
      · intro hmem
        obtain ⟨x, hxs, ha⟩ := hmem
        obtain ⟨row, hrow, hfr⟩ := (hc.containerFront_iff hx).mpr hxs
        exact ⟨x, row, ha.symm, hrow, hfr⟩

omit [LinearOrder V] in
/-- The operands of an `AllDiff`. -/
theorem mapM_evaluate_variables {a : V → XLink L} (candidatePlinks : List V)
    (hlinks : ∀ p ∈ candidatePlinks, hypothesisLinks.lookup p = some (a p)) :
    (candidatePlinks.map variableExpr).mapM (SymbolExpression.evaluate hypothesisLinks db)
      = some (candidatePlinks.map (fun p => SymbolicResult.uniqueResult (a p))) := by
  induction candidatePlinks with
  | nil => rfl
  | cons p ps ih =>
      rw [List.forall_mem_cons] at hlinks
      have hp : SymbolExpression.evaluate hypothesisLinks db (variableExpr p)
          = some (.uniqueResult (a p)) := by
        simp [SymbolExpression.evaluate, hlinks.1]
      simp [hp, ih hlinks.2]

omit [LinearOrder V] in
/-- **The difference clause**: the candidates are assigned different links. -/
theorem satisfied_allDiffClauses {a : V → XLink L} {candidatePlinks : List V}
    (hnodup : candidatePlinks.Nodup)
    (hlinks : ∀ p ∈ candidatePlinks, hypothesisLinks.lookup p = some (a p)) :
    (∀ c ∈ allDiffClauses candidatePlinks, c.Satisfied (predicateEvaluate hypothesisLinks db kit))
      ↔ Set.InjOn a {p | p ∈ candidatePlinks} := by
  unfold allDiffClauses
  by_cases hlen : 2 ≤ candidatePlinks.length
  · rw [dif_pos hlen, List.forall_mem_singleton, BooleanExpression.satisfied_predicate]
    unfold predicateEvaluate
    have hresults : (candidatePlinks.map (fun p => SymbolicResult.uniqueResult (a p))).map
        SymbolicResult.onlyXLink = (candidatePlinks.map a).map some := by
      rw [List.map_map, List.map_map]
      rfl
    simp only [mapM_evaluate_variables candidatePlinks hlinks, Option.bind_eq_bind,
      Option.bind_some, hresults, PredicateOperator.evaluateOn_some,
      PredicateOperator.evaluateDefined, Option.some.injEq, decide_eq_true_eq]
    exact List.nodup_map_iff_inj_on hnodup
  · -- one candidate, or none, cannot collide
    rw [dif_neg hlen]
    simp only [List.not_mem_nil, false_imp_iff, implies_true, true_iff]
    intro p hp q hq _
    obtain ⟨i, hi, rfl⟩ := List.mem_iff_getElem.mp hp
    obtain ⟨j, hj, rfl⟩ := List.mem_iff_getElem.mp hq
    have hij : i = j := by omega
    subst hij
    rfl

omit [LinearOrder V] in
/-- **The size clause**: the keyer's collection has so many elements. -/
theorem CollectionKeyerAt.satisfied_sizedClause
    (h : CollectionKeyerAt db hypothesisLinks archetypeNode itemiseIndex keyerPlink node xs)
    (simpleCompare : Option N → Option N → Int) (isLocalMatch : M → Option N → Bool) (n : Nat) :
    (sizedClause archetypeNode itemiseIndex keyerPlink n).Satisfied
        (predicateEvaluate hypothesisLinks db (databaseKit db simpleCompare isLocalMatch))
      ↔ xs.length = n := by
  obtain ⟨y, hkey, _, hchild⟩ := h.exists_link
  unfold sizedClause
  rw [BooleanExpression.satisfied_predicate]
  unfold predicateEvaluate
  have hvar : SymbolExpression.evaluate hypothesisLinks db (variableExpr keyerPlink)
      = some (.uniqueResult (.link y)) := by
    simp [SymbolExpression.evaluate, hkey]
  simp only [List.mapM_cons, List.mapM_nil, hvar, Option.bind_eq_bind, Option.bind_some,
    Option.pure_def, List.map_cons, List.map_nil, SymbolicResult.onlyXLink]
  show PredicateOperator.evaluateOn _ _ ([XLink.link y].map some) = some true ↔ _
  rw [PredicateOperator.evaluateOn_some]
  simp [PredicateOperator.evaluateDefined, databaseKit, XTrees.getChildTreePtr, hchild,
    h.isSubcategory, h.item]

/-! ## §4. The match. -/

/-- **What a collection pattern is for**: its non-star children are different elements
of the collection, and all of them when there is no star. -/
structure CollectionMatch (a : V → XLink L) (nonStars : Set V) (hasStar : Prop)
    (elements : Set (XLink L)) : Prop where
  mapsTo : Set.MapsTo a nonStars elements
  injOn : Set.InjOn a nonStars
  surjOn : ¬ hasStar → Set.SurjOn a nonStars elements

/-- The links of a container. -/
def linkSet (xs : List L) : Set (XLink L) :=
  {x | x ∈ xs.map XLink.link}

omit [LinearOrder V] in
/-- **An injective map into a container is onto it iff it is as long as the map's
domain.** -/
theorem surjOn_iff_length {a : V → XLink L} {nonStars : Finset V} {xs : List L}
    (hnodup : xs.Nodup) (hmaps : Set.MapsTo a nonStars (linkSet xs))
    (hinj : Set.InjOn a nonStars) :
    Set.SurjOn a nonStars (linkSet xs) ↔ xs.length = nonStars.card := by
  have hcard : (xs.map XLink.link).toFinset.card = xs.length := by
    rw [List.toFinset_card_of_nodup (hnodup.map (fun _ _ h => XLink.link.inj h)),
      List.length_map]
  have himage : (nonStars.image a).card = nonStars.card := Finset.card_image_of_injOn hinj
  have hsub : nonStars.image a ⊆ (xs.map XLink.link).toFinset := by
    intro x hx
    obtain ⟨p, hp, hpx⟩ := Finset.mem_image.mp hx
    rw [← hpx, List.mem_toFinset]
    exact hmaps hp
  constructor
  · intro hsurj
    have hsup : (xs.map XLink.link).toFinset ⊆ nonStars.image a := by
      intro x hx
      obtain ⟨p, hp, hpx⟩ := hsurj (List.mem_toFinset.mp hx)
      exact Finset.mem_image.mpr ⟨p, hp, hpx⟩
    have heq := congrArg Finset.card (hsub.antisymm hsup)
    omega
  · intro hlen
    have heq : nonStars.image a = (xs.map XLink.link).toFinset :=
      Finset.eq_of_subset_of_card_le hsub (by omega)
    intro x hx
    have hmem : x ∈ nonStars.image a := heq ▸ List.mem_toFinset.mpr hx
    exact Finset.mem_image.mp hmem

/-- The conjunction is the match. -/
theorem CollectionKeyerAt.satisfied_query_iff
    (h : CollectionKeyerAt db hypothesisLinks archetypeNode itemiseIndex keyerPlink node xs)
    (simpleCompare : Option N → Option N → Int) (isLocalMatch : M → Option N → Bool)
    {planCol : CollectionPlan V} (hindex : planCol.itemiseIndex = itemiseIndex)
    {a : V → XLink L} (hlinks : ∀ p ∈ planCol.nonStars, hypothesisLinks.lookup p = some (a p)) :
    (symbolicNormalLinkedQueryCollection archetypeNode planCol keyerPlink).Satisfied
        (predicateEvaluate hypothesisLinks db (databaseKit db simpleCompare isLocalMatch))
      ↔ CollectionMatch a planCol.nonStars (planCol.starPlink ≠ none) (linkSet xs) := by
  have hmem : ∀ p ∈ planCol.nonStars,
      (collectionClause archetypeNode itemiseIndex keyerPlink p).Satisfied
          (predicateEvaluate hypothesisLinks db (databaseKit db simpleCompare isLocalMatch))
        ↔ a p ∈ linkSet xs :=
    fun p hp => h.satisfied_collectionClause (hlinks p hp)
  have hdiff : (∀ c ∈ allDiffClauses (inOrder planCol.nonStars), c.Satisfied
      (predicateEvaluate hypothesisLinks db (databaseKit db simpleCompare isLocalMatch)))
        ↔ Set.InjOn a {p | p ∈ inOrder planCol.nonStars} :=
    satisfied_allDiffClauses (inOrder_nodup planCol.nonStars)
      (fun p hp => hlinks p (mem_inOrder.mp hp))
  -- the clauses speak of the plan's children as a list in order
  have hset : {p | p ∈ inOrder planCol.nonStars} = (planCol.nonStars : Set V) := by
    ext p
    simp
  rw [satisfied_collectionQuery_iff, hindex, hdiff, hset,
    h.satisfied_sizedClause simpleCompare isLocalMatch]
  constructor
  · intro hq
    have hmaps : Set.MapsTo a planCol.nonStars (linkSet xs) :=
      fun p hp => (hmem p hp).mp (hq.1 p hp)
    refine ⟨hmaps, hq.2.1, fun hstar => ?_⟩
    -- a match with no star is onto, which for maps into a list without repetitions is the length
    exact (surjOn_iff_length h.nodup hmaps hq.2.1).mpr (hq.2.2 (not_not.mp hstar))
  · intro hq
    refine ⟨fun p hp => (hmem p hp).mpr (hq.mapsTo hp), hq.injOn, fun hstar => ?_⟩
    exact (surjOn_iff_length h.nodup hq.mapsTo hq.injOn).mp (hq.surjOn (not_not.mpr hstar))

/-! ## §5. Regeneration. -/

/-- `hypothesis_links->at(plink).GetTreePtrInterface()` of each non-star; `none` is the
exception of `at`. -/
def excludedX (hypothesisLinks : StdMap V (XLink L)) (nonStars : Finset V) :
    Option (Finset (XLink L)) :=
  ((inOrder nonStars).mapM hypothesisLinks.lookup).map List.toFinset

/-- `RegenerationQueryCollection`: the abnormal nodes it registers. -/
def regenerationQueryCollection (db : XTreeDatabase L N A)
    (hypothesisLinks : StdMap V (XLink L)) (planCol : CollectionPlan V) (pXCol : List L)
    (keyerPlink : V) : Option (List (V × SubCollectionRange L N)) :=
  match planCol.starPlink with
  | none => some []
  | some star => do
      let excluded ← excludedX hypothesisLinks planCol.nonStars
      let keyerXlink ← hypothesisLinks.lookup keyerPlink
      let parentX ← db.getChildTreePtr keyerXlink
      some [(star, ⟨parentX, pXCol, excluded⟩)]

/-- The items of the keyer's node, as `RunRegenerationQueryImpl` itemises it. -/
def keyerItems (db : XTreeDatabase L N A) (hypothesisLinks : StdMap V (XLink L))
    (archetypeNode : A) (keyerPlink : V) : Option (List (Item L)) := do
  let keyerXlink ← hypothesisLinks.lookup keyerPlink
  ASSERT (keyerXlink ≠ .MMAX)
  let node ← db.getChildTreePtr keyerXlink
  some (db.itemiseAs archetypeNode node)

/-- `RunRegenerationQueryImpl`, for one collection of the plan. -/
def runRegenerationQueryCollection (db : XTreeDatabase L N A)
    (hypothesisLinks : StdMap V (XLink L)) (archetypeNode : A) (planCol : CollectionPlan V)
    (keyerPlink : V) : Option (List (V × SubCollectionRange L N)) := do
  let xItems ← keyerItems db hypothesisLinks archetypeNode keyerPlink
  match ← xItems[planCol.itemiseIndex]? with
  | .collection ls => regenerationQueryCollection db hypothesisLinks planCol ls keyerPlink
  | _ => none

theorem excludedX_eq {a : V → XLink L} {nonStars : Finset V}
    (hlinks : ∀ p ∈ nonStars, hypothesisLinks.lookup p = some (a p)) :
    excludedX hypothesisLinks nonStars = some (nonStars.image a) := by
  have hmap : ∀ ps : List V, (∀ p ∈ ps, hypothesisLinks.lookup p = some (a p)) →
      ps.mapM hypothesisLinks.lookup = some (ps.map a) := by
    intro ps
    induction ps with
    | nil => intro _; rfl
    | cons p ps ih =>
        intro hps
        rw [List.forall_mem_cons] at hps
        simp [hps.1, ih hps.2]
  unfold excludedX
  rw [hmap _ (fun p hp => hlinks p (mem_inOrder.mp hp)), Option.map_some, Option.some.injEq]
  ext x
  simp

omit [LinearOrder V] in
theorem CollectionKeyerAt.keyerItems_eq
    (h : CollectionKeyerAt db hypothesisLinks archetypeNode itemiseIndex keyerPlink node xs) :
    keyerItems db hypothesisLinks archetypeNode keyerPlink
      = some (db.itemiseAs archetypeNode node) := by
  obtain ⟨y, hkey, _, hchild⟩ := h.exists_link
  simp [keyerItems, hkey, ASSERT, XTrees.getChildTreePtr, hchild]

/-- The star is registered with the keyer's collection, without the links of the
non-stars. -/
theorem CollectionKeyerAt.runRegeneration_eq
    (h : CollectionKeyerAt db hypothesisLinks archetypeNode itemiseIndex keyerPlink node xs)
    {planCol : CollectionPlan V} (hindex : planCol.itemiseIndex = itemiseIndex)
    {a : V → XLink L} (hlinks : ∀ p ∈ planCol.nonStars, hypothesisLinks.lookup p = some (a p)) :
    runRegenerationQueryCollection db hypothesisLinks archetypeNode planCol keyerPlink
      = some (planCol.starPlink.toList.map (fun star => (star,
          ⟨node, xs, planCol.nonStars.image a⟩))) := by
  obtain ⟨y, hkey, _, hchild⟩ := h.exists_link
  unfold runRegenerationQueryCollection
  simp only [h.keyerItems_eq, Option.bind_eq_bind, Option.bind_some, hindex, h.item]
  unfold regenerationQueryCollection
  cases planCol.starPlink with
  | none => rfl
  | some star =>
      simp [excludedX_eq hlinks, hkey, XTrees.getChildTreePtr, hchild]

omit [LinearOrder V] in
/-- **The elements not excluded and those taken make up the collection.** -/
theorem elements_add_taken {a : V → XLink L} {nonStars : Finset V} {xs : List L}
    (hnodup : xs.Nodup) (hmaps : Set.MapsTo a nonStars (linkSet xs))
    (hinj : Set.InjOn a nonStars) (parentX : N) :
    (((⟨parentX, xs, nonStars.image a⟩ : SubCollectionRange L N).elements.map XLink.link :
        List (XLink L)) : Multiset (XLink L)) + nonStars.val.map a
      = (xs.map XLink.link : List (XLink L)) := by
  rw [SubCollectionRange.elements_eq_filter]
  have hxs : (xs.map XLink.link).Nodup := hnodup.map (fun _ _ h => XLink.link.inj h)
  -- those taken are the elements in the image
  have htaken : nonStars.val.map a
      = ((xs.map XLink.link).filter (fun x => x ∈ nonStars.image a) : List (XLink L)) := by
    refine Multiset.Nodup.toFinset_inj ?_ (hxs.filter _) ?_
    · exact (Multiset.nodup_map_iff_inj_on nonStars.nodup).mpr hinj
    · ext x
      simp only [Multiset.mem_toFinset, Multiset.mem_map, Finset.mem_val, Multiset.mem_coe,
        List.mem_filter, Finset.mem_image, decide_eq_true_eq]
      constructor
      · intro hx
        obtain ⟨p, hp, hpx⟩ := hx
        exact ⟨hpx ▸ hmaps hp, p, hp, hpx⟩
      · intro hx
        exact hx.2
  have hrest : (xs.filter (fun x => XLink.link x ∉ nonStars.image a)).map XLink.link
      = (xs.map XLink.link).filter (fun x => ¬ x ∈ nonStars.image a) := by
    rw [List.filter_map]
    rfl
  rw [htaken, hrest, add_comm, ← Multiset.filter_coe, ← Multiset.filter_coe]
  exact Multiset.filter_add_not (fun x => x ∈ nonStars.image a) _

/-! ## §6. Collections match exactly injectively. -/

/-- **Collection patterns match exactly injectively.**  For every pattern with at most
one star and every input collection, the conjunction is satisfied exactly by the
injective maps of the non-star children into the collection, onto it when there is no
star; and the star is then given the multiset of exactly the elements not taken. -/
theorem collection_exact
    (h : CollectionKeyerAt db hypothesisLinks archetypeNode itemiseIndex keyerPlink node xs)
    (simpleCompare : Option N → Option N → Int) (isLocalMatch : M → Option N → Bool)
    (isStar : V → Bool) (inReplaceOnly : Bool) (pattern : List V)
    (hone : (pattern.filter isStar).length ≤ 1) (a : V → XLink L)
    (hlinks : ∀ p ∈ pattern, isStar p = false → hypothesisLinks.lookup p = some (a p)) :
    ∃ planCol, CollectionPlan.make isStar inReplaceOnly itemiseIndex pattern = some planCol
      ∧ ((symbolicNormalLinkedQueryCollection archetypeNode planCol keyerPlink).Satisfied
            (predicateEvaluate hypothesisLinks db (databaseKit db simpleCompare isLocalMatch))
          ↔ CollectionMatch a {p | p ∈ pattern ∧ isStar p = false}
              (∃ p ∈ pattern, isStar p = true) (linkSet xs))
      ∧ ((symbolicNormalLinkedQueryCollection archetypeNode planCol keyerPlink).Satisfied
            (predicateEvaluate hypothesisLinks db (databaseKit db simpleCompare isLocalMatch)) →
          ∃ subs, runRegenerationQueryCollection db hypothesisLinks archetypeNode planCol
              keyerPlink = some subs
            ∧ subs.map Prod.fst = pattern.filter isStar
            ∧ ∀ sub ∈ subs,
                ((sub.2.elements.map XLink.link : List (XLink L)) : Multiset (XLink L))
                    + (pattern.filter (fun p => !isStar p)).toFinset.val.map a
                  = (xs.map XLink.link : List (XLink L))) := by
  -- what the plan holds of the pattern
  obtain ⟨planCol, hmake⟩ :=
    CollectionPlan.exists_make isStar inReplaceOnly itemiseIndex pattern hone
  obtain ⟨hreads, hindex⟩ := CollectionPlan.reads_of_make itemiseIndex pattern hmake
  have hmem : ∀ p, p ∈ planCol.nonStars ↔ p ∈ pattern ∧ isStar p = false := by
    intro p
    simp [hreads.nonStars]
  have hlinks' : ∀ p ∈ planCol.nonStars, hypothesisLinks.lookup p = some (a p) :=
    fun p hp => hlinks p ((hmem p).mp hp).1 ((hmem p).mp hp).2
  have hset : (planCol.nonStars : Set V) = {p | p ∈ pattern ∧ isStar p = false} := by
    ext p
    exact hmem p
  have hstar : planCol.starPlink ≠ none ↔ ∃ p ∈ pattern, isStar p = true := by
    rw [hreads.starPlink, ← Option.isSome_iff_ne_none, List.find?_isSome]
  -- the conjunction of the clauses, in terms of the non-stars
  have hquery := h.satisfied_query_iff simpleCompare isLocalMatch hindex hlinks'
  rw [hset, hstar] at hquery
  refine ⟨planCol, hmake, hquery, fun hsat => ?_⟩
  have hmatch := hquery.mp hsat
  -- the star is given what the map leaves
  refine ⟨_, h.runRegeneration_eq hindex hlinks', ?_, ?_⟩
  · rw [List.map_map, hreads.starPlink]
    show (pattern.find? isStar).toList.map id = _
    rw [List.map_id, ← List.head?_filter]
    -- at most one star: the first is all of them
    cases hstars : pattern.filter isStar with
    | nil => rfl
    | cons star rest =>
        rw [hstars, List.length_cons] at hone
        have hrest : rest = [] := List.eq_nil_of_length_eq_zero (by omega)
        rw [hrest]
        rfl
  · intro sub hsub
    obtain ⟨star, _, hsub⟩ := List.mem_map.mp hsub
    subst hsub
    rw [← hreads.nonStars]
    rw [← hset] at hmatch
    exact elements_add_taken h.nodup hmatch.mapsTo hmatch.injOn node

end

/-- A root with a collection of three leaves. -/
def threeLeaves : Layout :=
  ⟨[.collection [1, 2, 3]], 3, rfl⟩

theorem threeLeaves_keyerAt {hypothesisLinks : StdMap Nat (XLink Nat)} {keyerPlink : Nat}
    (h : hypothesisLinks.lookup keyerPlink = some (.link 0)) :
    CollectionKeyerAt (flatDatabase threeLeaves) hypothesisLinks () 0 keyerPlink 0 [1, 2, 3] where
  exists_link := ⟨0, h, by show 0 ∈ Finset.range 4; simp, by simp [flatDatabase, flatTrees]⟩
  isSubcategory := by simp [flatDatabase, flatTrees]
  item := by simp [flatDatabase, flatTrees, threeLeaves]

/-- The pattern `{a, *, b}` with `a` the second leaf and `b` the first. -/
theorem collection_exact_three :
    ∃ (hypothesisLinks : StdMap Nat (XLink Nat)) (planCol : CollectionPlan Nat),
      CollectionPlan.make (fun plink => plink == 11) false 0 [10, 11, 12] = some planCol
      ∧ (symbolicNormalLinkedQueryCollection () planCol 0).Satisfied
          (predicateEvaluate hypothesisLinks (flatDatabase threeLeaves)
            (databaseKit (flatDatabase threeLeaves) (fun _ _ => 0)
              (fun (_ : Unit) _ => true))) := by
  have hkeyer : (((StdMap.empty.set 0 (XLink.link 0)).set 10 (.link 2)).set 12 (.link 1)).lookup 0
      = some (XLink.link 0) := by
    simp [StdMap.lookup_set]
  obtain ⟨planCol, hmake, hquery, _⟩ := collection_exact (threeLeaves_keyerAt hkeyer)
    (fun _ _ => 0) (fun (_ : Unit) _ => true) (fun plink => plink == 11) false [10, 11, 12]
    (by decide) (fun plink => .link (if plink = 10 then 2 else 1)) (by
      intro p hp hstar
      rcases (by simpa using hp : p = 10 ∨ p = 11 ∨ p = 12) with rfl | rfl | rfl
      · simp [StdMap.lookup_set]
      · simp at hstar
      · simp [StdMap.lookup_set])
  refine ⟨_, planCol, hmake, hquery.mpr ⟨?_, ?_, ?_⟩⟩
  · intro p _
    by_cases hp : p = 10 <;> simp [linkSet, hp]
  · intro p hp q hq hpq
    rcases hp with ⟨hp, hps⟩
    rcases hq with ⟨hq, hqs⟩
    rcases (by simpa using hp : p = 10 ∨ p = 11 ∨ p = 12) with rfl | rfl | rfl <;>
      rcases (by simpa using hq : q = 10 ∨ q = 11 ∨ q = 12) with rfl | rfl | rfl <;>
      simp_all
  · intro hstar
    exact absurd ⟨11, by simp, rfl⟩ hstar

end Inferno.Agents
