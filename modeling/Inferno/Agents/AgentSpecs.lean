/-
  Inferno.Agents.AgentSpecs
  ─────────────────────────
  What each agent's query says of the agent's link and the links below it.

    • `ItemMatch`        — an item of a pattern node against one of an input node,
    • `StandardHolds`    — MMAX with all children at MMAX, or a local match whose items
                           match,
    • `ConjunctionHolds`, `DisjunctionHolds`
                         — all the same link; one the same and the other MMAX,
    • `query_iff`        — a query is satisfied iff its agent's condition holds.
-/
import Inferno.Agents.ClutchedClauses

namespace Inferno.Agents

open Inferno.Common
open Inferno.DB
open Inferno.SYM
open Inferno.SYM.BooleanExpression
open Inferno.Lib

variable {V L A N D : Type} [LinearOrder V] [LinearOrder L]

/-! ## §1. Items. -/

/-- A pattern node's items and an input node's, itemised by the same archetype, are of the
same kinds. -/
def SameKind : PatternItem V → Item L → Prop
  | .singular _, .singular _ => True
  | .sequence _, .sequence _ => True
  | .collection _, .collection _ => True
  | _, _ => False

/-- **An item matches**: a singular child is the pattern's; the children of a sequence or
a collection match as a wildcard and as a map do. -/
def ItemMatch (db : XTreeDatabase L N A) (isStar : V → Bool) (a : V → XLink L) :
    PatternItem V → Item L → Prop
  | .singular none, .singular _ => True
  | .singular (some p), .singular l => a p = .link l ∧ (db.childOf l).isSome
  | .sequence pattern, .sequence xs =>
      Wildcard.Matches a (SequencePlan.wildcard isStar pattern) (xs.map XLink.link)
  | .collection pattern, .collection xs =>
      CollectionMatch a {p | p ∈ pattern ∧ isStar p = false} (∃ p ∈ pattern, isStar p = true)
        (linkSet xs)
  | _, _ => False

section

variable {db : XTreeDatabase L N A} {hypothesisLinks : StdMap V (XLink L)} {isStar : V → Bool}
  {a : V → XLink L} {archetypeNode : A} {keyerPlink : V} {y : L} {node : N}
  {item : PatternItem V} {xItem : Item L} {i : Nat}

/-- **The clauses of an item decide whether it matches**, for an item that is not an empty
sequence. -/
theorem satisfied_item_iff {M : Type} (simpleCompare : Option N → Option N → Int)
    (isLocalMatch : M → Option N → Bool)
    (hkey : hypothesisLinks.lookup keyerPlink = some (.link y)) (hrow : y ∈ db.rows.keys)
    (hchild : db.childOf y = some node) (hsub : db.isSubcategory archetypeNode node = true)
    (hx : (db.itemiseAs archetypeNode node)[i]? = some xItem) (hkind : SameKind item xItem)
    (hne : item ≠ .sequence [])
    (hsingular : ∀ p, item = .singular (some p) → isStar p = false)
    (hone : ∀ pattern, item = .collection pattern → (pattern.filter isStar).length ≤ 1)
    (hlinks : ∀ p ∈ item.links, isStar p = false → hypothesisLinks.lookup p = some (a p)) :
    ItemClauses (Satisfied (predicateEvaluate hypothesisLinks db
        (databaseKit db simpleCompare isLocalMatch))) isStar archetypeNode keyerPlink (item, i)
      ↔ ItemMatch db isStar a item xItem := by
  -- on the kind of the item; the link's item is of the same kind
  cases item with
  | singular plink =>
      cases xItem with
      | sequence xs => cases hkind
      | collection xs => cases hkind
      | singular l =>
          cases plink with
          | none => exact Iff.rfl
          -- one child: the equation, with both sides evaluated
          | some p =>
              have hp := hlinks p (by simp [PatternItem.links]) (hsingular p rfl)
              show (symbolicNormalLinkedQuerySingular archetypeNode (i, p) keyerPlink).Satisfied _
                ↔ a p = .link l ∧ (db.childOf l).isSome
              unfold symbolicNormalLinkedQuerySingular
              rw [satisfied_isEqual]
              simp only [SymbolExpression.evaluate, hkey, hp, Option.map_some, Option.bind_eq_bind,
                Option.bind_some, SymbolExpression.evaluateChild, XTrees.getChildTreePtr, hchild,
                hsub, if_true, hx, SymbolExpression.evalFromItem, SymbolExpression.makeXLink]
              cases db.childOf l with
              | none => simp
              | some n => simp [eq_comm]
  | sequence pattern =>
      cases xItem with
      | singular l => cases hkind
      | collection xs => cases hkind
      | sequence xs =>
          -- a sequence: what the wildcard constraints say
          have hkeyer : KeyerAt db hypothesisLinks archetypeNode i keyerPlink xs :=
            ⟨y, node, hkey, hrow, hchild, hsub, hx⟩
          have hne' : pattern ≠ [] := fun h => hne (by rw [h])
          rw [show ItemMatch db isStar a (.sequence pattern) (.sequence xs) ↔ _ from
            (hkeyer.satisfied_iff_matches simpleCompare isLocalMatch isStar hne' a hlinks).symm]
          exact satisfied_splitAnds _
  | collection pattern =>
      cases xItem with
      | singular l => cases hkind
      | sequence xs => cases hkind
      | collection xs =>
          -- a collection: the plan of the pattern, and its injective maps
          have hkeyer : CollectionKeyerAt db hypothesisLinks archetypeNode i keyerPlink node xs :=
            ⟨⟨y, hkey, hrow, hchild⟩, hsub, hx⟩
          obtain ⟨planCol, hmake⟩ :=
            CollectionPlan.exists_make isStar false i pattern (hone pattern rfl)
          obtain ⟨hreads, hindex⟩ := CollectionPlan.reads_of_make i pattern hmake
          have hmem : ∀ p, p ∈ planCol.nonStars ↔ p ∈ pattern ∧ isStar p = false := by
            intro p
            simp [hreads.nonStars]
          have hquery := hkeyer.satisfied_query_iff simpleCompare isLocalMatch hindex
            (fun p hp => hlinks p ((hmem p).mp hp).1 ((hmem p).mp hp).2)
          have hset : (planCol.nonStars : Set V) = {p | p ∈ pattern ∧ isStar p = false} := by
            ext p
            exact hmem p
          have hstar : planCol.starPlink ≠ none ↔ ∃ p ∈ pattern, isStar p = true := by
            rw [hreads.starPlink, ← Option.isSome_iff_ne_none, List.find?_isSome]
          rw [hset, hstar] at hquery
          rw [show ItemMatch db isStar a (.collection pattern) (.collection xs) ↔ _ from
            hquery.symm]
          show (∀ planCol', CollectionPlan.make isStar false i pattern = some planCol' → _) ↔ _
          rw [hmake]
          simp only [Option.some.injEq, forall_eq']
          exact satisfied_splitAnds _

omit [LinearOrder V] [LinearOrder L] in
/-- A match gives each child a link of the database, and reads the children only. -/
theorem ItemMatch.link (h : ItemMatch db isStar a item xItem) {p : V} (hp : p ∈ item.links)
    (hstar : isStar p = false) : ∃ l ∈ xItem.links, a p = .link l := by
  cases item with
  | singular plink =>
      cases plink with
      | none => cases hp
      | some q =>
          have hpq : p = q := by simpa [PatternItem.links] using hp
          subst hpq
          cases xItem with
          | sequence xs => cases h
          | collection xs => cases h
          | singular l => exact ⟨l, List.mem_singleton_self l, h.1⟩
  | sequence pattern =>
      cases xItem with
      | singular l => cases h
      | collection xs => cases h
      | sequence xs =>
          have hmatches : Wildcard.Matches a (SequencePlan.wildcard isStar pattern)
            (xs.map XLink.link) := h
          obtain ⟨l, hl, hlp⟩ := List.mem_map.mp
            (hmatches.mem p (mem_wildcard.mpr ⟨hp, hstar⟩))
          exact ⟨l, hl, hlp.symm⟩
  | collection pattern =>
      cases xItem with
      | singular l => cases h
      | sequence xs => cases h
      | collection xs =>
          -- a star of a collection stands for what is left, and is no child here
          have hmatch : CollectionMatch a {p | p ∈ pattern ∧ isStar p = false}
            (∃ p ∈ pattern, isStar p = true) (linkSet xs) := h
          obtain ⟨l, hl, hlp⟩ := List.mem_map.mp (hmatch.mapsTo ⟨hp, hstar⟩)
          exact ⟨l, hl, hlp.symm⟩

omit [LinearOrder V] [LinearOrder L] in
theorem ItemMatch.congr {b : V → XLink L} (h : ItemMatch db isStar a item xItem)
    (hsingular : ∀ p, item = .singular (some p) → isStar p = false)
    (hab : ∀ p ∈ item.links, isStar p = false → a p = b p) :
    ItemMatch db isStar b item xItem := by
  cases item with
  -- only items of one kind match, and each reads its own links
  | singular plink =>
      cases xItem with
      | sequence xs => cases plink <;> cases h
      | collection xs => cases plink <;> cases h
      | singular l =>
          cases plink with
          | none => trivial
          | some p =>
              have hp := hab p (by simp [PatternItem.links]) (hsingular p rfl)
              exact ⟨hp.symm.trans h.1, h.2⟩
  | sequence pattern =>
      cases xItem with
      | singular l => cases h
      | collection xs => cases h
      | sequence xs =>
          have hmatches : Wildcard.Matches a (SequencePlan.wildcard isStar pattern)
            (xs.map XLink.link) := h
          exact hmatches.congr (fun p hp => hab p (mem_wildcard.mp hp).1 (mem_wildcard.mp hp).2)
  | collection pattern =>
      cases xItem with
      | singular l => cases h
      | sequence xs => cases h
      | collection xs =>
          have hmatch : CollectionMatch a {p | p ∈ pattern ∧ isStar p = false}
            (∃ p ∈ pattern, isStar p = true) (linkSet xs) := h
          have heq : Set.EqOn a b {p | p ∈ pattern ∧ isStar p = false} :=
            fun p hp => hab p hp.1 hp.2
          exact ⟨hmatch.mapsTo.congr heq, hmatch.injOn.congr heq,
            fun hstar => (hmatch.surjOn hstar).congr heq⟩

end

/-! ## §2. The conditions. -/

/-- MMAX, or a link of the database. -/
def InDomain (db : XTreeDatabase L N A) (x : XLink L) : Prop :=
  x = .MMAX ∨ ∃ y ∈ db.rows.keys, x = .link y

/-- The archetype and the pattern node are of one class, so that an archetype itemises an
input node into the kinds of item of the pattern node; and `MMAXNodeType` has no members. -/
structure PatternTree.Typed (T : PatternTree V A D) (db : XTreeDatabase L N A) : Prop where
  items : ∀ v patternNode items, T.childAgent v = .standard patternNode items → ∀ node,
    db.isSubcategory patternNode.archetypeNode node = true →
      List.Forall₂ SameKind items (db.itemiseAs patternNode.archetypeNode node)
  mmax : db.itemise db.mmaxNode = []

namespace PatternTree

variable [DecidableEq A] (T : PatternTree V A D) (db : XTreeDatabase L N A)
  (isLocalMatchCovariant : D → N → Bool)

/-- A link's node is in the category that the agent at `v` is restricted to. -/
def Restricts (v : V) (x : XLink L) : Prop :=
  ∀ archetypeNode ∈ T.restriction v,
    (db.getChildTreePtr x).any (db.isSubcategory archetypeNode) = true

/-- A standard agent's node is matched by the node at a link, item by item. -/
def NodeMatch (a : V → XLink L) (patternNode : PatternNode A D) (items : List (PatternItem V))
    (x : XLink L) : Prop :=
  ∃ y ∈ db.rows.keys, ∃ node, x = .link y ∧ db.childOf y = some node
    ∧ isLocalMatch db isLocalMatchCovariant patternNode (some node) = true
    ∧ List.Forall₂ (ItemMatch db T.isStar a) items (db.itemiseAs patternNode.archetypeNode node)

/-- **A standard agent**: it and its children are MMAX, or its node matches. -/
def StandardHolds (a : V → XLink L) (v : V) (patternNode : PatternNode A D)
    (items : List (PatternItem V)) : Prop :=
  (a v = .MMAX ∧ ∀ c ∈ T.normalLinks v, a c = .MMAX)
    ∨ T.NodeMatch db isLocalMatchCovariant a patternNode items (a v)

/-- **A conjunction**: the conjuncts have its link. -/
def ConjunctionHolds (a : V → XLink L) (v : V) (conjuncts : List V) : Prop :=
  (∀ c ∈ conjuncts, a c = a v) ∧ (T.Restricts db v (a v) ∨ a v = .MMAX)

/-- **A disjunction**: one disjunct has its link, and the other is MMAX. -/
def DisjunctionHolds (a : V → XLink L) (v : V) (disjuncts : List V) : Prop :=
  (∃ front back, disjuncts = [front, back]
      ∧ ((a front = .MMAX ∧ a back = a v) ∨ (a back = .MMAX ∧ a front = a v)))
    ∧ (T.Restricts db v (a v) ∨ a v = .MMAX)

/-- The condition of the agent at a link. -/
def AgentHolds (a : V → XLink L) (v : V) : Prop :=
  match T.childAgent v with
  | .standard patternNode items => T.StandardHolds db isLocalMatchCovariant a v patternNode items
  | .conjunction _ conjuncts => T.ConjunctionHolds db a v conjuncts
  | .disjunction _ disjuncts => T.DisjunctionHolds db a v disjuncts
  | .star _ => False

end PatternTree

/-! ## §3. Autolocating agents. -/

section

variable [DecidableEq A] {T : PatternTree V A D} {db : XTreeDatabase L N A}
  {hypothesisLinks : StdMap V (XLink L)} {kit : PredicateKit (XLink L) A (PatternNode A D)}
  {a : V → XLink L} {p q v : V}

omit [LinearOrder V] [DecidableEq A] in
theorem evaluate_variable (hp : hypothesisLinks.lookup p = some (a p)) :
    (variableExpr p : SymbolExpression V L A).evaluate hypothesisLinks db
      = some (.uniqueResult (a p)) := by
  simp [SymbolExpression.evaluate, hp]

omit [LinearOrder V] [DecidableEq A] in
theorem evaluate_isEqual {x x' : SymbolExpression V L A} {u w : XLink L}
    (hx : x.evaluate hypothesisLinks db = some (.uniqueResult u))
    (hx' : x'.evaluate hypothesisLinks db = some (.uniqueResult w)) :
    (isEqual x x').evaluate (predicateEvaluate hypothesisLinks db kit) = some (decide (u = w)) := by
  unfold isEqual
  rw [BooleanExpression.evaluate]
  unfold predicateEvaluate
  simp [hx, hx', SymbolicResult.onlyXLink, PredicateOperator.evaluateOn,
    PredicateOperator.evaluateDefined]

variable (db kit) in
omit [LinearOrder V] [DecidableEq A] in
theorem evaluate_isMMAX (hp : hypothesisLinks.lookup p = some (a p)) :
    (PatternTree.isMMAX p : Engine.Expression V L A (PatternNode A D)).evaluate
      (predicateEvaluate hypothesisLinks db kit) = some (decide (a p = .MMAX)) :=
  evaluate_isEqual (evaluate_variable hp) rfl

omit [LinearOrder V] [DecidableEq A] in
/-- The operand is in a category. -/
theorem evaluate_isInCategory {archetypeNode : A} (hp : hypothesisLinks.lookup p = some (a p)) :
    BooleanExpression.evaluate (predicateEvaluate hypothesisLinks db kit)
        (.predicate ⟨.isInCategory archetypeNode, [variableExpr p], rfl⟩)
      = some (kit.isSubcategory archetypeNode (a p)) := by
  rw [BooleanExpression.evaluate]
  unfold predicateEvaluate
  simp [evaluate_variable hp, SymbolicResult.onlyXLink, PredicateOperator.evaluateOn,
    PredicateOperator.evaluateDefined]

theorem satisfied_orOp_pair {P : Type} {pred : P → Option Bool} {e e' : BooleanExpression P}
    {r r' : Bool} (he : e.evaluate pred = some r) (he' : e'.evaluate pred = some r') :
    (orOp [e, e']).Satisfied pred ↔ r = true ∨ r' = true := by
  unfold Satisfied
  simp [BooleanExpression.evaluate, evaluateAll, he, he', maxElement]

theorem evaluate_andOp_pair {P : Type} {pred : P → Option Bool} {e e' : BooleanExpression P}
    {r r' : Bool} (he : e.evaluate pred = some r) (he' : e'.evaluate pred = some r') :
    (andOp [e, e']).evaluate pred = some (r && r') := by
  simp [BooleanExpression.evaluate, evaluateAll, he, he', minElement]

omit [LinearOrder V] in
/-- The pre-restriction applies unless the agent is at MMAX. -/
theorem satisfied_preRestrictionOrMMAX
    (hkit : ∀ c x, kit.isSubcategory c x = (db.getChildTreePtr x).any (db.isSubcategory c))
    (hv : hypothesisLinks.lookup v = some (a v)) :
    (T.preRestrictionOrMMAX v).Satisfied (predicateEvaluate hypothesisLinks db kit)
      ↔ T.Restricts db v (a v) ∨ a v = .MMAX := by
  unfold PatternTree.preRestrictionOrMMAX PatternTree.symbolicPreRestriction PatternTree.Restricts
  cases T.restriction v with
  | none =>
      show (BooleanExpression.constant true).Satisfied _ ↔ _
      simp
  | some archetypeNode =>
      show (orOp [_, PatternTree.isMMAX v]).Satisfied _ ↔ _
      rw [satisfied_orOp_pair (evaluate_isInCategory hv) (evaluate_isMMAX _ _ hv), hkit]
      simp

omit [LinearOrder V] in
/-- **The query of a conjunction.** -/
theorem satisfied_autolocating
    (hkit : ∀ c x, kit.isSubcategory c x = (db.getChildTreePtr x).any (db.isSubcategory c))
    {conjuncts : List V} (hv : hypothesisLinks.lookup v = some (a v))
    (hlinks : ∀ c ∈ conjuncts, hypothesisLinks.lookup c = some (a c)) :
    (T.symbolicNormalLinkedQueryAutolocating conjuncts v).Satisfied
        (predicateEvaluate hypothesisLinks db kit)
      ↔ T.ConjunctionHolds db a v conjuncts := by
  unfold PatternTree.symbolicNormalLinkedQueryAutolocating PatternTree.ConjunctionHolds
  simp only [satisfied_and, satisfied_andAll, satisfied_constant, true_and, and_true,
    List.forall_mem_map, satisfied_preRestrictionOrMMAX hkit hv]
  refine and_congr_left' (forall₂_congr (fun c hc => ?_))
  unfold Satisfied
  rw [evaluate_isEqual (evaluate_variable hv) (evaluate_variable (hlinks c hc)), Option.some.injEq,
    decide_eq_true_eq]
  exact eq_comm

omit [LinearOrder V] in
/-- **The query of a disjunction.** -/
theorem satisfied_disjunction
    (hkit : ∀ c x, kit.isSubcategory c x = (db.getChildTreePtr x).any (db.isSubcategory c))
    {disjuncts : List V} (hv : hypothesisLinks.lookup v = some (a v))
    (hlinks : ∀ c ∈ disjuncts, hypothesisLinks.lookup c = some (a c)) :
    (∃ e, T.symbolicNormalLinkedQueryDisjunction disjuncts v = some e
        ∧ e.Satisfied (predicateEvaluate hypothesisLinks db kit))
      ↔ T.DisjunctionHolds db a v disjuncts := by
  unfold PatternTree.symbolicNormalLinkedQueryDisjunction PatternTree.DisjunctionHolds
  match disjuncts, hlinks with
  | [], _ => simp
  | [_], _ => simp
  | _ :: _ :: _ :: _, _ => simp
  | [front, back], hlinks =>
      have hfront := hlinks front List.mem_cons_self
      have hback := hlinks back (List.mem_cons_of_mem _ List.mem_cons_self)
      have hleft := evaluate_andOp_pair (evaluate_isMMAX db kit hfront)
        (evaluate_isEqual (evaluate_variable hback) (evaluate_variable hv))
      have hright := evaluate_andOp_pair (evaluate_isMMAX db kit hback)
        (evaluate_isEqual (evaluate_variable hfront) (evaluate_variable hv))
      simp only [Option.some.injEq, exists_eq_left', satisfied_and,
        satisfied_preRestrictionOrMMAX hkit hv]
      refine and_congr_left' ?_
      show (orOp [andOp [PatternTree.isMMAX front, _],
        andOp [PatternTree.isMMAX back, _]]).Satisfied _
        ↔ _
      rw [satisfied_orOp_pair hleft hright]
      simp

end

/-! ## §4. Standard agents. -/

section

variable {α β : Type} {R S : α → β → Prop} {xs : List α} {ys : List β}

theorem forall₂_getElem? (h : List.Forall₂ R xs ys) : ∀ {i : Nat} {x : α}, xs[i]? = some x →
    ∃ y, ys[i]? = some y ∧ R x y := by
  induction h with
  | nil => intro i x hx; cases hx
  | cons hR _ ih =>
      intro i x hx
      cases i with
      | zero => exact ⟨_, rfl, (Option.some.inj hx) ▸ hR⟩
      | succ i => exact ih (by simpa using hx)

/-- A test of the elements by index, when each is a relation with its partner. -/
theorem forall_zipIdx_iff {Q : α × Nat → Prop} (hR : List.Forall₂ R xs ys)
    (h : ∀ (i : Nat) x y, xs[i]? = some x → ys[i]? = some y → R x y → (Q (x, i) ↔ S x y)) :
    (∀ e ∈ xs.zipIdx, Q e) ↔ List.Forall₂ S xs ys := by
  constructor
  · intro hQ
    rw [List.forall₂_iff_get]
    refine ⟨hR.length_eq, fun i hi hi' => ?_⟩
    have hx : xs[i]? = some (xs.get ⟨i, hi⟩) := List.getElem?_eq_getElem hi
    have hy : ys[i]? = some (ys.get ⟨i, hi'⟩) := List.getElem?_eq_getElem hi'
    exact (h i _ _ hx hy ((List.forall₂_iff_get.mp hR).2 i hi hi')).mp
      (hQ _ (List.mem_zipIdx_iff_getElem?.mpr hx))
  · intro hS e he
    obtain ⟨x, i⟩ := e
    have hx := List.mem_zipIdx_iff_getElem?.mp he
    obtain ⟨y, hy, hxy⟩ := forall₂_getElem? hR hx
    obtain ⟨y', hy', hSxy⟩ := forall₂_getElem? hS hx
    rw [hy] at hy'
    cases hy'
    exact (h i x y hx hy hxy).mpr hSxy

end

section

variable [DecidableEq A] {T : PatternTree V A D} {db : XTreeDatabase L N A}
  {hypothesisLinks : StdMap V (XLink L)} {a : V → XLink L} {v : V}
  {patternNode : PatternNode A D} {items : List (PatternItem V)} {plan : StandardPlan V}

omit [LinearOrder V] [DecidableEq A] in
/-- The normal links of a standard agent are the non-stars of its items. -/
theorem mem_normalLinks_standard (hagent : T.childAgent v = .standard patternNode items) {p : V} :
    p ∈ T.normalLinks v ↔ (∃ item ∈ items, p ∈ item.links) ∧ T.isStar p = false := by
  unfold PatternTree.normalLinks
  rw [hagent, List.mem_filter]
  simp [Agent.links]

omit [LinearOrder V] [DecidableEq A] in
/-- A singular item is not a star. -/
theorem isStar_singular (hagent : T.childAgent v = .standard patternNode items)
    {item : PatternItem V} (hitem : item ∈ items) (p : V) (h : item = .singular (some p)) :
    T.isStar p = false := by
  have hplace := T.star_item v patternNode items hagent item hitem
  rw [h] at hplace
  exact hplace p rfl

omit [LinearOrder V] [DecidableEq A] in
/-- A collection has one star at most. -/
theorem stars_collection (hagent : T.childAgent v = .standard patternNode items)
    {item : PatternItem V} (hitem : item ∈ items) (pattern : List V)
    (h : item = .collection pattern) : (pattern.filter T.isStar).length ≤ 1 := by
  have hplace := T.star_item v patternNode items hagent item hitem
  rw [h] at hplace
  exact hplace

/-- The links that the agent's query may read. -/
def PatternTree.Known (T : PatternTree V A D) (v p : V) : Prop :=
  p = v ∨ p ∈ T.normalLinks v

omit [LinearOrder L] in
/-- The conjuncts read the agent's link and its normal links. -/
theorem readsOnly_mMed (hagent : T.childAgent v = .standard patternNode items)
    (hplan : StandardPlan.constructPlan T.isStar false items = some plan) :
    ∀ c ∈ splitAnds (T.symbolicNormalLinkedQueryMMed patternNode plan v :
        Engine.Expression V L A (PatternNode A D)), ReadsOnly (T.Known v) c := by
  have hclauses : ClausesHold (ReadsOnly (T.Known v) :
      Engine.Expression V L A (PatternNode A D) → Prop) (T.Known v) patternNode.archetypeNode v :=
    variables_clauses (Or.inl rfl)
  have hunary : ∀ {kind : PredicateKind A (PatternNode A D)} (harity : kind.Arity 1),
      ReadsOnly (T.Known v) (.predicate ⟨kind, [variableExpr v], harity⟩ :
        Engine.Expression V L A (PatternNode A D)) := by
    intro kind harity
    refine ⟨fun p hp => ?_, by simp⟩
    obtain ⟨o, ho, hpo⟩ := mem_variables_predicate.mp hp
    rw [List.mem_singleton.mp ho] at hpo
    exact Or.inl (Finset.mem_singleton.mp hpo)
  rw [forall_splitAnds_mMed hclauses.holds_true hclauses.not_false hplan]
  refine ⟨?_, hunary _, fun item hitem => ?_⟩
  · unfold PatternTree.symbolicPreRestriction
    cases T.restriction v with
    | none => exact hclauses.holds_true
    | some archetypeNode => exact hunary _
  · obtain ⟨item, i⟩ := item
    have hmem := List.mem_of_getElem? (List.mem_zipIdx_iff_getElem?.mp hitem)
    refine hclauses.item (fun p hp hstar => Or.inr ?_) (isStar_singular hagent hmem)
    exact (mem_normalLinks_standard hagent).mpr ⟨⟨item, hmem, hp⟩, hstar⟩

omit [LinearOrder V] [LinearOrder L] [DecidableEq A] in
/-- The MMAX node is of no archetype with items. -/
theorem PatternTree.Typed.mmax_category (htyped : T.Typed db)
    (hagent : T.childAgent v = .standard patternNode items) (hne : items ≠ []) :
    db.isSubcategory patternNode.archetypeNode db.mmaxNode = false := by
  cases hsub : db.isSubcategory patternNode.archetypeNode db.mmaxNode with
  | false => rfl
  | true =>
      have hkinds := htyped.items v patternNode items hagent db.mmaxNode hsub
      have hnil : db.itemiseAs patternNode.archetypeNode db.mmaxNode = [] := by
        refine List.eq_nil_iff_forall_not_mem.mpr (fun item hitem => ?_)
        have hmem := db.itemiseAs_sub _ _ hsub item hitem
        rw [htyped.mmax] at hmem
        exact absurd hmem List.not_mem_nil
      rw [hnil] at hkinds
      cases hkinds
      exact absurd rfl hne

variable (simpleCompare : Option N → Option N → Int) (isLocalMatchCovariant : D → N → Bool)
  (hlinks : ∀ p, T.Known v p → hypothesisLinks.lookup p = some (a p))

include hlinks

/-- `x == mmax_expr` tells whether a link is at MMAX. -/
theorem tells_mMed (hagent : T.childAgent v = .standard patternNode items)
    (hplan : StandardPlan.constructPlan T.isStar false items = some plan) :
    ∀ c ∈ splitAnds (T.symbolicNormalLinkedQueryMMed patternNode plan v),
      PatternTree.mmaxRewriter.Tells
        (predicateEvaluate hypothesisLinks db
          (PatternTree.kit db simpleCompare isLocalMatchCovariant))
        (fun p => decide (a p = .MMAX)) c := by
  intro c hc p hp
  exact evaluate_isMMAX _ _ (hlinks p ((readsOnly_mMed hagent hplan c hc).known p hp))

omit [LinearOrder V] [DecidableEq A] in
/-- The local match of a link. -/
theorem satisfied_localMatchClause :
    (localMatchClause patternNode v).Satisfied (predicateEvaluate hypothesisLinks db
        (PatternTree.kit db simpleCompare isLocalMatchCovariant))
      ↔ PatternTree.isLocalMatch db isLocalMatchCovariant patternNode (db.getChildTreePtr (a v))
        = true := by
  unfold localMatchClause
  rw [satisfied_predicate]
  unfold predicateEvaluate
  have hv : (variableExpr v : SymbolExpression V L A).evaluate hypothesisLinks db
      = some (.uniqueResult (a v)) := evaluate_variable (hlinks v (Or.inl rfl))
  simp [hv, SymbolicResult.onlyXLink, PredicateOperator.evaluateOn,
    PredicateOperator.evaluateDefined, PatternTree.kit, databaseKit]

/-- **At MMAX the query is satisfied by children at MMAX.** -/
theorem satisfied_mMed_of_mmax (htyped : T.Typed db)
    (hagent : T.childAgent v = .standard patternNode items)
    (hplan : StandardPlan.constructPlan T.isStar false items = some plan)
    (hmmax : ∀ p, T.Known v p → a p = .MMAX) :
    (PatternTree.mmaxRewriter.applyDistributed
        (T.symbolicNormalLinkedQueryMMed patternNode plan v)).Satisfied
      (predicateEvaluate hypothesisLinks db
        (PatternTree.kit db simpleCompare isLocalMatchCovariant)) := by
  have hlookup : ∀ p, T.Known v p → hypothesisLinks.lookup p = some .MMAX := by
    intro p hp
    rw [hlinks p hp, hmmax p hp]
  -- every clause is switched off, for all its links are at MMAX
  have hv := hlookup v (Or.inl rfl)
  refine ClutchRewriter.satisfied_of_disengaged
    (tells_mMed simpleCompare isLocalMatchCovariant hlinks hagent hplan)
    (fun c hc p hp => ?_) ?_
  · have hknown := (readsOnly_mMed hagent hplan c hc).known p hp
    simpa using hmmax p hknown
  · rw [forall_splitAnds_mMed ClutchRewriter.Idle.constant_true
      ClutchRewriter.not_idle_constant_false hplan]
    have hself : ∀ {kind : PredicateKind A (PatternNode A D)} (harity : kind.Arity 1),
        v ∈ Engine.Expression.variables (.predicate ⟨kind, [variableExpr v], harity⟩ :
          Engine.Expression V L A (PatternNode A D)) := by
      intro kind harity
      exact mem_variables_predicate.mpr
        ⟨_, List.mem_singleton_self _, Finset.mem_singleton_self v⟩
    refine ⟨?_, idle_of_evaluates (hself _) (evaluates_unary hv _ rfl), fun item hitem => ?_⟩
    · unfold PatternTree.symbolicPreRestriction
      cases T.restriction v with
      | none => exact ClutchRewriter.Idle.constant_true
      | some archetypeNode => exact idle_of_evaluates (hself _) (evaluates_unary hv _ rfl)
    · obtain ⟨item, i⟩ := item
      have hmem := List.mem_of_getElem? (List.mem_zipIdx_iff_getElem?.mp hitem)
      -- the keyer and the children are in the categories of a clutched clause
      have hcategory := htyped.mmax_category hagent (List.ne_nil_of_mem hmem)
      have hidle : ClausesHold (PatternTree.mmaxRewriter.Idle (predicateEvaluate hypothesisLinks
          db (PatternTree.kit db simpleCompare isLocalMatchCovariant))) (T.Known v)
          patternNode.archetypeNode v :=
        idle_clauses rfl hcategory hcategory hv hlookup
      refine hidle.item (fun p hp hstar => Or.inr ?_) (isStar_singular hagent hmem)
      exact (mem_normalLinks_standard hagent).mpr ⟨⟨item, hmem, hp⟩, hstar⟩

/-- **A satisfied query has the children at MMAX with their agent.** -/
theorem mmax_iff_of_satisfied (hagent : T.childAgent v = .standard patternNode items)
    (hplan : StandardPlan.constructPlan T.isStar false items = some plan)
    (hsat : (PatternTree.mmaxRewriter.applyDistributed
        (T.symbolicNormalLinkedQueryMMed patternNode plan v)).Satisfied
      (predicateEvaluate hypothesisLinks db
        (PatternTree.kit db simpleCompare isLocalMatchCovariant))) :
    ∀ p, T.Known v p → (a p = .MMAX ↔ a v = .MMAX) := by
  have htogether := ClutchRewriter.together_of_satisfied
    (tells_mMed simpleCompare isLocalMatchCovariant hlinks hagent hplan) hsat
  have hfalse : ¬ PatternTree.mmaxRewriter.Together (fun p => decide (a p = .MMAX))
      (.constant false : Engine.Expression V L A (PatternNode A D)) := fun h => h.notFalse rfl
  rw [forall_splitAnds_mMed ClutchRewriter.Together.constant_true hfalse hplan] at htogether
  intro p hp
  rcases hp with rfl | hp
  · exact Iff.rfl
  · obtain ⟨⟨item, hitem, hpitem⟩, hstar⟩ := (mem_normalLinks_standard hagent).mp hp
    obtain ⟨i, hi⟩ := List.mem_iff_getElem?.mp hitem
    obtain ⟨c, hc, hpc, hvc⟩ := ItemClauses.link
      (htogether.2.2 (item, i) (List.mem_zipIdx_iff_getElem?.mpr hi))
      ClutchRewriter.Together.constant_true hfalse (stars_collection hagent hitem) hpitem hstar
    have hsame := hc.same p hpc v hvc
    simpa using hsame

/-- The conjunction, of a link of the database whose node is of the archetype. -/
theorem satisfied_mMed_iff (htyped : T.Typed db)
    (hagent : T.childAgent v = .standard patternNode items)
    (hplan : StandardPlan.constructPlan T.isStar false items = some plan)
    (hne : .sequence [] ∉ items) {y : L} {node : N} (hv : a v = .link y)
    (hrow : y ∈ db.rows.keys) (hchild : db.childOf y = some node) :
    (T.symbolicNormalLinkedQueryMMed patternNode plan v).Satisfied
        (predicateEvaluate hypothesisLinks db
          (PatternTree.kit db simpleCompare isLocalMatchCovariant))
      ↔ PatternTree.isLocalMatch db isLocalMatchCovariant patternNode (some node) = true
        ∧ List.Forall₂ (ItemMatch db T.isStar a) items
            (db.itemiseAs patternNode.archetypeNode node) := by
  have hnode : db.getChildTreePtr (a v) = some node := by
    rw [hv]
    exact hchild
  -- the pre-restriction and the local match first, then the items in turn
  rw [← satisfied_splitAnds, forall_splitAnds_mMed (by simp) (by simp) hplan,
    satisfied_localMatchClause simpleCompare isLocalMatchCovariant hlinks, hnode]
  by_cases hlocal : PatternTree.isLocalMatch db isLocalMatchCovariant patternNode (some node) = true
  · have hsub : db.isSubcategory patternNode.archetypeNode node = true := by
      by_contra hsub
      rw [Bool.not_eq_true] at hsub
      simp [PatternTree.isLocalMatch, hsub] at hlocal
    have hkey : hypothesisLinks.lookup v = some (.link y) := by
      rw [hlinks v (Or.inl rfl), hv]
    -- the category is that of the local match
    have hpre : (T.symbolicPreRestriction v).Satisfied (predicateEvaluate hypothesisLinks db
        (PatternTree.kit db simpleCompare isLocalMatchCovariant)) := by
      unfold PatternTree.symbolicPreRestriction
      cases hrestriction : T.restriction v with
      | none => simp
      | some archetypeNode =>
          have harchetype : archetypeNode = patternNode.archetypeNode := by
            unfold PatternTree.restriction at hrestriction
            rw [hagent] at hrestriction
            exact (Option.some.inj (Option.filter_eq_some_iff.mp hrestriction).1).symm
          unfold Satisfied
          rw [evaluate_isInCategory (hlinks v (Or.inl rfl)), harchetype]
          show some ((db.getChildTreePtr (a v)).any (db.isSubcategory patternNode.archetypeNode))
            = some true
          rw [hnode]
          simp [hsub]
    rw [and_iff_right hpre, and_iff_right hlocal, and_iff_right hlocal]
    refine forall_zipIdx_iff (htyped.items v patternNode items hagent node hsub) ?_
    intro i item xItem hitem hx hkind
    have hmem := List.mem_of_getElem? hitem
    refine satisfied_item_iff simpleCompare _ hkey hrow hchild hsub hx hkind
      (fun h => hne (h ▸ hmem)) (isStar_singular hagent hmem) (stars_collection hagent hmem) ?_
    intro p hp hstar
    exact hlinks p (Or.inr ((mem_normalLinks_standard hagent).mpr ⟨⟨item, hmem, hp⟩, hstar⟩))
  · -- no local match, on either side
    constructor
    · intro h
      exact absurd h.2.1 hlocal
    · intro h
      exact absurd h.1 hlocal

/-- Engaged, the clutched query is the conjunction. -/
theorem satisfied_clutched_iff (hagent : T.childAgent v = .standard patternNode items)
    (hplan : StandardPlan.constructPlan T.isStar false items = some plan)
    (hengaged : ∀ p, T.Known v p → a p ≠ .MMAX) :
    (PatternTree.mmaxRewriter.applyDistributed
        (T.symbolicNormalLinkedQueryMMed patternNode plan v)).Satisfied
        (predicateEvaluate hypothesisLinks db
          (PatternTree.kit db simpleCompare isLocalMatchCovariant))
      ↔ (T.symbolicNormalLinkedQueryMMed patternNode plan v).Satisfied
          (predicateEvaluate hypothesisLinks db
            (PatternTree.kit db simpleCompare isLocalMatchCovariant)) := by
  refine ClutchRewriter.satisfied_of_engaged
    (tells_mMed simpleCompare isLocalMatchCovariant hlinks hagent hplan) (fun c hc p hp => ?_)
  have hknown := (readsOnly_mMed hagent hplan c hc).known p hp
  simpa using hengaged p hknown

/-- **The query of a standard agent.** -/
theorem satisfied_standard_iff (htyped : T.Typed db)
    (hagent : T.childAgent v = .standard patternNode items)
    (hplan : StandardPlan.constructPlan T.isStar false items = some plan)
    (hne : .sequence [] ∉ items) (hdom : InDomain db (a v)) :
    (PatternTree.mmaxRewriter.applyDistributed
        (T.symbolicNormalLinkedQueryMMed patternNode plan v)).Satisfied
        (predicateEvaluate hypothesisLinks db
          (PatternTree.kit db simpleCompare isLocalMatchCovariant))
      ↔ T.StandardHolds db isLocalMatchCovariant a v patternNode items := by
  constructor
  · intro hsat
    -- at MMAX, the keyer takes the children along
    have hmmax := mmax_iff_of_satisfied simpleCompare isLocalMatchCovariant hlinks hagent hplan hsat
    rcases hdom with hv | ⟨y, hrow, hv⟩
    · exact Or.inl ⟨hv, fun c hc => (hmmax c (Or.inr hc)).mpr hv⟩
    · obtain ⟨node, hchild⟩ := Option.isSome_iff_exists.mp (db.row_nonnull y hrow)
      -- at a link, none is at MMAX, so that the clutch does nothing
      have hnot : ∀ p, T.Known v p → a p ≠ .MMAX := by
        intro p hp hpm
        rw [(hmmax p hp).mp hpm] at hv
        cases hv
      have hmatch := (satisfied_mMed_iff simpleCompare isLocalMatchCovariant hlinks htyped hagent
        hplan hne hv hrow hchild).mp
        ((satisfied_clutched_iff simpleCompare isLocalMatchCovariant hlinks hagent hplan hnot).mp
          hsat)
      exact Or.inr ⟨y, hrow, node, hv, hchild, hmatch⟩
  · intro h
    rcases h with ⟨hv, hchildren⟩ | ⟨y, hrow, node, hv, hchild, hmatch⟩
    · -- all at MMAX: every clause is idle
      refine satisfied_mMed_of_mmax simpleCompare isLocalMatchCovariant hlinks htyped hagent hplan ?_
      intro p hp
      rcases hp with rfl | hp
      · exact hv
      · exact hchildren p hp
    · have hnot : ∀ p, T.Known v p → a p ≠ .MMAX := by
        intro p hp
        rcases hp with rfl | hp
        · rw [hv]
          simp
        · -- a child at a link of the database is not at MMAX
          obtain ⟨⟨item, hitem, hpitem⟩, hstar⟩ := (mem_normalLinks_standard hagent).mp hp
          obtain ⟨i, hi⟩ := List.mem_iff_getElem?.mp hitem
          obtain ⟨xItem, _, hitemMatch⟩ := forall₂_getElem? hmatch.2 hi
          obtain ⟨l, _, hl⟩ := hitemMatch.link hpitem hstar
          rw [hl]
          simp
      rw [satisfied_clutched_iff simpleCompare isLocalMatchCovariant hlinks hagent hplan hnot,
        satisfied_mMed_iff simpleCompare isLocalMatchCovariant hlinks htyped hagent hplan hne hv
          hrow hchild]
      exact hmatch

end

/-! ## §5. Any agent. -/

/-- No pattern sequence is empty. -/
def PatternTree.NoEmptySequence (T : PatternTree V A D) : Prop :=
  ∀ v patternNode items, T.childAgent v = .standard patternNode items → .sequence [] ∉ items

/-- **An agent's query is satisfied iff its condition holds**, at a link of the database or
at MMAX. -/
theorem query_iff [DecidableEq A] {T : PatternTree V A D} {db : XTreeDatabase L N A}
    {hypothesisLinks : StdMap V (XLink L)} {a : V → XLink L} {v : V} (htyped : T.Typed db)
    (hne : T.NoEmptySequence) (simpleCompare : Option N → Option N → Int)
    (isLocalMatchCovariant : D → N → Bool) (hstar : T.isStar v = false)
    (hlinks : ∀ p, T.Known v p → hypothesisLinks.lookup p = some (a p))
    (hdom : InDomain db (a v)) :
    (∃ e, T.symbolicNormalLinkedQuery v = some e
        ∧ e.Satisfied (predicateEvaluate hypothesisLinks db
            (PatternTree.kit db simpleCompare isLocalMatchCovariant)))
      ↔ T.AgentHolds db isLocalMatchCovariant a v := by
  have hv := hlinks v (Or.inl rfl)
  -- the children of an autolocating agent are not stars
  have hchildren : (T.childAgent v).isFixedType = false → ∀ c ∈ (T.childAgent v).links,
      hypothesisLinks.lookup c = some (a c) := by
    intro hfixed c hc
    refine hlinks c (Or.inr (List.mem_filter.mpr ⟨hc, ?_⟩))
    cases hcstar : T.isStar c with
    | false => rfl
    | true =>
        have hplace := (T.star_place c hcstar).2 v hc
        rw [hfixed] at hplace
        cases hplace
  unfold PatternTree.symbolicNormalLinkedQuery PatternTree.AgentHolds
  cases hagent : T.childAgent v with
  -- a standard agent: its plan can be made, and the query is what the plan says
  | standard patternNode items =>
      obtain ⟨plan, hplan⟩ := StandardPlan.exists_constructPlan T.isStar false items
        (fun pattern hpattern => stars_collection hagent hpattern pattern rfl)
      have hquery := satisfied_standard_iff simpleCompare isLocalMatchCovariant hlinks htyped hagent
        hplan (hne v patternNode items hagent) hdom
      refine Iff.trans ?_ hquery
      simp [hplan]
  -- the others look at their children alone
  | conjunction preRestriction conjuncts =>
      rw [hagent] at hchildren
      show (∃ e, some (T.symbolicNormalLinkedQueryAutolocating conjuncts v) = some e ∧ _) ↔ _
      simp only [Option.some.injEq, exists_eq_left']
      exact satisfied_autolocating (fun _ _ => rfl) hv (hchildren rfl)
  | disjunction preRestriction disjuncts =>
      rw [hagent] at hchildren
      exact satisfied_disjunction (fun _ _ => rfl) hv (hchildren rfl)
  | star preRestriction =>
      unfold PatternTree.isStar at hstar
      rw [hagent] at hstar
      cases hstar

end Inferno.Agents
