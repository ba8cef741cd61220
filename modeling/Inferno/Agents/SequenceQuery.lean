/-
  Inferno.Agents.SequenceQuery
  ────────────────────────────
  **SEQUENCE PATTERNS AND THE WILDCARD LANGUAGE.**

  `StandardAgent::SymbolicNormalLinkedQuerySequence` turns the plan of a pattern
  sequence into a conjunction of constraints on the non-star children.

    • `symbolicNormalLinkedQuerySequence` — the conjunction as the code builds it,
    • `frontExpr`, `successorExpr`, …     — what each operator in it evaluates to on a
                                            link of the keyer's sequence,
    • `sequence_query_exact`              — the conjunction decides the match, for
                                            exactly the patterns with an element and
                                            the empty sequences,
    • `empty_pattern_matches_any`         — an empty pattern against a sequence of one.
-/
import Inferno.Agents.SequencePlan
import Inferno.SYM.SymbolExpression
import Mathlib

namespace Inferno.Agents

open Inferno.Common
open Inferno.DB
open Inferno.SYM
open Inferno.Lib

variable {V L A N M : Type} [LinearOrder V] [LinearOrder L]

/-! ## §1. The conjunction. -/

/-- `SymbolVariable`. -/
abbrev variableExpr (plink : V) : SymbolExpression V L A := .symbolVariable plink

/-- `expr &= (candidate_seq_front_expr == keyer_child_seq_front_expr)`. -/
def containerClause (archetypeNode : A) (itemiseIndex : Nat) (keyerPlink candidatePlink : V) :
    BooleanExpression (PredicateOperator (SymbolExpression V L A) A M) :=
  isEqual (.xTreeDbToSymbol .myContainerFront (variableExpr candidatePlink))
    (.childToSymbol .childSequenceFront archetypeNode itemiseIndex (variableExpr keyerPlink))

/-- `expr &= ( candidate_expr == candidate_seq_front_expr )`. -/
def frontClause (candidatePlink : V) :
    BooleanExpression (PredicateOperator (SymbolExpression V L A) A M) :=
  isEqual (variableExpr candidatePlink)
    (.xTreeDbToSymbol .myContainerFront (variableExpr candidatePlink))

/-- `expr &= ( candidate_expr == candidate_seq_back_expr )`. -/
def backClause (candidatePlink : V) :
    BooleanExpression (PredicateOperator (SymbolExpression V L A) A M) :=
  isEqual (variableExpr candidatePlink)
    (.xTreeDbToSymbol .myContainerBack (variableExpr candidatePlink))

/-- `expr &= ( candidate_b_expr == candidate_a_successor_expr )`, and that it is not
`OffEnd`. -/
def adjacentClauses (p : V × V) :
    List (BooleanExpression (PredicateOperator (SymbolExpression V L A) A M)) :=
  [isEqual (variableExpr p.2) (.xTreeDbToSymbol .mySequenceSuccessor (variableExpr p.1)),
    isNotEqual (variableExpr p.2) (.symbolConstant .OffEnd)]

/-- `expr &= ( candidate_a_expr < candidate_b_expr )`. -/
def gappedClause (p : V × V) :
    BooleanExpression (PredicateOperator (SymbolExpression V L A) A M) :=
  isLess (variableExpr p.1) (variableExpr p.2)

/-- A `set` of pairs, in iterator order. -/
def pairsInOrder (s : Finset (V × V)) : List (V × V) :=
  (inOrder (s.image toLex)).map ofLex

/-- `SymbolicNormalLinkedQuerySequence`. -/
def symbolicNormalLinkedQuerySequence (archetypeNode : A) (planSeq : SequencePlan V)
    (keyerPlink : V) : BooleanExpression (PredicateOperator (SymbolExpression V L A) A M) :=
  let expr := BooleanExpression.constant true
  let expr := expr.andAll ((inOrder planSeq.nonStars).map
    (containerClause archetypeNode planSeq.itemiseIndex keyerPlink))
  let expr := expr.andAll (planSeq.nonStarAtFront.toList.map frontClause)
  let expr := expr.andAll (planSeq.nonStarAtBack.toList.map backClause)
  let expr := expr.andAll ((pairsInOrder planSeq.adjacentNonStars).flatMap adjacentClauses)
  expr.andAll ((pairsInOrder planSeq.gappedNonStars).map gappedClause)

theorem mem_pairsInOrder {s : Finset (V × V)} {p : V × V} : p ∈ pairsInOrder s ↔ p ∈ s := by
  obtain ⟨a, b⟩ := p
  simp [pairsInOrder]

omit [LinearOrder L] in
/-- The conjunction holds iff the plan's sets and ends do. -/
theorem satisfied_query_iff {pred : PredicateOperator (SymbolExpression V L A) A M → Option Bool}
    {archetypeNode : A} {planSeq : SequencePlan V} {keyerPlink : V} :
    (symbolicNormalLinkedQuerySequence archetypeNode planSeq keyerPlink).Satisfied pred
      ↔ SequencePlan.Holds
          (fun p => (containerClause archetypeNode planSeq.itemiseIndex keyerPlink p).Satisfied
            pred)
          (fun p => (frontClause p).Satisfied pred) (fun p => (backClause p).Satisfied pred)
          (fun p q => ∀ c ∈ adjacentClauses (p, q), c.Satisfied pred)
          (fun p q => (gappedClause (p, q)).Satisfied pred) planSeq := by
  unfold symbolicNormalLinkedQuerySequence
  simp only [BooleanExpression.satisfied_andAll, BooleanExpression.satisfied_constant, true_and,
    List.forall_mem_map, List.mem_flatMap, forall_exists_index, and_imp, mem_inOrder,
    mem_pairsInOrder, Option.mem_toList]
  constructor
  · intro h
    exact ⟨⟨h.1.1.1.1, fun pq hpq c hc => h.1.2 c pq hpq hc, h.2⟩, h.1.1.1.2, h.1.1.2⟩
  · intro h
    exact ⟨⟨⟨⟨h.isIn, h.front⟩, h.back⟩, fun c pq hpq hc => h.adjacent pq hpq c hc⟩, h.gapped⟩

/-! ## §2. The operators on a link of the keyer's sequence. -/

/-- The keyer is assigned a link of the database, whose node the archetype itemises
with the sequence `xs` at the pattern's item. -/
structure KeyerAt (db : XTreeDatabase L N A) (hypothesisLinks : StdMap V (XLink L))
    (archetypeNode : A) (itemiseIndex : Nat) (keyerPlink : V) (xs : List L) : Prop where
  exists_link : ∃ y node, hypothesisLinks.lookup keyerPlink = some (.link y) ∧ y ∈ db.rows.keys
    ∧ db.childOf y = some node ∧ db.isSubcategory archetypeNode node = true
    ∧ (db.itemiseAs archetypeNode node)[itemiseIndex]? = some (.sequence xs)

section

variable {db : XTreeDatabase L N A} {hypothesisLinks : StdMap V (XLink L)} {archetypeNode : A}
  {itemiseIndex : Nat} {keyerPlink : V} {xs : List L}

omit [LinearOrder V] [LinearOrder L] in
/-- The sequence is one of the node's own. -/
theorem KeyerAt.sequenceAt
    (h : KeyerAt db hypothesisLinks archetypeNode itemiseIndex keyerPlink xs) :
    ∃ y node i, db.SequenceAt y node i xs := by
  obtain ⟨y, node, _, hrow, hchild, hsub, hitem⟩ := h.exists_link
  have hmem := db.itemiseAs_sub archetypeNode node hsub _ (List.mem_of_getElem? hitem)
  obtain ⟨i, hi⟩ := List.mem_iff_getElem?.mp hmem
  exact ⟨y, node, i, hrow, hchild, List.mem_zipIdx_iff_getElem?.mpr hi⟩

omit [LinearOrder V] in
/-- `ChildSequenceFront` of the keyer. -/
theorem KeyerAt.evaluate_front
    (h : KeyerAt db hypothesisLinks archetypeNode itemiseIndex keyerPlink xs) :
    SymbolExpression.evaluate hypothesisLinks db
        (.childToSymbol .childSequenceFront archetypeNode itemiseIndex (variableExpr keyerPlink))
      = some (.uniqueResult ((xs.head?.map XLink.link).getD .OffEnd)) := by
  obtain ⟨y, node, i, hs⟩ := h.sequenceAt
  obtain ⟨z, node', hkey, _, hchild, hsub, hitem⟩ := h.exists_link
  have hfrom : SymbolExpression.evalFromItem db .childSequenceFront (.sequence xs)
      = some (.uniqueResult ((xs.head?.map XLink.link).getD .OffEnd)) := by
    cases hx : xs.head? with
    | none => simp [SymbolExpression.evalFromItem, hx]
    | some f =>
        have hplace := hs.place (k := 0) (x := f) (by rw [← List.head?_eq_getElem?, hx])
        obtain ⟨n, hn⟩ := Option.isSome_iff_exists.mp hplace.nonnull
        simp [SymbolExpression.evalFromItem, hx, SymbolExpression.makeXLink, hn]
  simp only [SymbolExpression.evaluate, hkey, Option.map_some, Option.bind_eq_bind,
    Option.bind_some, SymbolExpression.evaluateChild,
    XTrees.getChildTreePtr, hchild, hsub, if_true, hitem, hfrom]

variable {y : L} {node : N} {i : Nat} {kit : PredicateKit (XLink L) A M} {p q : V} {x x' : L}

omit [LinearOrder V] in
/-- A link-table operator on a candidate that has a row. -/
theorem evaluate_fromRow (kind : XTreeDbKind) {row : Row L N} {r : XLink L}
    (hp : hypothesisLinks.lookup p = some (.link x)) (hrow : db.rows.lookup x = some row)
    (hr : SymbolExpression.evalXLinkFromRow db (.link x) row kind = some (some r)) :
    SymbolExpression.evaluate hypothesisLinks db (.xTreeDbToSymbol kind (variableExpr p))
      = some (.uniqueResult r) := by
  simp only [SymbolExpression.evaluate, hp, Option.map_some, Option.bind_eq_bind,
    Option.bind_some, SymbolExpression.evaluateXTreeDb, XTreeDatabase.getRow, hrow, hr]

omit [LinearOrder V] in
/-- The front of a candidate's container, for every candidate. -/
theorem evaluate_containerFront {a : XLink L} (hp : hypothesisLinks.lookup p = some a)
    {r : XLink L} :
    SymbolExpression.evaluate hypothesisLinks db
        (.xTreeDbToSymbol .myContainerFront (variableExpr p)) = some (.uniqueResult r)
      ↔ ∃ x row, a = .link x ∧ db.rows.lookup x = some row ∧ row.containerFront = some r := by
  cases a with
  | link x =>
      cases hrow : db.rows.lookup x with
      | none =>
          simp [SymbolExpression.evaluate, hp, SymbolExpression.evaluateXTreeDb,
            XTreeDatabase.getRow, hrow]
      | some row =>
          cases hfront : row.containerFront <;>
          simp [SymbolExpression.evaluate, hp, SymbolExpression.evaluateXTreeDb,
            XTreeDatabase.getRow, hrow, SymbolExpression.evalXLinkFromRow, hfront]
  | MMAX =>
      simp [SymbolExpression.evaluate, hp, SymbolExpression.evaluateXTreeDb, XTreeDatabase.getRow]
  | OffEnd =>
      simp [SymbolExpression.evaluate, hp, SymbolExpression.evaluateXTreeDb, XTreeDatabase.getRow]

omit [LinearOrder V] in
/-- **The container clause**: the candidate is a link of the keyer's sequence. -/
theorem KeyerAt.satisfied_containerClause
    (h : KeyerAt db hypothesisLinks archetypeNode itemiseIndex keyerPlink xs) {a : XLink L}
    (hp : hypothesisLinks.lookup p = some a) :
    (containerClause archetypeNode itemiseIndex keyerPlink p).Satisfied
        (predicateEvaluate hypothesisLinks db kit) ↔ a ∈ xs.map XLink.link := by
  obtain ⟨y, node, i, hs⟩ := h.sequenceAt
  unfold containerClause
  simp only [satisfied_isEqual, h.evaluate_front, evaluate_containerFront hp, Option.some.injEq,
    SymbolicResult.uniqueResult.injEq, List.mem_map]
  cases hx : xs.head? with
  | none =>
      -- the keyer's front is OffEnd, which no link's container has
      have hnil : xs = [] := List.head?_eq_none_iff.mp hx
      subst hnil
      simp only [List.not_mem_nil, false_and, exists_false, iff_false, not_exists, not_and]
      intro r hfront hoff
      obtain ⟨z, row, _, hrow, hfr⟩ := hfront
      exact XTreeDatabase.containerFront_ne_offEnd hrow (hfr.trans (congrArg some hoff.symm))
  | some f =>
      constructor
      · intro hfront
        obtain ⟨r, ⟨z, row, ha, hrow, hfr⟩, hr⟩ := hfront
        refine ⟨z, (hs.containerFront_iff hx).mp ⟨row, hrow, ?_⟩, ha.symm⟩
        rw [hfr, ← hr]
        rfl
      · intro hmem
        obtain ⟨z, hz, ha⟩ := hmem
        obtain ⟨row, hrow, hfr⟩ := (hs.containerFront_iff hx).mpr hz
        exact ⟨.link f, ⟨z, row, ha.symm, hrow, hfr⟩, rfl⟩

omit [LinearOrder V] in
theorem satisfied_frontClause (hs : db.SequenceAt y node i xs)
    (hp : hypothesisLinks.lookup p = some (.link x)) {k : Nat} (hk : xs[k]? = some x) :
    (frontClause p).Satisfied (predicateEvaluate hypothesisLinks db kit) ↔ k = 0 := by
  obtain ⟨row, hrow, _, _, _, hfront, _⟩ := hs.row_at hk
  have hlt := (List.getElem?_eq_some_iff.mp hk).1
  obtain ⟨f, hf⟩ : ∃ f, xs[0]? = some f := Option.isSome_iff_exists.mp (by simp; omega)
  have heval := evaluate_fromRow (r := .link f) .myContainerFront hp hrow
    (by simp [SymbolExpression.evalXLinkFromRow, hfront, List.head?_eq_getElem?, hf])
  unfold frontClause
  rw [satisfied_isEqual, heval]
  simp only [SymbolExpression.evaluate, hp, Option.map_some, Option.some.injEq,
    SymbolicResult.uniqueResult.injEq, exists_eq_left', XLink.link.injEq]
  constructor
  · intro hxf
    subst hxf
    exact (List.getElem?_inj hlt hs.nodup).mp (hk.trans hf.symm)
  · intro hk0
    subst hk0
    exact Option.some.inj (hf.symm.trans hk)

omit [LinearOrder V] in
theorem satisfied_backClause (hs : db.SequenceAt y node i xs)
    (hp : hypothesisLinks.lookup p = some (.link x)) {k : Nat} (hk : xs[k]? = some x) :
    (backClause p).Satisfied (predicateEvaluate hypothesisLinks db kit) ↔ k + 1 = xs.length := by
  obtain ⟨row, hrow, _, _, _, _, hback, _⟩ := hs.row_at hk
  have hlt := (List.getElem?_eq_some_iff.mp hk).1
  obtain ⟨b, hb⟩ : ∃ b, xs[xs.length - 1]? = some b :=
    Option.isSome_iff_exists.mp (by simp; omega)
  have heval := evaluate_fromRow (r := .link b) .myContainerBack hp hrow
    (by simp [SymbolExpression.evalXLinkFromRow, hback, List.getLast?_eq_getElem?, hb])
  unfold backClause
  rw [satisfied_isEqual, heval]
  simp only [SymbolExpression.evaluate, hp, Option.map_some, Option.some.injEq,
    SymbolicResult.uniqueResult.injEq, exists_eq_left', XLink.link.injEq]
  constructor
  · intro hxb
    subst hxb
    have hkb := (List.getElem?_inj hlt hs.nodup).mp (hk.trans hb.symm)
    omega
  · intro hlast
    have hkb : k = xs.length - 1 := by omega
    subst hkb
    exact Option.some.inj (hb.symm.trans hk)

omit [LinearOrder V] in
theorem satisfied_adjacentClauses (hs : db.SequenceAt y node i xs)
    (hp : hypothesisLinks.lookup p = some (.link x))
    (hq : hypothesisLinks.lookup q = some (.link x')) {k k' : Nat} (hk : xs[k]? = some x)
    (hk' : xs[k']? = some x') :
    (∀ c ∈ adjacentClauses (p, q), c.Satisfied (predicateEvaluate hypothesisLinks db kit))
      ↔ k' = k + 1 := by
  obtain ⟨row, hrow, _, _, _, _, _, hsucc⟩ := hs.row_at hk
  have hlt' := (List.getElem?_eq_some_iff.mp hk').1
  have heval := evaluate_fromRow .mySequenceSuccessor hp hrow
    (show some row.sequenceSuccessor = _ from congrArg some hsucc)
  have hvar : SymbolExpression.evaluate hypothesisLinks db (variableExpr q)
      = some (.uniqueResult (.link x')) := by
    simp [SymbolExpression.evaluate, hq]
  -- the second clause, that the next one is not off the end, holds of any link
  have hoff : (isNotEqual (variableExpr q) (.symbolConstant .OffEnd)).Satisfied
      (predicateEvaluate hypothesisLinks db kit) := by
    rw [satisfied_isNotEqual hvar rfl]
    simp
  unfold adjacentClauses
  rw [List.forall_mem_cons, List.forall_mem_singleton, and_iff_left hoff, satisfied_isEqual,
    hvar, heval]
  simp only [Option.some.injEq, SymbolicResult.uniqueResult.injEq, exists_eq_left']
  -- the successor in the row is the next of the sequence, which repeats nothing
  constructor
  · intro hnext
    cases hx : xs[k + 1]? with
    | none => simp [hx] at hnext
    | some z =>
        have hzx : z = x' := by simpa [hx] using hnext
        subst hzx
        exact ((List.getElem?_inj hlt' hs.nodup).mp (hk'.trans hx.symm))
  · intro hnext
    subst hnext
    simp [hk']

omit [LinearOrder V] in
theorem satisfied_gappedClause (hs : db.SequenceAt y node i xs)
    (hkit : kit.depthFirst = DepthFirstRelation.compare3Way db)
    (hp : hypothesisLinks.lookup p = some (.link x))
    (hq : hypothesisLinks.lookup q = some (.link x')) {k k' : Nat} (hk : xs[k]? = some x)
    (hk' : xs[k']? = some x') :
    (gappedClause (p, q)).Satisfied (predicateEvaluate hypothesisLinks db kit) ↔ k < k' := by
  have hvar : ∀ {r : V} {z : L}, hypothesisLinks.lookup r = some (.link z) →
      SymbolExpression.evaluate hypothesisLinks db (variableExpr r)
        = some (.uniqueResult (.link z)) := by
    intro r z hr
    simp [SymbolExpression.evaluate, hr]
  unfold gappedClause
  rw [satisfied_isLess (hvar hp) (hvar hq), hkit,
    DepthFirstRelation.compare3Way_sequence hs hk hk']
  simp only [Option.some.injEq, exists_eq_left']
  omega

/-! ## §3. The match. -/

omit [LinearOrder V] in
/-- The clauses describe where in the keyer's sequence the non-star children are. -/
theorem KeyerAt.describes
    (h : KeyerAt db hypothesisLinks archetypeNode itemiseIndex keyerPlink xs)
    (hkit : kit.depthFirst = DepthFirstRelation.compare3Way db) (a : V → XLink L)
    (Letter : V → Prop) (hlinks : ∀ p, Letter p → hypothesisLinks.lookup p = some (a p)) :
    Wildcard.Describes a (xs.map XLink.link) Letter
      (fun p => (containerClause archetypeNode itemiseIndex keyerPlink p).Satisfied
        (predicateEvaluate hypothesisLinks db kit))
      (fun p => (frontClause p).Satisfied (predicateEvaluate hypothesisLinks db kit))
      (fun p => (backClause p).Satisfied (predicateEvaluate hypothesisLinks db kit))
      (fun p q => ∀ c ∈ adjacentClauses (p, q),
        c.Satisfied (predicateEvaluate hypothesisLinks db kit))
      (fun p q => (gappedClause (p, q)).Satisfied (predicateEvaluate hypothesisLinks db kit)) := by
  obtain ⟨y, node, i, hs⟩ := h.sequenceAt
  -- a place in the list of XLinks is a place in the sequence
  have hplace : ∀ {p : V} {k : Nat}, Letter p → (xs.map XLink.link)[k]? = some (a p) →
      ∃ x, xs[k]? = some x ∧ hypothesisLinks.lookup p = some (.link x) := by
    intro p k hp hk
    rw [List.getElem?_map, Option.map_eq_some_iff] at hk
    obtain ⟨x, hx, hax⟩ := hk
    exact ⟨x, hx, by rw [hlinks p hp, hax]⟩
  refine ⟨?_, ?_, ?_, ?_, ?_⟩
  · intro p hp
    exact h.satisfied_containerClause (hlinks p hp)
  · intro p k hp hk
    obtain ⟨x, hx, hlook⟩ := hplace hp hk
    exact satisfied_frontClause hs hlook hx
  · intro p k hp hk
    obtain ⟨x, hx, hlook⟩ := hplace hp hk
    rw [List.length_map]
    exact satisfied_backClause hs hlook hx
  · intro p q k k' hp hq hk hk'
    obtain ⟨x, hx, hlook⟩ := hplace hp hk
    obtain ⟨x', hx', hlook'⟩ := hplace hq hk'
    exact satisfied_adjacentClauses hs hlook hlook' hx hx'
  · intro p q k k' hp hq hk hk'
    obtain ⟨x, hx, hlook⟩ := hplace hp hk
    obtain ⟨x', hx', hlook'⟩ := hplace hq hk'
    exact satisfied_gappedClause hs hkit hlook hlook' hx hx'

/-- **The conjunction decides the match** for a pattern with an element. -/
theorem KeyerAt.satisfied_iff_matches
    (h : KeyerAt db hypothesisLinks archetypeNode itemiseIndex keyerPlink xs)
    (simpleCompare : Option N → Option N → Int) (isLocalMatch : M → Option N → Bool)
    (isStar : V → Bool) {pattern : List V} (hne : pattern ≠ []) (a : V → XLink L)
    (hlinks : ∀ p ∈ pattern, isStar p = false → hypothesisLinks.lookup p = some (a p)) :
    (symbolicNormalLinkedQuerySequence archetypeNode
          (SequencePlan.make isStar itemiseIndex pattern) keyerPlink).Satisfied
        (predicateEvaluate hypothesisLinks db (databaseKit db simpleCompare isLocalMatch))
      ↔ Wildcard.Matches a (SequencePlan.wildcard isStar pattern) (xs.map XLink.link) := by
  rw [satisfied_query_iff, SequencePlan.make_itemiseIndex, SequencePlan.make_holds_iff]
  have hletters : ∀ p, some p ∈ SequencePlan.wildcard isStar pattern →
      p ∈ pattern ∧ isStar p = false := by
    intro p hp
    obtain ⟨q, hq, hqp⟩ := List.mem_map.mp hp
    cases hstar : isStar q with
    | true => simp [hstar] at hqp
    | false =>
        have hqp' : q = p := by simpa [hstar] using hqp
        exact hqp' ▸ ⟨hq, hstar⟩
  have hkit : (databaseKit db simpleCompare isLocalMatch).depthFirst
      = DepthFirstRelation.compare3Way db := rfl
  have hdesc := h.describes hkit a (fun p => p ∈ pattern ∧ isStar p = false)
    (fun p hp => hlinks p hp.1 hp.2)
  exact hdesc.constraints_iff_matches hletters (by simpa [SequencePlan.wildcard] using hne)

/-- **The conjunction decides the match for exactly the patterns with an element, and
the empty sequences.**  A star takes a run of zero or more links, a non-star child the
link it is assigned, in order, with nothing left over.  An empty pattern gets no
constraint at all. -/
theorem sequence_query_exact
    (h : KeyerAt db hypothesisLinks archetypeNode itemiseIndex keyerPlink xs)
    (simpleCompare : Option N → Option N → Int) (isLocalMatch : M → Option N → Bool)
    (isStar : V → Bool) (pattern : List V) (a : V → XLink L)
    (hlinks : ∀ p ∈ pattern, isStar p = false → hypothesisLinks.lookup p = some (a p)) :
    ((symbolicNormalLinkedQuerySequence archetypeNode
          (SequencePlan.make isStar itemiseIndex pattern) keyerPlink).Satisfied
        (predicateEvaluate hypothesisLinks db (databaseKit db simpleCompare isLocalMatch))
      ↔ Wildcard.Matches a (SequencePlan.wildcard isStar pattern) (xs.map XLink.link))
      ↔ (pattern ≠ [] ∨ xs = []) := by
  by_cases hne : pattern = []
  · subst hne
    rw [satisfied_query_iff, SequencePlan.make_holds_iff]
    simp [SequencePlan.wildcard, Wildcard.Constraints, Wildcard.matches_nil]
  · rw [h.satisfied_iff_matches simpleCompare isLocalMatch isStar hne a hlinks]
    simp [hne]

end

/-! ## §4. The tree of one sequence. -/

/-- The trees of a root, link 0, whose node has one sequence: links 1 to `n`, to
leaves.  A node has the number of its link. -/
def sequenceTrees (n : Nat) : XTrees Nat Nat Unit where
  childOf l := if l ≤ n then some l else none
  itemise node := if node = 0 then [.sequence (List.range' 1 n)] else []
  mmaxNode := n + 1
  offEndNode := n + 2
  isSubcategory _ node := decide (node = 0)
  itemiseAs _ node := if node = 0 then [.sequence (List.range' 1 n)] else []
  itemiseAs_sub := by
    intro _ node _ item hitem
    exact hitem

/-- The row of a link of that tree. -/
def sequenceRow (n l : Nat) : Option (Row Nat Nat) :=
  if l = 0 then generateRow 0 0 rootCoreInfo
  else generateRow l 0 (visitInfo 0 0 (.sequence (List.range' 1 n)) (l - 1))

theorem sequenceTrees_place {n y node i k x : Nat} {item : Item Nat}
    (h : (sequenceTrees n).Place y node i item k x) :
    y = 0 ∧ node = 0 ∧ i = 0 ∧ item = .sequence (List.range' 1 n) ∧ x = k + 1 ∧ k < n := by
  have hitem := List.mem_zipIdx_iff_getElem?.mp h.item_mem
  have hlink := List.mem_zipIdx_iff_getElem?.mp h.link_mem
  have hchild := h.child
  simp only [sequenceTrees] at hitem hchild
  split at hchild
  next =>
    rw [Option.some.injEq] at hchild
    split at hitem
    next hnode =>
      obtain ⟨hi, heq⟩ := List.getElem?_eq_some_iff.mp hitem
      have hi0 : i = 0 := by simpa using hi
      subst hi0
      have heq' : item = .sequence (List.range' 1 n) := heq.symm
      subst heq'
      obtain ⟨hk, hx⟩ := List.getElem?_eq_some_iff.mp hlink
      simp only [Item.links, List.length_range', List.getElem_range'] at hk hx
      refine ⟨hchild.trans hnode, hnode, rfl, rfl, by omega, hk⟩
    next => simp at hitem
  next => cases hchild

theorem sequence_link {n x : Nat} (hx : x ≤ n) (hx0 : ¬ x = 0) :
    (List.range' 1 n)[x - 1]? = some x := by
  have hlen : x - 1 < (List.range' 1 n).length := by
    rw [List.length_range']
    omega
  rw [List.getElem?_eq_getElem hlen, List.getElem_range']
  congr 1
  omega

theorem sequence_childOf {n x : Nat} (hx : 1 ≤ x ∧ x < 1 + n) :
    ((sequenceTrees n).childOf x).isSome := by
  simp [sequenceTrees, (by omega : x ≤ n)]

theorem sequence_incoming (n node x : Nat) :
    (∃ xs : Finset Nat, (if node ≤ n then some {node} else none) = some xs ∧ x ∈ xs)
      ↔ x ∈ Finset.range (n + 1) ∧ (sequenceTrees n).childOf x = some node := by
  by_cases hn : node ≤ n <;> simp [hn, sequenceTrees] <;> omega

theorem sequence_rule217 {n y z node i k x : Nat} {item : Item Nat}
    (h : (sequenceTrees n).Place y node i item k x)
    (hz : (sequenceTrees n).childOf z = some node) : z = y := by
  obtain ⟨hy, hnode, _⟩ := sequenceTrees_place h
  simp only [sequenceTrees] at hz
  split at hz
  next =>
    rw [Option.some.injEq] at hz
    omega
  next => cases hz

theorem sequence_acyclic {n y node i k x : Nat} {item : Item Nat}
    (h : (sequenceTrees n).Place y node i item k x) : y < x := by
  obtain ⟨hy, _, _, _, hx, _⟩ := sequenceTrees_place h
  omega

/-- The database of that tree. -/
def sequenceDatabase (n : Nat) : XTreeDatabase Nat Nat Unit where
  toXTrees := sequenceTrees n
  treesByOrdinal := StdMap.empty.set 0 0
  rows :=
    { lookup := fun l => if l ≤ n then sequenceRow n l else none
      keys := Finset.range (n + 1)
      mem_keys := by
        intro l
        rw [Finset.mem_range, Nat.lt_succ_iff]
        by_cases hl : l ≤ n
        · simp only [hl, if_true, true_iff]
          unfold sequenceRow
          split <;> rfl
        · simp [hl] }
  incomingXLinks :=
    { lookup := fun node => if node ≤ n then some {node} else none
      keys := Finset.range (n + 1)
      mem_keys := by
        intro node
        rw [Finset.mem_range, Nat.lt_succ_iff]
        by_cases hn : node ≤ n <;> simp [hn] }
  row_root := by
    intro o x h
    rw [StdMap.lookup_set] at h
    split at h
    next ho =>
      cases h
      rw [ho]
      simp [sequenceRow]
    next => simp [StdMap.lookup_empty] at h
  row_child := by
    intro y _ node i item k x h
    obtain ⟨_, rfl, rfl, rfl, rfl, hk⟩ := sequenceTrees_place h
    simp [sequenceRow, Nat.succ_le_iff.mpr hk]
  row_only := by
    intro x hx
    rw [Finset.mem_range, Nat.lt_succ_iff] at hx
    by_cases hx0 : x = 0
    · exact Or.inl ⟨0, by simp [hx0, StdMap.lookup_set]⟩
    · refine Or.inr ⟨0, by simp, 0, 0, .sequence (List.range' 1 n), x - 1, ?_⟩
      refine ⟨by simp [sequenceTrees], by simp [sequenceTrees], ?_, by simp [sequenceTrees, hx]⟩
      rw [List.mem_zipIdx_iff_getElem?]
      exact sequence_link hx hx0
  row_nonnull := by
    intro x hx
    rw [Finset.mem_range, Nat.lt_succ_iff] at hx
    simp [sequenceTrees, hx]
  container_nonnull := by
    intro y _ node _ item hitem x hx _
    simp only [sequenceTrees] at hitem
    split at hitem
    next =>
      rw [List.mem_singleton] at hitem
      subst hitem
      simp only [Item.links, List.mem_range'_1] at hx
      exact sequence_childOf hx
    next => cases hitem
  incoming := sequence_incoming n
  rule217 := by
    intro y _ z _ node i item k x h hz
    exact sequence_rule217 h hz
  acyclic := by
    refine ⟨id, ?_⟩
    intro y _ node i item k x h
    exact sequence_acyclic h

omit [LinearOrder V] in
theorem sequenceDatabase_keyerAt {n : Nat} {hypothesisLinks : StdMap V (XLink Nat)}
    {keyerPlink : V} (h : hypothesisLinks.lookup keyerPlink = some (.link 0)) :
    KeyerAt (sequenceDatabase n) hypothesisLinks () 0 keyerPlink (List.range' 1 n) := by
  refine ⟨0, 0, h, ?_, ?_, ?_, ?_⟩
  · show 0 ∈ Finset.range (n + 1)
    simp
  · simp [sequenceDatabase, sequenceTrees]
  · simp [sequenceDatabase, sequenceTrees]
  · simp [sequenceDatabase, sequenceTrees]

/-- **An empty pattern matches any sequence**: the conjunction is satisfied by a keyer
whose sequence has one link, which the empty pattern does not match. -/
theorem empty_pattern_matches_any :
    ∃ hypothesisLinks : StdMap Nat (XLink Nat),
      KeyerAt (sequenceDatabase 1) hypothesisLinks () 0 0 [1]
      ∧ ¬ ((symbolicNormalLinkedQuerySequence () (SequencePlan.make (fun _ => false) 0 []) 0).Satisfied
            (predicateEvaluate hypothesisLinks (sequenceDatabase 1)
              (databaseKit (sequenceDatabase 1) (fun _ _ => 0) (fun (_ : Unit) _ => true)))
          ↔ Wildcard.Matches (fun _ => XLink.MMAX)
              (SequencePlan.wildcard (fun _ => false) ([] : List Nat)) [.link 1]) := by
  refine ⟨StdMap.empty.set 0 (.link 0), sequenceDatabase_keyerAt (by simp [StdMap.lookup_set]), ?_⟩
  intro hiff
  have hsat := hiff.mp (by
    rw [satisfied_query_iff, SequencePlan.make_holds_iff]
    simp [SequencePlan.wildcard, Wildcard.Constraints])
  simp [SequencePlan.wildcard, Wildcard.matches_nil] at hsat

/-- The pattern `(a, *, b)` over three links, `a` the first and `b` the third: the
star takes the second. -/
theorem sequence_query_exact_gapped :
    ∃ hypothesisLinks : StdMap Nat (XLink Nat),
      (symbolicNormalLinkedQuerySequence ()
          (SequencePlan.make (fun plink => plink == 11) 0 [10, 11, 12]) 0).Satisfied
        (predicateEvaluate hypothesisLinks (sequenceDatabase 3)
          (databaseKit (sequenceDatabase 3) (fun _ _ => 0) (fun (_ : Unit) _ => true))) := by
  have hkeyer : (((StdMap.empty.set 0 (XLink.link 0)).set 10 (.link 1)).set 12 (.link 3)).lookup 0
      = some (XLink.link 0) := by
    simp [StdMap.lookup_set]
  have hexact := sequence_query_exact (sequenceDatabase_keyerAt (n := 3) hkeyer)
    (fun _ _ => 0) (fun (_ : Unit) _ => true) (fun plink => plink == 11) [10, 11, 12]
    (fun plink => .link (plink - 9)) (by
      intro p hp hstar
      rcases (by simpa using hp : p = 10 ∨ p = 11 ∨ p = 12) with rfl | rfl | rfl
      · simp [StdMap.lookup_set]
      · simp at hstar
      · simp [StdMap.lookup_set])
  refine ⟨_, (hexact.mpr (Or.inl (by simp))).mpr ?_⟩
  exact Wildcard.Matches.letter 10 (Wildcard.Matches.star [XLink.link 2]
    (Wildcard.Matches.letter 12 Wildcard.Matches.nil))

end Inferno.Agents
