/-
  Inferno.Agents.ClutchedClauses
  ──────────────────────────────
  The clauses of a standard agent under the clutch.

    • `ClausesHold`       — what a property of conjuncts needs to hold of every clause on
                            the keyer and its children,
    • `variables_clauses` — the clauses read the keyer and the children only,
    • `idle_clauses`      — at MMAX every clause evaluates,
    • `ItemClauses.link`  — each child is in a clause with the keyer.
-/
import Inferno.Agents.QueryConjuncts

namespace Inferno.Agents

open Inferno.Common
open Inferno.DB
open Inferno.SYM
open Inferno.SYM.BooleanExpression
open Inferno.Lib

variable {V L A N D M : Type} [LinearOrder V] [LinearOrder L]

/-! ## §1. All the clauses. -/

/-- A property holds of every clause that a plan could give, for children that are
letters. -/
structure ClausesHold
    (Q : BooleanExpression (PredicateOperator (SymbolExpression V L A) A M) → Prop)
    (Letter : V → Prop) (archetypeNode : A) (keyerPlink : V) : Prop where
  holds_true : Q (.constant true)
  not_false : ¬ Q (.constant false)
  singular : ∀ i p, Letter p → Q (symbolicNormalLinkedQuerySingular archetypeNode (i, p) keyerPlink)
  collection : ∀ i p, Letter p → Q (collectionClause archetypeNode i keyerPlink p)
  allDiff : ∀ ps : List V, (∀ p ∈ ps, Letter p) → ∀ c ∈ allDiffClauses ps, Q c
  sized : ∀ i n, Q (sizedClause archetypeNode i keyerPlink n)
  container : ∀ i p, Letter p → Q (containerClause archetypeNode i keyerPlink p)
  front : ∀ p, Letter p → Q (frontClause p)
  back : ∀ p, Letter p → Q (backClause p)
  adjacent : ∀ p q, Letter p → Letter q → ∀ c ∈ adjacentClauses (p, q), Q c
  gapped : ∀ p q, Letter p → Letter q → Q (gappedClause (p, q))

section

variable {Q : BooleanExpression (PredicateOperator (SymbolExpression V L A) A M) → Prop}
  {isStar : V → Bool} {Letter : V → Prop} {archetypeNode : A} {keyerPlink : V}

omit [LinearOrder V] in
/-- The letters of a pattern are its non-stars. -/
theorem mem_wildcard {pattern : List V} {p : V} :
    some p ∈ SequencePlan.wildcard isStar pattern ↔ p ∈ pattern ∧ isStar p = false := by
  unfold SequencePlan.wildcard
  rw [List.mem_map]
  constructor
  · intro h
    obtain ⟨q, hq, hqp⟩ := h
    cases hstar : isStar q with
    | true => simp [hstar] at hqp
    | false =>
        have hqp' : q = p := by simpa [hstar] using hqp
        exact hqp' ▸ ⟨hq, hstar⟩
  · intro h
    exact ⟨p, h.1, by simp [h.2]⟩

omit [LinearOrder L] in
/-- **The clauses of an item** are among them. -/
theorem ClausesHold.item (h : ClausesHold Q Letter archetypeNode keyerPlink)
    {item : PatternItem V} {i : Nat}
    (hletters : ∀ p ∈ item.links, isStar p = false → Letter p)
    (hsingular : ∀ p, item = .singular (some p) → isStar p = false) :
    ItemClauses Q isStar archetypeNode keyerPlink (item, i) := by
  unfold ItemClauses ItemPlanned
  cases item with
  | singular plink =>
      cases plink with
      | none => trivial
      | some p => exact h.singular i p (hletters p (by simp [PatternItem.links]) (hsingular p rfl))
  | sequence pattern =>
      show ∀ c ∈ splitAnds (symbolicNormalLinkedQuerySequence archetypeNode
        (SequencePlan.make isStar i pattern) keyerPlink), Q c
      rw [forall_splitAnds_sequence h.holds_true h.not_false, SequencePlan.make_holds_iff]
      -- the clauses of a sequence are the constraints of its reading as a wildcard
      refine Wildcard.constraints_of_letters (fun p hp => h.container _ p hp) h.front h.back
        h.adjacent h.gapped _ none false (fun p hp => ?_) (by simp)
      have hp' := mem_wildcard.mp hp
      exact hletters p hp'.1 hp'.2
  | collection pattern =>
      intro planCol hmake
      have hreads := (CollectionPlan.reads_of_make i pattern hmake).1
      have hmem : ∀ p ∈ planCol.nonStars, Letter p := by
        intro p hp
        rw [hreads.nonStars] at hp
        -- the plan has the children of the pattern that are no stars
        have hp' : p ∈ pattern ∧ isStar p = false := by simpa using hp
        exact hletters p hp'.1 hp'.2
      rw [forall_splitAnds_collection h.holds_true h.not_false]
      exact ⟨fun p hp => h.collection _ p (hmem p hp),
        h.allDiff _ (fun p hp => hmem p (mem_inOrder.mp hp)), fun _ => h.sized _ _⟩

end

/-! ## §2. Variables. -/

omit [LinearOrder L] in
theorem mem_variables_predicate {p : PredicateOperator (SymbolExpression V L A) A M} {v : V} :
    v ∈ Engine.Expression.variables (.predicate p : Engine.Expression V L A M)
      ↔ ∃ o ∈ p.operands, v ∈ Engine.symbolVariables o := by
  have hfold : ∀ os : List (SymbolExpression V L A),
      v ∈ (os.map Engine.symbolVariables).foldr (· ∪ ·) ∅
        ↔ ∃ o ∈ os, v ∈ Engine.symbolVariables o := by
    intro os
    induction os with
    | nil => simp
    | cons o os ih =>
        rw [List.map_cons, List.foldr_cons, Finset.mem_union, ih, List.exists_mem_cons_iff]
  show v ∈ Engine.predicateVariables p ∪ ∅ ↔ _
  rw [Finset.union_empty]
  exact hfold p.operands

omit [LinearOrder L] in
theorem mem_variables_isEqual {x y : SymbolExpression V L A} {v : V} :
    v ∈ Engine.Expression.variables (isEqual x y : Engine.Expression V L A M)
      ↔ v ∈ Engine.symbolVariables x ∨ v ∈ Engine.symbolVariables y := by
  unfold isEqual
  rw [mem_variables_predicate]
  simp

omit [LinearOrder L] in
theorem mem_variables_isNotEqual {x y : SymbolExpression V L A} {v : V} :
    v ∈ Engine.Expression.variables (isNotEqual x y : Engine.Expression V L A M)
      ↔ v ∈ Engine.symbolVariables x ∨ v ∈ Engine.symbolVariables y :=
  mem_variables_isEqual

/-- The expression reads known links only, and is not the constant false. -/
structure ReadsOnly (Known : V → Prop) (c : Engine.Expression V L A M) : Prop where
  known : ∀ v ∈ c.variables, Known v
  notFalse : c ≠ .constant false

omit [LinearOrder L] in
/-- **The clauses read the keyer and the children.** -/
theorem variables_clauses {Known : V → Prop} {archetypeNode : A} {keyerPlink : V}
    (hkeyer : Known keyerPlink) :
    ClausesHold (ReadsOnly Known : Engine.Expression V L A M → Prop) Known archetypeNode
      keyerPlink where
  holds_true := ⟨fun v hv => absurd hv (Finset.notMem_empty v), by simp⟩
  not_false h := h.notFalse rfl
  -- a clause on a child reads the child and the keyer
  singular i p hp := by
    refine ⟨fun v hv => ?_, by simp [symbolicNormalLinkedQuerySingular, isEqual]⟩
    rcases mem_variables_isEqual.mp hv with h | h <;> rw [Finset.mem_singleton.mp h] <;> assumption
  collection i p hp := by
    refine ⟨fun v hv => ?_, by simp [collectionClause, isEqual]⟩
    rcases mem_variables_isEqual.mp hv with h | h <;> rw [Finset.mem_singleton.mp h] <;> assumption
  -- the children of the AllDiff are all known
  allDiff ps hps c hc := by
    unfold allDiffClauses at hc
    split at hc
    next =>
      rw [List.mem_singleton] at hc
      rw [hc]
      refine ⟨fun v hv => ?_, by simp⟩
      obtain ⟨o, ho, hvo⟩ := mem_variables_predicate.mp hv
      obtain ⟨p, hp, rfl⟩ := List.mem_map.mp ho
      rw [Finset.mem_singleton.mp hvo]
      exact hps p hp
    next => cases hc
  sized i n := by
    refine ⟨fun v hv => ?_, by simp [sizedClause]⟩
    obtain ⟨o, ho, hvo⟩ := mem_variables_predicate.mp hv
    rw [List.mem_singleton.mp ho] at hvo
    rw [Finset.mem_singleton.mp hvo]
    exact hkeyer
  container i p hp := by
    refine ⟨fun v hv => ?_, by simp [containerClause, isEqual]⟩
    rcases mem_variables_isEqual.mp hv with h | h <;> rw [Finset.mem_singleton.mp h] <;> assumption
  front p hp := by
    refine ⟨fun v hv => ?_, by simp [frontClause, isEqual]⟩
    rcases mem_variables_isEqual.mp hv with h | h <;> rw [Finset.mem_singleton.mp h] <;> exact hp
  back p hp := by
    refine ⟨fun v hv => ?_, by simp [backClause, isEqual]⟩
    rcases mem_variables_isEqual.mp hv with h | h <;> rw [Finset.mem_singleton.mp h] <;> exact hp
  -- the pair of equations, and that nothing is off the end
  adjacent p q hp hq c hc := by
    rcases List.mem_pair.mp hc with rfl | rfl
    · refine ⟨fun v hv => ?_, by simp [isEqual]⟩
      rcases mem_variables_isEqual.mp hv with h | h <;> rw [Finset.mem_singleton.mp h] <;> assumption
    · refine ⟨fun v hv => ?_, by simp [isNotEqual]⟩
      rcases mem_variables_isNotEqual.mp hv with h | h
      · rw [Finset.mem_singleton.mp h]
        exact hq
      · exact absurd h (Finset.notMem_empty v)
  gapped p q hp hq := by
    refine ⟨fun v hv => ?_, by simp [gappedClause, isLess]⟩
    obtain ⟨o, ho, hvo⟩ := mem_variables_predicate.mp hv
    rcases List.mem_pair.mp ho with rfl | rfl <;> rw [Finset.mem_singleton.mp hvo] <;> assumption

/-! ## §3. At MMAX. -/

section

variable {db : XTreeDatabase L N A} {hypothesisLinks : StdMap V (XLink L)}
  {kit : PredicateKit (XLink L) A M}

omit [LinearOrder V] in
theorem evaluates_isEqual {x y : SymbolExpression V L A}
    (hx : ∃ r, x.evaluate hypothesisLinks db = some r)
    (hy : ∃ r, y.evaluate hypothesisLinks db = some r) :
    ∃ r, (isEqual x y).evaluate (predicateEvaluate hypothesisLinks db kit) = some r := by
  obtain ⟨rx, hx⟩ := hx
  obtain ⟨ry, hy⟩ := hy
  unfold isEqual
  rw [BooleanExpression.evaluate]
  unfold predicateEvaluate
  simp only [List.mapM_cons, List.mapM_nil, hx, hy, Option.bind_eq_bind, Option.bind_some,
    Option.pure_def, List.map_cons, List.map_nil]
  cases rx <;> cases ry <;>
    simp [SymbolicResult.onlyXLink, PredicateOperator.evaluateOn, PredicateOperator.evaluateDefined]

variable {p : V} (hp : hypothesisLinks.lookup p = some .MMAX)

include hp

omit [LinearOrder V] in
theorem evaluates_variable : ∃ r, (variableExpr p : SymbolExpression V L A).evaluate
    hypothesisLinks db = some r :=
  ⟨.uniqueResult .MMAX, by simp [SymbolExpression.evaluate, hp]⟩

omit [LinearOrder V] in
/-- MMAX has no row. -/
theorem evaluates_xTreeDb (kind : XTreeDbKind) :
    ∃ r, (SymbolExpression.xTreeDbToSymbol kind (variableExpr p) : SymbolExpression V L A).evaluate
      hypothesisLinks db = some r :=
  ⟨.emptyResult, by
    simp [SymbolExpression.evaluate, hp, SymbolExpression.evaluateXTreeDb, XTreeDatabase.getRow]⟩

omit [LinearOrder V] in
/-- And is of no archetype that has items. -/
theorem evaluates_child {archetypeNode : A}
    (hmmax : db.isSubcategory archetypeNode db.mmaxNode = false) (kind : ChildKind) (i : Nat) :
    ∃ r, (SymbolExpression.childToSymbol kind archetypeNode i (variableExpr p)).evaluate
      hypothesisLinks db = some r :=
  ⟨.emptyResult, by
    simp [SymbolExpression.evaluate, hp, SymbolExpression.evaluateChild, XTrees.getChildTreePtr,
      hmmax]⟩

omit [LinearOrder V] in
/-- A predicate of one operand, at MMAX. -/
theorem evaluates_unary {kind : PredicateKind A M} (harity : kind.Arity 1) {value : Bool}
    (heval : PredicateOperator.evaluateDefined kit kind [XLink.MMAX] = some value) :
    ∃ r, (BooleanExpression.predicate ⟨kind, [variableExpr p], harity⟩).evaluate
      (predicateEvaluate hypothesisLinks db kit) = some r := by
  refine ⟨value, ?_⟩
  rw [BooleanExpression.evaluate]
  unfold predicateEvaluate
  have hvar : SymbolExpression.evaluate hypothesisLinks db (variableExpr p)
      = some (.uniqueResult .MMAX) := by
    simp [SymbolExpression.evaluate, hp]
  simp only [List.mapM_cons, List.mapM_nil, hvar, Option.bind_eq_bind, Option.bind_some,
    Option.pure_def, List.map_cons, List.map_nil, SymbolicResult.onlyXLink]
  show PredicateOperator.evaluateOn kit kind ([XLink.MMAX].map some) = some value
  rw [PredicateOperator.evaluateOn_some, heval]

end

section

variable [DecidableEq A] {db : XTreeDatabase L N A} {hypothesisLinks : StdMap V (XLink L)}
  {kit : PredicateKit (XLink L) A (PatternNode A D)}

omit [DecidableEq A] in
theorem idle_of_evaluates {c : Engine.Expression V L A (PatternNode A D)} {v : V}
    (hv : v ∈ c.variables)
    (h : ∃ r, c.evaluate (predicateEvaluate hypothesisLinks db kit) = some r) :
    PatternTree.mmaxRewriter.Idle (predicateEvaluate hypothesisLinks db kit) c := by
  refine ⟨h, fun hempty => ?_⟩
  have hv' : v ∈ c.requiredVariables Engine.predicateVariables := hv
  rw [show c.requiredVariables Engine.predicateVariables = ∅ from hempty] at hv'
  exact absurd hv' (Finset.notMem_empty v)

omit [DecidableEq A] in
/-- **At MMAX every clause evaluates.** -/
theorem idle_clauses {Letter : V → Prop} {archetypeNode : A} {keyerPlink : V}
    (hdepth : kit.depthFirst = DepthFirstRelation.compare3Way db)
    (hsub : kit.isSubcategory archetypeNode .MMAX = false)
    (hmmax : db.isSubcategory archetypeNode db.mmaxNode = false)
    (hkeyer : hypothesisLinks.lookup keyerPlink = some .MMAX)
    (hletters : ∀ p, Letter p → hypothesisLinks.lookup p = some .MMAX) :
    ClausesHold (PatternTree.mmaxRewriter.Idle (predicateEvaluate hypothesisLinks db kit))
      Letter archetypeNode keyerPlink where
  holds_true := ClutchRewriter.Idle.constant_true
  not_false := ClutchRewriter.not_idle_constant_false
  -- both sides of an equation evaluate, to MMAX or to what its child would be
  singular i p hp :=
    idle_of_evaluates (mem_variables_isEqual.mpr (Or.inr (Finset.mem_singleton_self p)))
      (evaluates_isEqual (evaluates_child hkeyer hmmax _ _) (evaluates_variable (hletters p hp)))
  collection i p hp :=
    idle_of_evaluates (mem_variables_isEqual.mpr (Or.inl (Finset.mem_singleton_self p)))
      (evaluates_isEqual (evaluates_xTreeDb (hletters p hp) _) (evaluates_child hkeyer hmmax _ _))
  allDiff ps hps c hc := by
    unfold allDiffClauses at hc
    split at hc
    next hlen =>
      rw [List.mem_singleton] at hc
      rw [hc]
      -- it has at least two operands, so there is a variable
      obtain ⟨p, hp⟩ : ∃ p, p ∈ ps := List.exists_mem_of_length_pos (by omega)
      refine idle_of_evaluates (v := p) (mem_variables_predicate.mpr
        ⟨_, List.mem_map_of_mem hp, Finset.mem_singleton_self p⟩) ?_
      rw [BooleanExpression.evaluate]
      unfold predicateEvaluate
      have hresults : (ps.map (fun _ => SymbolicResult.uniqueResult (XLink.MMAX : XLink L))).map
          SymbolicResult.onlyXLink = (ps.map (fun _ => XLink.MMAX)).map some := by
        rw [List.map_map, List.map_map]
        rfl
      simp only [mapM_evaluate_variables (a := fun _ => XLink.MMAX) ps
        (fun q hq => hletters q (hps q hq)), Option.bind_eq_bind, Option.bind_some, hresults,
        PredicateOperator.evaluateOn_some, PredicateOperator.evaluateDefined]
      exact ⟨_, rfl⟩
    next => cases hc
  sized i n := by
    -- MMAX is in no category, so the size is not compared
    have heval : PredicateOperator.evaluateDefined kit
        (.isChildCollectionSized archetypeNode i n) [XLink.MMAX] = some false := by
      simp [PredicateOperator.evaluateDefined, hsub]
    exact idle_of_evaluates (mem_variables_predicate.mpr
      ⟨_, List.mem_singleton_self _, Finset.mem_singleton_self keyerPlink⟩)
      (evaluates_unary hkeyer _ heval)
  container i p hp :=
    idle_of_evaluates (mem_variables_isEqual.mpr (Or.inl (Finset.mem_singleton_self p)))
      (evaluates_isEqual (evaluates_xTreeDb (hletters p hp) _) (evaluates_child hkeyer hmmax _ _))
  front p hp :=
    idle_of_evaluates (mem_variables_isEqual.mpr (Or.inl (Finset.mem_singleton_self p)))
      (evaluates_isEqual (evaluates_variable (hletters p hp)) (evaluates_xTreeDb (hletters p hp) _))
  back p hp :=
    idle_of_evaluates (mem_variables_isEqual.mpr (Or.inl (Finset.mem_singleton_self p)))
      (evaluates_isEqual (evaluates_variable (hletters p hp)) (evaluates_xTreeDb (hletters p hp) _))
  adjacent p q hp hq c hc := by
    rcases List.mem_pair.mp hc with rfl | rfl
    · exact idle_of_evaluates (mem_variables_isEqual.mpr (Or.inl (Finset.mem_singleton_self q)))
        (evaluates_isEqual (evaluates_variable (hletters q hq))
          (evaluates_xTreeDb (hletters p hp) _))
    · refine idle_of_evaluates
        (mem_variables_isNotEqual.mpr (Or.inl (Finset.mem_singleton_self q))) ?_
      obtain ⟨r, hr⟩ : ∃ r, (isEqual (variableExpr q) (.symbolConstant .OffEnd)).evaluate
          (predicateEvaluate hypothesisLinks db kit) = some r :=
        evaluates_isEqual (evaluates_variable (hletters q hq)) ⟨_, rfl⟩
      exact ⟨!r, by rw [isNotEqual, BooleanExpression.evaluate, hr]; rfl⟩
  gapped p q hp hq := by
    refine idle_of_evaluates (v := p) (mem_variables_predicate.mpr
      ⟨_, List.mem_cons_self, Finset.mem_singleton_self p⟩) ?_
    have hvar : ∀ r : V, Letter r → SymbolExpression.evaluate hypothesisLinks db (variableExpr r)
        = some (.uniqueResult .MMAX) := by
      intro r hr
      simp [SymbolExpression.evaluate, hletters r hr]
    -- MMAX ties with itself in the depth-first order
    have hcompare : DepthFirstRelation.compare3Way db .MMAX .MMAX = some 0 := by
      simp [DepthFirstRelation.compare3Way, DepthFirstRelation.compareHierarchical]
    refine ⟨false, ?_⟩
    unfold gappedClause isLess
    rw [BooleanExpression.evaluate]
    unfold predicateEvaluate
    simp [hvar p hp, hvar q hq, SymbolicResult.onlyXLink, PredicateOperator.evaluateOn,
      PredicateOperator.evaluateDefined, PredicateOperator.evaluateDepthFirst, hdepth, hcompare]

end

/-! ## §4. Children. -/

section

variable {Q : Engine.Expression V L A M → Prop} {isStar : V → Bool} {archetypeNode : A}
  {keyerPlink : V} {item : PatternItem V} {i : Nat}

omit [LinearOrder L] in
/-- **Each child is in a clause with the keyer.** -/
theorem ItemClauses.link (h : ItemClauses Q isStar archetypeNode keyerPlink (item, i))
    (htrue : Q (.constant true)) (hfalse : ¬ Q (.constant false))
    (hone : ∀ pattern, item = .collection pattern → (pattern.filter isStar).length ≤ 1)
    {p : V} (hp : p ∈ item.links) (hstar : isStar p = false) :
    ∃ c, Q c ∧ p ∈ Engine.Expression.variables c ∧ keyerPlink ∈ Engine.Expression.variables c := by
  cases item with
  | singular plink =>
      cases plink with
      | none => cases hp
      | some q =>
          -- the clause that puts the child at its item
          have hpq : p = q := by simpa [PatternItem.links] using hp
          subst hpq
          exact ⟨_, h, mem_variables_isEqual.mpr (Or.inr (Finset.mem_singleton_self _)),
            mem_variables_isEqual.mpr (Or.inl (Finset.mem_singleton_self _))⟩
  | sequence pattern =>
      have hclauses : ∀ c ∈ splitAnds (symbolicNormalLinkedQuerySequence archetypeNode
        (SequencePlan.make isStar i pattern) keyerPlink), Q c := h
      -- the clause that a non-star is in the sequence
      rw [forall_splitAnds_sequence htrue hfalse, SequencePlan.make_holds_iff] at hclauses
      exact ⟨_, hclauses.isIn p (mem_wildcard.mpr ⟨hp, hstar⟩),
        mem_variables_isEqual.mpr (Or.inl (Finset.mem_singleton_self _)),
        mem_variables_isEqual.mpr (Or.inr (Finset.mem_singleton_self _))⟩
  | collection pattern =>
      -- the plan of a collection names the non-stars
      obtain ⟨planCol, hmake⟩ :=
        CollectionPlan.exists_make isStar false i pattern (hone pattern rfl)
      have hreads := (CollectionPlan.reads_of_make i pattern hmake).1
      have hclauses : ∀ c ∈ splitAnds (symbolicNormalLinkedQueryCollection archetypeNode planCol
        keyerPlink), Q c := h planCol hmake
      rw [forall_splitAnds_collection htrue hfalse] at hclauses
      have hmem : p ∈ planCol.nonStars := by
        rw [hreads.nonStars]
        simpa using ⟨hp, hstar⟩
      exact ⟨_, hclauses.1 p hmem,
        mem_variables_isEqual.mpr (Or.inl (Finset.mem_singleton_self _)),
        mem_variables_isEqual.mpr (Or.inr (Finset.mem_singleton_self _))⟩

end

end Inferno.Agents
