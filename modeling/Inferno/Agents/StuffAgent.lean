/-
  Inferno.Agents.StuffAgent
  ─────────────────────────
  The query of a stuff node: its terminus is weakly below its keyer.

    • `DepthSymbol`                 — symbol expressions with `LastDescendantOperator`,
    • `StuffAgent.symbolicNormalLinkedQueryPRed`
                                    — the interval from the keyer to its last descendant,
    • `weakDescent_interval`        — the interval is the keyer and its descendants, and
                                      the query is satisfied just there.
-/
import Inferno.DB.Descent
import Inferno.DB.FlatDatabase
import Inferno.SYM.SymbolExpression

namespace Inferno.Agents

open Inferno.Common Inferno.DB Inferno.SYM Inferno.Lib

/-! ## §1. The query. -/

/-- The symbol expressions of the depth agents. -/
inductive DepthSymbol (V L A : Type) where
  | symbol (e : SymbolExpression V L A)
  | lastDescendant (a : DepthSymbol V L A)
deriving DecidableEq

section

variable {V L N A M : Type} [LinearOrder L]

/-- `LastDescendantOperator::Evaluate` on a unique operand. -/
def evaluateLastDescendant (db : XTreeDatabase L N A) (xlink : XLink L) :
    Option (SymbolicResult (XLink L)) :=
  match xlink with
  | .link x =>
      if db.hasRow (.link x) then
        (db.toXTrees.getLastDescendantXLink db.rows.keys.card x).map fun last =>
          .uniqueResult (.link last)
      else some .emptyResult
  | _ => some .emptyResult -- no row: not a link of the database

/-- `Evaluate`, with `kit.hypothesis_links` and `kit.x_tree_db`. -/
def DepthSymbol.evaluate (hypothesisLinks : StdMap V (XLink L)) (db : XTreeDatabase L N A) :
    DepthSymbol V L A → Option (SymbolicResult (XLink L))
  | symbol e => e.evaluate hypothesisLinks db
  | lastDescendant a => do
      match ← evaluate hypothesisLinks db a with
      | .uniqueResult xlink => evaluateLastDescendant db xlink
      | .emptyResult => some .emptyResult

/-- `SymbolToBooleanExpression::Evaluate` of a predicate over them. -/
def depthPredicateEvaluate (hypothesisLinks : StdMap V (XLink L)) (db : XTreeDatabase L N A)
    (kit : PredicateKit (XLink L) A M) (p : PredicateOperator (DepthSymbol V L A) A M) :
    Option Bool := do
  let opResults ← p.operands.mapM (DepthSymbol.evaluate hypothesisLinks db)
  PredicateOperator.evaluateOn kit p.kind (opResults.map SymbolicResult.onlyXLink)

/-- `StuffAgent::SymbolicNormalLinkedQueryPRed`. -/
def StuffAgent.symbolicNormalLinkedQueryPRed (terminusPlink keyerPlink : V) :
    BooleanExpression (PredicateOperator (DepthSymbol V L A) A M) :=
  (BooleanExpression.constant true).andAll
    [.predicate ⟨.isGreaterOrEqual,
        [.symbol (.symbolVariable terminusPlink), .symbol (.symbolVariable keyerPlink)], rfl⟩,
      .predicate ⟨.isLessOrEqual,
        [.symbol (.symbolVariable terminusPlink),
          .lastDescendant (.symbol (.symbolVariable keyerPlink))], rfl⟩]

/-! ## §2. What it asks. -/

variable {hypothesisLinks : StdMap V (XLink L)} {db : XTreeDatabase L N A}
  {kit : PredicateKit (XLink L) A M} {terminusPlink keyerPlink : V} {x y last : L}

/-- A comparison of two operands that are unique. -/
theorem depthPredicateEvaluate_unique (kind : PredicateKind A M) {a b : DepthSymbol V L A}
    {xa xb : XLink L} (ha : a.evaluate hypothesisLinks db = some (.uniqueResult xa))
    (hb : b.evaluate hypothesisLinks db = some (.uniqueResult xb)) (harity : kind.Arity 2) :
    depthPredicateEvaluate hypothesisLinks db kit ⟨kind, [a, b], harity⟩
      = PredicateOperator.evaluateDefined kit kind [xa, xb] := by
  unfold depthPredicateEvaluate
  simp only [List.mapM_cons, List.mapM_nil, ha, hb, Option.bind_eq_bind, Option.bind_some,
    Option.pure_def]
  exact PredicateOperator.evaluateOn_some kit kind [xa, xb]

/-- **The query asks for the interval** from the keyer to its last descendant. -/
theorem StuffAgent.satisfied_iff (hx : x ∈ db.rows.keys)
    (hkeyer : hypothesisLinks.lookup keyerPlink = some (.link x))
    (hterminus : hypothesisLinks.lookup terminusPlink = some (.link y))
    (hlast : db.toXTrees.getLastDescendantXLink db.rows.keys.card x = some last) :
    (StuffAgent.symbolicNormalLinkedQueryPRed terminusPlink keyerPlink).Satisfied
        (depthPredicateEvaluate hypothesisLinks db kit)
      ↔ (∃ d, kit.depthFirst (.link y) (.link x) = some d ∧ 0 ≤ d)
        ∧ ∃ d, kit.depthFirst (.link y) (.link last) = some d ∧ d ≤ 0 := by
  -- what the three operands evaluate to
  have hkeyer' : (DepthSymbol.symbol (.symbolVariable keyerPlink)).evaluate hypothesisLinks db
      = some (.uniqueResult (.link x)) := by
    simp [DepthSymbol.evaluate, SymbolExpression.evaluate, hkeyer]
  have hterminus' : (DepthSymbol.symbol (.symbolVariable terminusPlink)).evaluate
      hypothesisLinks db = some (.uniqueResult (.link y)) := by
    simp [DepthSymbol.evaluate, SymbolExpression.evaluate, hterminus]
  have hlast' : (DepthSymbol.lastDescendant (.symbol (.symbolVariable keyerPlink))).evaluate
      hypothesisLinks db = some (.uniqueResult (.link last)) := by
    rw [DepthSymbol.evaluate, hkeyer']
    show evaluateLastDescendant db (.link x) = _
    unfold evaluateLastDescendant
    dsimp only
    rw [if_pos (show db.hasRow (.link x) = true from (db.rows.mem_keys x).mp hx), hlast]
    rfl
  -- so that the two conjuncts are the two comparisons
  unfold StuffAgent.symbolicNormalLinkedQueryPRed
  rw [BooleanExpression.satisfied_andAll, List.forall_mem_cons, List.forall_mem_singleton,
    BooleanExpression.satisfied_predicate, BooleanExpression.satisfied_predicate,
    depthPredicateEvaluate_unique .isGreaterOrEqual hterminus' hkeyer' rfl,
    depthPredicateEvaluate_unique .isLessOrEqual hterminus' hlast' rfl]
  simp [BooleanExpression.Satisfied, BooleanExpression.evaluate,
    PredicateOperator.evaluateDefined, PredicateOperator.evaluateDepthFirst]

end

/-! ## §3. Weak descent. -/

variable {V L N A M : Type} [LinearOrder L]

/-- **The descendants of a link are a depth-first interval.**  The search for the last
descendant of a link returns, and a link is that link or below it just when it is not less
than the link and not greater than its last descendant; the query of a stuff node with that
keyer and that terminus is satisfied in the same cases. -/
theorem weakDescent_interval (db : XTreeDatabase L N A) {x y : L} (hx : x ∈ db.rows.keys)
    (hy : y ∈ db.rows.keys) :
    ∃ last ∈ db.rows.keys,
      db.toXTrees.getLastDescendantXLink db.rows.keys.card x = some last
        ∧ (db.WeakDescendant x y
          ↔ (∃ d, DepthFirstRelation.compare3Way db (.link x) (.link y) = some d ∧ d ≤ 0)
            ∧ ∃ d, DepthFirstRelation.compare3Way db (.link y) (.link last) = some d ∧ d ≤ 0)
        ∧ ∀ (hypothesisLinks : StdMap V (XLink L)) (terminusPlink keyerPlink : V)
            (simpleCompare : Option N → Option N → Int) (isLocalMatch : M → Option N → Bool),
            hypothesisLinks.lookup keyerPlink = some (.link x) →
            hypothesisLinks.lookup terminusPlink = some (.link y) →
            ((StuffAgent.symbolicNormalLinkedQueryPRed terminusPlink keyerPlink).Satisfied
                (depthPredicateEvaluate hypothesisLinks db
                  (databaseKit db simpleCompare isLocalMatch))
              ↔ db.WeakDescendant x y) := by
  obtain ⟨P, hP⟩ := Position.exists_of_mem hx
  obtain ⟨Q, hQ⟩ := Position.exists_of_mem hy
  have hpos := List.length_pos_of_ne_nil hP.ne_nil
  obtain ⟨last, hlast⟩ := getLastDescendantXLink_isSome db.rows.keys.card hP (by omega)
  obtain ⟨R, hR, hdown, hmax⟩ := getLastDescendantXLink_spec _ hP hlast
  -- the weak descendants are the positions between the link's and its last descendant's
  have hbetween := weakDescendant_iff_between hP hQ hR hdown hmax
  obtain ⟨d, hd, _, hgt⟩ := DepthFirstRelation.compare3Way_total hP hQ
  obtain ⟨d', hd', hlt', _⟩ := DepthFirstRelation.compare3Way_total hQ hP
  obtain ⟨e, he, _, hgt''⟩ := DepthFirstRelation.compare3Way_total hQ hR
  have hle : d ≤ 0 ↔ P ≤ Q := by
    rw [← not_lt, hgt, not_lt]
  have hle' : 0 ≤ d' ↔ P ≤ Q := by
    rw [← not_lt, hlt', not_lt]
  have hle'' : e ≤ 0 ↔ Q ≤ R := by
    rw [← not_lt, hgt'', not_lt]
  refine ⟨last, hR.mem_keys, hlast, ?_, ?_⟩
  · rw [hbetween, hd, he]
    simp [hle, hle'']
  · intro hypothesisLinks terminusPlink keyerPlink simpleCompare isLocalMatch hkeyer hterminus
    rw [StuffAgent.satisfied_iff hx hkeyer hterminus hlast, hbetween]
    simp [databaseKit, hd', he, hle', hle'']

/-- A node whose last item is an empty collection. -/
def trailingEmpty : Layout := ⟨[.sequence [1, 2], .collection []], 2, rfl⟩

theorem weakDescent_interval_trailingEmpty :
    ∃ last ∈ (flatDatabase trailingEmpty).rows.keys,
      (flatDatabase trailingEmpty).toXTrees.getLastDescendantXLink
          (flatDatabase trailingEmpty).rows.keys.card 0 = some last
        ∧ ((flatDatabase trailingEmpty).WeakDescendant 0 2
          ↔ (∃ d, DepthFirstRelation.compare3Way (flatDatabase trailingEmpty) (.link 0) (.link 2)
              = some d ∧ d ≤ 0)
            ∧ ∃ d, DepthFirstRelation.compare3Way (flatDatabase trailingEmpty) (.link 2)
              (.link last) = some d ∧ d ≤ 0) := by
  have hroot : 0 ∈ (flatDatabase trailingEmpty).rows.keys := by decide
  have hleaf : 2 ∈ (flatDatabase trailingEmpty).rows.keys := by decide
  obtain ⟨last, hmem, hlast, hiff, _⟩ :=
    weakDescent_interval (V := Nat) (M := Unit) (flatDatabase trailingEmpty) hroot hleaf
  exact ⟨last, hmem, hlast, hiff⟩

end Inferno.Agents
