/-
  Inferno.SYM.SymbolExpression
  ────────────────────────────
  `SYM::SymbolExpression`: the operators the agents' queries navigate with.

    • `SymbolExpression`  — constants, variables, child and link-table operators,
    • `evaluate`          — `none` is a failed assertion,
    • `predicateEvaluate` — `SymbolToBooleanExpression::Evaluate` of a predicate over
                            symbol expressions, in a database,
    • lemmas that read an operator off the row or the item it looks at.
-/
import Inferno.SYM.BooleanExpression
import Inferno.SYM.PredicateOperator
import Inferno.DB.DFRelation

namespace Inferno.SYM

open Inferno.Common
open Inferno.DB

/-! ## §1. Syntax. -/

/-- The classes derived from `ChildOperator`. -/
inductive ChildKind where
  | childSequenceFront
  | childSequenceBack
  | childCollectionFront
  | singularChild
deriving DecidableEq

/-- The classes derived from `XTreeDbToSymbolOperator` that read a link's row. -/
inductive XTreeDbKind where
  | parent
  | myContainerFront
  | myContainerBack
  | mySequenceSuccessor
  | mySequencePredecessor
deriving DecidableEq

/-- `SYM::SymbolExpression`, over pattern links `V`. -/
inductive SymbolExpression (V L A : Type) where
  | symbolConstant (xlink : XLink L)
  | symbolVariable (plink : V)
  | childToSymbol (kind : ChildKind) (archetypeNode : A) (itemIndex : Nat)
      (a : SymbolExpression V L A)
  | xTreeDbToSymbol (kind : XTreeDbKind) (a : SymbolExpression V L A)
deriving DecidableEq

/-- `UniqueResult` or `EmptyResult`. -/
inductive SymbolicResult (X : Type) where
  | uniqueResult (xlink : X)
  | emptyResult
deriving DecidableEq

/-- `GetOnlyXLink()` when `IsDefinedAndUnique()`. -/
def SymbolicResult.onlyXLink {X : Type} : SymbolicResult X → Option X
  | uniqueResult xlink => some xlink
  | emptyResult => none

namespace SymbolExpression

variable {V L A N : Type} [LinearOrder L]

/-! ## §2. Evaluation. -/

/-- The constructor `XLink( const TreePtrInterface * )`; it asserts that the pointer
is not null. -/
def makeXLink (db : XTreeDatabase L N A) (l : L) : Option (XLink L) :=
  (db.childOf l).map (fun _ => .link l)

/-- `EvalFromItem`. -/
def evalFromItem (db : XTreeDatabase L N A) :
    ChildKind → Item L → Option (SymbolicResult (XLink L))
  | .childSequenceFront, .sequence ls =>
      match ls.head? with
      | none => some (.uniqueResult .OffEnd) -- OffEnd IS allowed in this case
      | some l => (makeXLink db l).map .uniqueResult
  | .childSequenceBack, .sequence ls =>
      match ls.getLast? with
      | none => some .emptyResult
      | some l => (makeXLink db l).map .uniqueResult
  | .childCollectionFront, .collection ls =>
      match ls.head? with
      | none => some .emptyResult
      | some l => (makeXLink db l).map .uniqueResult
  | .singularChild, .singular l => (makeXLink db l).map .uniqueResult
  | _, _ => none

/-- `EvalXLinkFromRow`; the inner `none` is `XLink()`. -/
def evalXLinkFromRow (db : XTreeDatabase L N A) (xlink : XLink L) (row : Row L N) :
    XTreeDbKind → Option (Option (XLink L))
  | .parent => db.tryGetParentXLink xlink
  | .myContainerFront => some row.containerFront
  | .myContainerBack => some row.containerBack
  | .mySequenceSuccessor => some row.sequenceSuccessor
  | .mySequencePredecessor => some row.sequencePredecessor

/-- `ChildToSymbolOperator::Evaluate` on a unique operand. -/
def evaluateChild (db : XTreeDatabase L N A) (kind : ChildKind) (archetypeNode : A)
    (itemIndex : Nat) (xlink : XLink L) : Option (SymbolicResult (XLink L)) := do
  let node ← db.getChildTreePtr xlink
  if db.isSubcategory archetypeNode node then do
    let item ← (db.itemiseAs archetypeNode node)[itemIndex]?
    evalFromItem db kind item
  else some .emptyResult

/-- `XTreeDbToSymbolOperator::Evaluate` on a unique operand. -/
def evaluateXTreeDb (db : XTreeDatabase L N A) (kind : XTreeDbKind) (xlink : XLink L) :
    Option (SymbolicResult (XLink L)) :=
  match db.getRow xlink with
  | none => some .emptyResult -- no row: not a link of the database
  | some row => do
      let result ← evalXLinkFromRow db xlink row kind
      match result with
      | some x => some (.uniqueResult x)
      | none => some .emptyResult

/-- `Evaluate`, with `kit.hypothesis_links` and `kit.x_tree_db`. -/
def evaluate (hypothesisLinks : StdMap V (XLink L)) (db : XTreeDatabase L N A) :
    SymbolExpression V L A → Option (SymbolicResult (XLink L))
  | symbolConstant xlink => some (.uniqueResult xlink)
  | symbolVariable plink => (hypothesisLinks.lookup plink).map .uniqueResult
  | childToSymbol kind archetypeNode itemIndex a => do
      match ← evaluate hypothesisLinks db a with
      | .uniqueResult xlink => evaluateChild db kind archetypeNode itemIndex xlink
      | .emptyResult => some .emptyResult
  | xTreeDbToSymbol kind a => do
      match ← evaluate hypothesisLinks db a with
      | .uniqueResult xlink => evaluateXTreeDb db kind xlink
      | .emptyResult => some .emptyResult

end SymbolExpression

/-! ## §3. Predicates over symbol expressions. -/

section

variable {V L A N M : Type} [LinearOrder L]

/-- The kit a database gives to the predicates.  `simpleCompare` and `isLocalMatch`
are node functions, outside the database. -/
def databaseKit (db : XTreeDatabase L N A) (simpleCompare : Option N → Option N → Int)
    (isLocalMatch : M → Option N → Bool) : PredicateKit (XLink L) A M where
  depthFirst := DepthFirstRelation.compare3Way db
  isSubcategory a x := (db.getChildTreePtr x).any (db.isSubcategory a)
  collectionSize a itemIndex x := do
    let node ← db.getChildTreePtr x
    match ← (db.itemiseAs a node)[itemIndex]? with
    | .collection ls => some (ls.length : Int)
    | _ => none
  simpleCompare x y := simpleCompare (db.getChildTreePtr x) (db.getChildTreePtr y)
  isLocalMatch m x := isLocalMatch m (db.getChildTreePtr x)

/-- `SymbolToBooleanExpression::Evaluate`: the operands, then the predicate. -/
def predicateEvaluate (hypothesisLinks : StdMap V (XLink L)) (db : XTreeDatabase L N A)
    (kit : PredicateKit (XLink L) A M) (p : PredicateOperator (SymbolExpression V L A) A M) :
    Option Bool := do
  let opResults ← p.operands.mapM (SymbolExpression.evaluate hypothesisLinks db)
  PredicateOperator.evaluateOn kit p.kind (opResults.map SymbolicResult.onlyXLink)

/-- `a == b`. -/
def isEqual (a b : SymbolExpression V L A) :
    BooleanExpression (PredicateOperator (SymbolExpression V L A) A M) :=
  .predicate ⟨.isEqual, [a, b], rfl⟩

/-- `a != b`. -/
def isNotEqual (a b : SymbolExpression V L A) :
    BooleanExpression (PredicateOperator (SymbolExpression V L A) A M) :=
  .notOp (isEqual a b)

/-- `a < b`. -/
def isLess (a b : SymbolExpression V L A) :
    BooleanExpression (PredicateOperator (SymbolExpression V L A) A M) :=
  .predicate ⟨.isLess, [a, b], rfl⟩

variable {hypothesisLinks : StdMap V (XLink L)} {db : XTreeDatabase L N A}
  {kit : PredicateKit (XLink L) A M} {a b : SymbolExpression V L A}
  {ra rb : SymbolicResult (XLink L)}

theorem satisfied_isEqual :
    (isEqual a b).Satisfied (predicateEvaluate hypothesisLinks db kit)
      ↔ ∃ x, a.evaluate hypothesisLinks db = some (.uniqueResult x)
          ∧ b.evaluate hypothesisLinks db = some (.uniqueResult x) := by
  unfold isEqual
  rw [BooleanExpression.satisfied_predicate]
  unfold predicateEvaluate
  cases ha : a.evaluate hypothesisLinks db with
  | none => simp [ha]
  | some ra =>
      cases hb : b.evaluate hypothesisLinks db with
      | none => simp [ha, hb]
      | some rb =>
          simp only [List.mapM_cons, List.mapM_nil, ha, hb, Option.bind_eq_bind, Option.bind_some,
            Option.pure_def, List.map_cons, List.map_nil,
            PredicateOperator.evaluateOn_isEqual]
          cases ra <;> cases rb <;> simp [SymbolicResult.onlyXLink]

theorem satisfied_isNotEqual (ha : a.evaluate hypothesisLinks db = some ra)
    (hb : b.evaluate hypothesisLinks db = some rb) :
    (isNotEqual a b).Satisfied (predicateEvaluate hypothesisLinks db kit)
      ↔ ¬ ∃ x, ra = .uniqueResult x ∧ rb = .uniqueResult x := by
  unfold isNotEqual
  rw [BooleanExpression.satisfied_notOp, isEqual, BooleanExpression.evaluate]
  unfold predicateEvaluate
  simp only [List.mapM_cons, List.mapM_nil, ha, hb, Option.bind_eq_bind, Option.bind_some,
    Option.pure_def, List.map_cons, List.map_nil, PredicateOperator.evaluateOn_isEqual_false]
  cases ra <;> cases rb <;> simp [SymbolicResult.onlyXLink]

theorem satisfied_isLess {x x' : XLink L}
    (ha : a.evaluate hypothesisLinks db = some (.uniqueResult x))
    (hb : b.evaluate hypothesisLinks db = some (.uniqueResult x')) :
    (isLess a b).Satisfied (predicateEvaluate hypothesisLinks db kit)
      ↔ ∃ diff, kit.depthFirst x x' = some diff ∧ diff < 0 := by
  unfold isLess
  rw [BooleanExpression.satisfied_predicate]
  unfold predicateEvaluate
  simp only [List.mapM_cons, List.mapM_nil, ha, hb, Option.bind_eq_bind, Option.bind_some,
    Option.pure_def, List.map_cons, List.map_nil, SymbolicResult.onlyXLink,
    PredicateOperator.evaluateOn_isLess]

end

end Inferno.SYM
