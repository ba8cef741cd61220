/-
  Inferno.SYM.TruthTableSolver
  ────────────────────────────
  `SYM::TruthTableWithPredicates`, and the pre-solve of `SYM::TruthTableSolver`.

    • `EqualPredicateSet`, `Layout` — predicates that are equal by `Expression::Relation`;
                                      what their order and their addresses decide,
    • `getPredicates`               — one set for each predicate of the expression,
    • `constrainUsingDerived`       — extend by derived predicates, exclude the rows that
                                      break a rule, fold,
    • `constrainByEvaluating`       — evaluate with the predicates forced,
    • `preSolve`, `getAltExpressionForTesting`.
-/
import Inferno.SYM.BooleanExpression
import Inferno.SYM.Derivation
import Inferno.SYM.TruthTable

namespace Inferno.SYM

open Inferno.Common

variable {S A M : Type} [DecidableEq S] [DecidableEq A] [DecidableEq M]

/-! ## §1. Equal predicates. -/

/-- **`EqualPredicateSet`**: predicates that are equal by `Expression::Relation`. -/
structure EqualPredicateSet (S A M : Type) [DecidableEq S] where
  preds : List (PredicateOperator S A M)
  preds_ne_nil : preds ≠ []
  equal : ∀ p ∈ preds, ∀ q ∈ preds, p.orderKey = q.orderKey

/-- What a run depends on besides the expression: the order that `Expression::Relation`
walks keys in, which goes by the compiler's type order, and which of some predicates
has the lowest address. -/
structure Layout (S A M : Type) [DecidableEq S] where
  walk : Finset (PredicateKind A M × OperandKey S) → List (PredicateKind A M × OperandKey S)
  mem_walk : ∀ ks k, k ∈ walk ks ↔ k ∈ ks
  nodup_walk : ∀ ks, (walk ks).Nodup
  lowestAddress : (l : List (PredicateOperator S A M)) → l ≠ [] → PredicateOperator S A M
  lowestAddress_mem : ∀ l h, lowestAddress l h ∈ l

/-- `FrontOf` a set of pointers. -/
def EqualPredicateSet.front (layout : Layout S A M) (s : EqualPredicateSet S A M) :
    PredicateOperator S A M :=
  layout.lowestAddress s.preds s.preds_ne_nil

/-- Those of the predicates `ps` that have the key `k`. -/
def EqualPredicateSet.ofKey (ps : List (PredicateOperator S A M))
    (k : PredicateKind A M × OperandKey S) (h : ∃ p ∈ ps, p.orderKey = k) :
    EqualPredicateSet S A M where
  preds := ps.filter (fun p => p.orderKey = k)
  preds_ne_nil := by
    obtain ⟨p, hp, hkey⟩ := h
    exact List.ne_nil_of_mem (List.mem_filter.mpr ⟨hp, decide_eq_true hkey⟩)
  equal := by
    intro p hp q hq
    rw [List.mem_filter, decide_eq_true_iff] at hp hq
    rw [hp.2, hq.2]

theorem Layout.exists_of_mem_walk (layout : Layout S A M) {ps : List (PredicateOperator S A M)}
    {k : PredicateKind A M × OperandKey S}
    (h : k ∈ layout.walk (ps.map PredicateOperator.orderKey).toFinset) :
    ∃ p ∈ ps, p.orderKey = k :=
  List.mem_map.mp (List.mem_toFinset.mp ((layout.mem_walk _ _).mp h))

/-- A map from a predicate to the set of those equal to it, walked in order. -/
def groupByEquality (layout : Layout S A M) (ps : List (PredicateOperator S A M)) :
    List (EqualPredicateSet S A M) :=
  (layout.walk (ps.map PredicateOperator.orderKey).toFinset).attach.map fun k =>
    .ofKey ps k.1 (layout.exists_of_mem_walk k.2)

/-- `PredicateAnalysis::GetPredicates`. -/
def getPredicates (layout : Layout S A M)
    (expr : BooleanExpression (PredicateOperator S A M)) : List (EqualPredicateSet S A M) :=
  groupByEquality layout expr.predicates

/-! ## §2. `TruthTableWithPredicates`. -/

/-- **`TruthTableWithPredicates`**: an axis for each set; `GetDegree` asserts that the
degrees agree. -/
structure TruthTableWithPredicates (S A M : Type) [DecidableEq S] where
  predicates : List (EqualPredicateSet S A M)
  truthTable : TruthTable
  degree_eq : truthTable.degree = predicates.length

/-- `UpdatePredToIndex`. -/
def predToIndex (layout : Layout S A M) (predicates : List (EqualPredicateSet S A M)) :
    StdMap (PredicateKind A M × OperandKey S) Nat :=
  predicates.zipIdx.foldl (fun m p => m.set (p.1.front layout).orderKey p.2) StdMap.empty

namespace TruthTableWithPredicates

/-- The assertion of `GetDegree`. -/
def ofTable (predicates : List (EqualPredicateSet S A M)) (truthTable : TruthTable) :
    Option (TruthTableWithPredicates S A M) :=
  if h : truthTable.degree = predicates.length then some ⟨predicates, truthTable, h⟩ else none

/-- `Extend`. -/
def extend (ttwp : TruthTableWithPredicates S A M)
    (newPredicates : List (EqualPredicateSet S A M)) : TruthTableWithPredicates S A M :=
  ⟨ttwp.predicates ++ newPredicates, ttwp.truthTable.extend newPredicates.length, by
    rw [TruthTable.degree_extend, ttwp.degree_eq, List.length_append]⟩

/-- `GetFolded`. -/
def getFolded (ttwp : TruthTableWithPredicates S A M) (foldAxes : Finset Nat) :
    Option (TruthTableWithPredicates S A M) := do
  let newPredicates :=
    (TruthTable.destAxes ttwp.predicates.length foldAxes).filterMap (ttwp.predicates[·]?)
  let newTt ← ttwp.truthTable.getFolded foldAxes
  ofTable newPredicates newTt

end TruthTableWithPredicates

/-! ## §3. `ConstrainUsingDerived`. -/

/-- The two loops over axes, without `i == j`. -/
def axisPairs (degree : Nat) : List (Nat × Nat) :=
  (List.range degree).flatMap fun i =>
    ((List.range degree).filter (fun j => decide (i ≠ j))).map fun j => (i, j)

/-- One turn of the first loop: an extrapolation, with its initial predicates. -/
def tryExtrapolate (layout : Layout S A M) (predicates : List (EqualPredicateSet S A M))
    (ij : Nat × Nat) : Option (Option (PredicateOperator S A M × Finset Nat)) := do
  let si ← predicates[ij.1]?
  let sj ← predicates[ij.2]?
  let pk ← tryDerivePredicate (si.front layout) (sj.front layout)
  some (pk.bind fun pk =>
    if pk.orderKey ∈ (predToIndex layout predicates).keys then none
    else some (pk, {ij.1, ij.2}))

/-- The extrapolations that are reached from at least two sets of initial predicates. -/
def derivedPreds (layout : Layout S A M) (predicates : List (EqualPredicateSet S A M)) :
    Option (List (EqualPredicateSet S A M)) := do
  let found ← (axisPairs predicates.length).mapM (tryExtrapolate layout predicates)
  let derived := found.filterMap id
  some ((groupByEquality layout (derived.map (·.1))).filter fun s =>
    let initIndices := (derived.filter (fun d => d.1 ∈ s.preds)).map (·.2)
    decide (2 ≤ initIndices.toFinset.card))

/-- The policy for extending the truth table: the predicates it is extended by. -/
def addedPreds (layout : Layout S A M) (predicates : List (EqualPredicateSet S A M)) :
    Option (List (EqualPredicateSet S A M)) := do
  let derived ← derivedPreds layout predicates
  if 0 < derived.length ∧ predicates.length + derived.length ≤ 10 then some derived
  else some []

/-- The `switch` on the relationship of two axes. -/
def enforceRelationship (t : TruthTable) (i j : Nat) : Relationship → Option TruthTable
  | .NONE => some t
  | .CONTRADICTS => t.setSlice (sliceSpec [(i, true), (j, true)]) .DONT_CARE
  | .IMPLIES => t.setSlice (sliceSpec [(i, true), (j, false)]) .DONT_CARE

/-- Disallow all combinations that contradict the implication of a derived predicate
that has an axis. -/
def enforceDerivation (layout : Layout S A M) (predicates : List (EqualPredicateSet S A M))
    (t : TruthTable) (i j : Nat) : Option (PredicateOperator S A M) → Option TruthTable
  | none => some t
  | some pk =>
      match (predToIndex layout predicates).lookup pk.orderKey with
      | none => some t
      | some k => t.setSlice (sliceSpec [(i, true), (j, true), (k, false)]) .DONT_CARE

/-- One turn of the second loop. -/
def enforce (layout : Layout S A M) (isSubcategory : A → A → Bool)
    (predicates : List (EqualPredicateSet S A M)) (t : TruthTable) (ij : Nat × Nat) :
    Option TruthTable := do
  let si ← predicates[ij.1]?
  let sj ← predicates[ij.2]?
  let rij ← tryDeriveRelationship isSubcategory (si.front layout) (sj.front layout)
  let t ← enforceRelationship t ij.1 ij.2 rij
  let pk ← tryDerivePredicate (si.front layout) (sj.front layout)
  enforceDerivation layout predicates t ij.1 ij.2 pk

/-- `ConstrainUsingDerived`; it folds when it extended. -/
def constrainUsingDerived (layout : Layout S A M) (isSubcategory : A → A → Bool)
    (ttwp : TruthTableWithPredicates S A M) : Option (TruthTableWithPredicates S A M) := do
  let added ← addedPreds layout ttwp.predicates
  let extended := ttwp.extend added
  let t ← (axisPairs extended.predicates.length).foldlM
    (enforce layout isSubcategory extended.predicates) extended.truthTable
  let constrained ← TruthTableWithPredicates.ofTable extended.predicates t
  let foldAxes := (Finset.range added.length).image (fun k => ttwp.predicates.length + k)
  if added.isEmpty then some constrained else constrained.getFolded foldAxes

/-! ## §4. `ConstrainByEvaluating`. -/

/-- What `SetForceExpression` forces a predicate to. -/
def forceExpression (predicates : List (EqualPredicateSet S A M)) (indices : List Bool)
    (p : PredicateOperator S A M) : Option Bool :=
  (((predicates.zip indices).filter (fun a => decide (p ∈ a.1.preds))).getLast?).map (·.2)

/-- One turn of the loop of `ConstrainByEvaluating`. -/
def evaluateCell (expr : BooleanExpression (PredicateOperator S A M))
    (predicates : List (EqualPredicateSet S A M)) (t : TruthTable) (indices : List Bool) :
    Option TruthTable := do
  let cell ← t.get indices
  if cell = .TRUE then
    let evalResult ← expr.evaluate (forceExpression predicates indices)
    if evalResult then some t else t.set indices .FALSE
  else some t

/-- `ConstrainByEvaluating`. -/
def constrainByEvaluating (expr : BooleanExpression (PredicateOperator S A M))
    (ttwp : TruthTableWithPredicates S A M) : Option (TruthTableWithPredicates S A M) := do
  let t ← (forPower ttwp.predicates.length indexRangeBool).foldlM
    (evaluateCell expr ttwp.predicates) ttwp.truthTable
  TruthTableWithPredicates.ofTable ttwp.predicates t

/-! ## §5. `PreSolve`. -/

/-- **`PreSolve`**. -/
def preSolve (layout : Layout S A M) (isSubcategory : A → A → Bool)
    (expr : BooleanExpression (PredicateOperator S A M)) :
    Option (TruthTableWithPredicates S A M) := do
  let predicates := getPredicates layout expr
  let ttwp ← TruthTableWithPredicates.ofTable predicates
    (TruthTable.make predicates.length .TRUE)
  let ttwp ← constrainUsingDerived layout isSubcategory ttwp
  constrainByEvaluating expr ttwp

/-- `GetAltExpressionForTesting`; the last line is the assertion of the constructor of
`Multiplexor`. -/
def getAltExpressionForTesting (layout : Layout S A M)
    (ttwp : TruthTableWithPredicates S A M) :
    Option (BooleanExpression (PredicateOperator S A M)) := do
  let controls := ttwp.predicates.map (fun s => BooleanExpression.predicate (s.front layout))
  let options ← (forPower ttwp.predicates.length indexRangeBool).mapM fun indices => do
    let cellValue ← ttwp.truthTable.get indices
    some (BooleanExpression.constant (decide (cellValue = .TRUE)))
  ASSERT (options.length = 2 ^ controls.length)
  some (.multiplexor controls options)

end Inferno.SYM
