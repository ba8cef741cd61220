/-
  Inferno.SYM.PredicateOperator
  ─────────────────────────────
  `SYM::PredicateOperator`: a relation between symbol operands.

    • `PredicateKind`     — the classes of predicate_operators.cpp, each with the
                            data it compares by besides its operands,
    • `PredicateOperator` — a kind and its operands, as many as the kind takes,
    • `PredicateKit`      — what a predicate asks of the database and the nodes,
    • `evaluateOn`        — `Evaluate(kit, op_results)`: false when an operand is not
                            defined and unique.
-/
import Mathlib.Data.List.Basic

namespace Inferno.SYM

/-! ## §1. Predicates. -/

/-- The class of a predicate, over archetype nodes `A` and pattern nodes `M`. -/
inductive PredicateKind (A M : Type) where
  | isEqual
  | isGreater
  | isLess
  | isGreaterOrEqual
  | isLessOrEqual
  | isAllDiff
  | isInCategory (archetypeNode : A)
  | isChildCollectionSized (archetypeNode : A) (itemIndex : Nat) (size : Int)
  | isSimpleCompareEquivalent
  | isLocalMatch (patternNode : M)
deriving DecidableEq

/-- How many operands the constructor of the class takes. -/
def PredicateKind.Arity {A M : Type} : PredicateKind A M → Nat → Prop
  | isEqual, n => n = 2
  | isGreater, n => n = 2
  | isLess, n => n = 2
  | isGreaterOrEqual, n => n = 2
  | isLessOrEqual, n => n = 2
  | isAllDiff, n => 2 ≤ n
  | isInCategory _, n => n = 1
  | isChildCollectionSized _ _ _, n => n = 1
  | isSimpleCompareEquivalent, n => n = 2
  | isLocalMatch _, n => n = 1

instance {A M : Type} (kind : PredicateKind A M) (n : Nat) : Decidable (kind.Arity n) := by
  cases kind <;> unfold PredicateKind.Arity <;> infer_instance

/-- `SYM::PredicateOperator`, over symbol operands `S`. -/
structure PredicateOperator (S A M : Type) where
  kind : PredicateKind A M
  operands : List S
  arity : kind.Arity operands.length

instance {S A M : Type} [DecidableEq S] [DecidableEq A] [DecidableEq M] :
    DecidableEq (PredicateOperator S A M) := fun p q =>
  decidable_of_iff (p.kind = q.kind ∧ p.operands = q.operands) (by
    cases p
    cases q
    rw [PredicateOperator.mk.injEq])

/-! ## §2. Evaluation. -/

/-- What the predicates ask of the database and of the nodes under the XLinks `X`. -/
structure PredicateKit (X A M : Type) where
  /-- `DepthFirstRelation::Compare3Way`; `none` is an assertion. -/
  depthFirst : X → X → Option Int
  /-- `archetype_node->IsSubcategory( *xlink.GetChildTreePtr() )`. -/
  isSubcategory : A → X → Bool
  /-- The size of the collection at an item of the archetype's itemisation; `none` is
  an assertion. -/
  collectionSize : A → Nat → X → Option Int
  /-- `equivalence_relation.Compare3Way` of the child nodes. -/
  simpleCompare : X → X → Int
  /-- `pattern_node->IsLocalMatch( *xlink.GetChildTreePtr() )`. -/
  isLocalMatch : M → X → Bool

namespace PredicateOperator

variable {A M X : Type} [DecidableEq X]

/-- `DepthFirstComparisonOperator::Evaluate`, with the class's `EvalBoolFromDiff`. -/
def evaluateDepthFirst (kit : PredicateKit X A M) (evalBoolFromDiff : Int → Bool) :
    List X → Option Bool
  | [a, b] => (kit.depthFirst a b).map evalBoolFromDiff
  | _ => none

/-- The class's `Evaluate(kit, op_results)` on operands that are all defined and
unique. -/
def evaluateDefined (kit : PredicateKit X A M) : PredicateKind A M → List X → Option Bool
  | .isEqual, [a, b] => some (decide (a = b))
  | .isGreater, xs => evaluateDepthFirst kit (fun diff => decide (diff > 0)) xs
  | .isLess, xs => evaluateDepthFirst kit (fun diff => decide (diff < 0)) xs
  | .isGreaterOrEqual, xs => evaluateDepthFirst kit (fun diff => decide (diff ≥ 0)) xs
  | .isLessOrEqual, xs => evaluateDepthFirst kit (fun diff => decide (diff ≤ 0)) xs
  | .isAllDiff, xs => some (decide (xs.Pairwise (· ≠ ·)))
  | .isInCategory archetypeNode, [a] => some (kit.isSubcategory archetypeNode a)
  | .isChildCollectionSized archetypeNode itemIndex size, [a] =>
      if kit.isSubcategory archetypeNode a then
        (kit.collectionSize archetypeNode itemIndex a).map (fun n => decide (n = size))
      else some false
  | .isSimpleCompareEquivalent, [a, b] => some (decide (kit.simpleCompare a b = 0))
  | .isLocalMatch patternNode, [a] => some (kit.isLocalMatch patternNode a)
  | _, _ => none

/-- `Evaluate(kit, op_results)`; an operand that is not defined and unique is
`none`, and makes every class answer false. -/
def evaluateOn (kit : PredicateKit X A M) (kind : PredicateKind A M)
    (opResults : List (Option X)) : Option Bool :=
  if opResults.all Option.isSome then evaluateDefined kit kind (opResults.filterMap id)
  else some false

theorem evaluateOn_some (kit : PredicateKit X A M) (kind : PredicateKind A M) (xs : List X) :
    evaluateOn kit kind (xs.map some) = evaluateDefined kit kind xs := by
  unfold evaluateOn
  rw [if_pos (by simp), List.filterMap_map]
  simp

/-- An equation is true iff both sides are defined, and equal. -/
theorem evaluateOn_isEqual (kit : PredicateKit X A M) (a b : Option X) :
    evaluateOn kit (.isEqual : PredicateKind A M) [a, b] = some true
      ↔ ∃ x, a = some x ∧ b = some x := by
  cases a with
  | none => simp [evaluateOn]
  | some x =>
      cases b with
      | none => simp [evaluateOn]
      | some z => simp [evaluateOn, evaluateDefined, eq_comm]

theorem evaluateOn_isEqual_false (kit : PredicateKit X A M) (a b : Option X) :
    evaluateOn kit (.isEqual : PredicateKind A M) [a, b] = some false
      ↔ ¬ ∃ x, a = some x ∧ b = some x := by
  rw [← evaluateOn_isEqual kit]
  cases a with
  | none => simp [evaluateOn]
  | some x =>
      cases b with
      | none => simp [evaluateOn]
      | some z => simp [evaluateOn, evaluateDefined]

theorem evaluateOn_isLess (kit : PredicateKit X A M) (a b : X) :
    evaluateOn kit (.isLess : PredicateKind A M) [some a, some b] = some true
      ↔ ∃ diff, kit.depthFirst a b = some diff ∧ diff < 0 := by
  simp [evaluateOn, evaluateDefined, evaluateDepthFirst]

end PredicateOperator

end Inferno.SYM
