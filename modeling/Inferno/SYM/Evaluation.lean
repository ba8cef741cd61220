/-
  Inferno.SYM.Evaluation
  ──────────────────────
  Predicates under an evaluation of their operands.

    • `Evaluation` — a database, the node functions, and a value for each operand,
    • `TiesTransitive` — no literal that is a NaN ties with two that differ,
    • `Holds`      — a predicate is true there,
    • `holds_pair`, `Relates` — what each class of two operands says of the values,
    • `ofLinks`    — symbol expressions, evaluated at hypothesis links,
    • `ofLeaves`   — an evaluation in trees of one node each,
    • `ofLiterals` — the nodes are float literals, and `SimpleCompare` compares them.
-/
import Inferno.Helpers.SimpleCompareAlike
import Inferno.Helpers.SimpleCompareExact
import Inferno.SYM.LeafDatabase
import Inferno.SYM.SymbolExpression

namespace Inferno.SYM

open Inferno.Common
open Inferno.DB
open Inferno.Helpers
open Inferno.Lib

/-! ## §1. Evaluations. -/

/-- **An evaluation of the operands `S`**.  `isSubcategory` is `IsSubcategory` of two
archetypes; an operand that is not defined and unique has no value. -/
structure Evaluation (S A M : Type) (isSubcategory : A → A → Bool) where
  L : Type
  N : Type
  order : LinearOrder L
  db : XTreeDatabase L N A
  isSubcategory_trans : ∀ a b node, isSubcategory a b = true → db.isSubcategory b node = true →
    db.isSubcategory a node = true
  /-- `equivalence_relation.Compare3Way`.  Its ties need not be transitive: those of NaNs
  are not. -/
  simpleCompare : Option N → Option N → Int
  simpleCompare_self : ∀ x, simpleCompare x x = 0
  simpleCompare_symm : ∀ x y, simpleCompare x y = 0 → simpleCompare y x = 0
  isLocalMatch : M → Option N → Bool
  value : S → Option (XLink L)

namespace Evaluation

variable {S A M : Type} {isSubcategory : A → A → Bool}

instance (e : Evaluation S A M isSubcategory) : LinearOrder e.L := e.order

/-- What the predicates ask. -/
def kit (e : Evaluation S A M isSubcategory) : PredicateKit (XLink e.L) A M :=
  databaseKit e.db e.simpleCompare e.isLocalMatch

/-- **The predicate is true.** -/
def Holds (e : Evaluation S A M isSubcategory) (p : PredicateOperator S A M) : Prop :=
  PredicateOperator.evaluateOn e.kit p.kind (p.operands.map e.value) = some true

variable (e : Evaluation S A M isSubcategory)

/-- The ties of `SimpleCompare` are transitive as well. -/
def TiesTransitive : Prop :=
  ∀ x y z, e.simpleCompare x y = 0 → e.simpleCompare y z = 0 → e.simpleCompare x z = 0

/-- What a class of two operands says of their values. -/
def Relates : PredicateKind A M → XLink e.L → XLink e.L → Prop
  | .isEqual, x, y => x = y
  | .isGreater, x, y => Below e.kit.depthFirst y x
  | .isLess, x, y => Below e.kit.depthFirst x y
  | .isGreaterOrEqual, x, y => x = y ∨ Below e.kit.depthFirst y x
  | .isLessOrEqual, x, y => x = y ∨ Below e.kit.depthFirst x y
  | .isAllDiff, x, y => x ≠ y
  | .isSimpleCompareEquivalent, x, y => e.kit.simpleCompare x y = 0
  | .isInCategory _, _, _ => False
  | .isChildCollectionSized _ _ _, _, _ => False
  | .isLocalMatch _, _, _ => False

theorem threeWay : ThreeWay e.kit.depthFirst :=
  DepthFirstRelation.compare3Way_threeWay e.db

theorem evaluateDefined_pair (kind : PredicateKind A M) (x y : XLink e.L) :
    PredicateOperator.evaluateDefined e.kit kind [x, y] = some true ↔ e.Relates kind x y := by
  cases kind with
  | isEqual => simp [PredicateOperator.evaluateDefined, Relates]
  | isGreater => exact e.threeWay.greater_iff x y
  | isLess => exact ThreeWay.less_iff x y
  | isGreaterOrEqual => exact e.threeWay.greaterOrEqual_iff x y
  | isLessOrEqual => exact e.threeWay.lessOrEqual_iff x y
  | isAllDiff => simp [PredicateOperator.evaluateDefined, Relates]
  | isSimpleCompareEquivalent => simp [PredicateOperator.evaluateDefined, Relates]
  | isInCategory a => simp [PredicateOperator.evaluateDefined, Relates]
  | isChildCollectionSized a i n => simp [PredicateOperator.evaluateDefined, Relates]
  | isLocalMatch m => simp [PredicateOperator.evaluateDefined, Relates]

/-! ## §2. When predicates hold. -/

/-- Every operand has a value, and the class's own `Evaluate` says true of the values. -/
theorem holds_iff (p : PredicateOperator S A M) : e.Holds p ↔
    ∃ xs, p.operands.map e.value = xs.map some
      ∧ PredicateOperator.evaluateDefined e.kit p.kind xs = some true := by
  constructor
  · intro h
    unfold Holds PredicateOperator.evaluateOn at h
    split at h
    next hall =>
      refine ⟨_, ?_, h⟩
      generalize p.operands.map e.value = rs at hall ⊢
      induction rs with
      | nil => rfl
      | cons r rs ih =>
          rw [List.all_cons, Bool.and_eq_true] at hall
          obtain ⟨x, rfl⟩ := Option.isSome_iff_exists.mp hall.1
          show some x :: rs = some x :: (rs.filterMap id).map some
          rw [← ih hall.2]
    next => exact absurd h (by simp)
  · rintro ⟨xs, hxs, h⟩
    unfold Holds
    rw [hxs, PredicateOperator.evaluateOn_some, h]

/-- A predicate of two operands holds when they have values that it relates. -/
theorem holds_pair {p : PredicateOperator S A M} {a b : S} (hp : p.operands = [a, b]) :
    e.Holds p ↔ ∃ x y, e.value a = some x ∧ e.value b = some y ∧ e.Relates p.kind x y := by
  rw [holds_iff, hp]
  constructor
  · rintro ⟨xs, hxs, h⟩
    have hlen := congrArg List.length hxs
    rw [List.length_map, List.length_map] at hlen
    obtain ⟨x, y, rfl⟩ := List.length_eq_two.mp hlen.symm
    simp only [List.map_cons, List.map_nil, List.cons.injEq, and_true] at hxs
    exact ⟨x, y, hxs.1, hxs.2, (e.evaluateDefined_pair p.kind x y).mp h⟩
  · rintro ⟨x, y, hx, hy, h⟩
    refine ⟨[x, y], ?_, (e.evaluateDefined_pair p.kind x y).mpr h⟩
    simp [hx, hy]

/-- Predicates of one class and equal values hold together. -/
theorem holds_congr {p q : PredicateOperator S A M} (hkind : p.kind = q.kind)
    (hvalues : p.operands.map e.value = q.operands.map e.value) : e.Holds p ↔ e.Holds q := by
  unfold Holds
  rw [hkind, hvalues]

end Evaluation

/-! ## §3. Symbol expressions. -/

section

variable {V L N A M : Type} [LinearOrder L] {isSubcategory : A → A → Bool}

/-- The values of symbol expressions at hypothesis links. -/
def Evaluation.ofLinks (hypothesisLinks : StdMap V (XLink L)) (db : XTreeDatabase L N A)
    (htrans : ∀ a b node, isSubcategory a b = true → db.isSubcategory b node = true →
      db.isSubcategory a node = true)
    (simpleCompare : Option N → Option N → Int) (hself : ∀ x, simpleCompare x x = 0)
    (hsymm : ∀ x y, simpleCompare x y = 0 → simpleCompare y x = 0)
    (isLocalMatch : M → Option N → Bool) :
    Evaluation (SymbolExpression V L A) A M isSubcategory where
  L := L
  N := N
  order := inferInstance
  db := db
  isSubcategory_trans := htrans
  simpleCompare := simpleCompare
  simpleCompare_self := hself
  simpleCompare_symm := hsymm
  isLocalMatch := isLocalMatch
  value s := (s.evaluate hypothesisLinks db).bind SymbolicResult.onlyXLink

/-- **A predicate holds at hypothesis links when it evaluates to true there.** -/
theorem Evaluation.holds_ofLinks {hypothesisLinks : StdMap V (XLink L)}
    {db : XTreeDatabase L N A}
    {htrans : ∀ a b node, isSubcategory a b = true → db.isSubcategory b node = true →
      db.isSubcategory a node = true}
    {simpleCompare : Option N → Option N → Int} {hself : ∀ x, simpleCompare x x = 0}
    {hsymm : ∀ x y, simpleCompare x y = 0 → simpleCompare y x = 0}
    {isLocalMatch : M → Option N → Bool}
    {p : PredicateOperator (SymbolExpression V L A) A M} {b : Bool}
    (h : predicateEvaluate hypothesisLinks db (databaseKit db simpleCompare isLocalMatch) p
      = some b) :
    (Evaluation.ofLinks hypothesisLinks db htrans simpleCompare hself hsymm isLocalMatch).Holds p
      ↔ b = true := by
  obtain ⟨opResults, hops, h⟩ := Option.bind_eq_some_iff.mp h
  -- what the operands evaluate to is what the predicate is asked about
  have hvalues : ∀ (ops : List (SymbolExpression V L A)) rs,
      ops.mapM (SymbolExpression.evaluate hypothesisLinks db) = some rs →
      ops.map (fun s => (s.evaluate hypothesisLinks db).bind SymbolicResult.onlyXLink)
        = rs.map SymbolicResult.onlyXLink := by
    intro ops
    induction ops with
    | nil =>
        intro rs hrs
        cases hrs
        rfl
    | cons s ops ih =>
        intro rs hrs
        rw [List.mapM_cons] at hrs
        obtain ⟨r, hr, hrs⟩ := Option.bind_eq_some_iff.mp hrs
        obtain ⟨rs', hrs', hrs⟩ := Option.bind_eq_some_iff.mp hrs
        cases hrs
        rw [List.map_cons, List.map_cons, ih rs' hrs', hr, Option.bind_some]
  unfold Evaluation.Holds
  show PredicateOperator.evaluateOn _ p.kind (p.operands.map
    (fun s => (s.evaluate hypothesisLinks db).bind SymbolicResult.onlyXLink)) = some true ↔ _
  rw [hvalues p.operands opResults hops, ← Option.some_inj (a := b), ← h]
  exact Iff.rfl

end

/-! ## §4. Evaluations in leaves. -/

section

variable {S A M : Type} {isSubcategory : A → A → Bool}

/-- Trees of one node each, no two of them equivalent; each operand is the root of a
tree, or has no value. -/
def Evaluation.ofLeaves (n : Nat) (tree : S → Option Nat) :
    Evaluation S A M isSubcategory where
  L := Nat
  N := Nat
  order := inferInstance
  db := leaves A n
  isSubcategory_trans _ _ _ _ h := absurd h (by simp [leaves, leafDatabase, leafTrees,
    overArchetypes, XTrees.overArchetypes])
  simpleCompare x y := if x = y then 0 else 1
  simpleCompare_self x := if_pos rfl
  simpleCompare_symm x y h := by
    have hxy : x = y := by simpa using h
    exact if_pos hxy.symm
  isLocalMatch _ _ := true
  value s := (tree s).map XLink.link

/-- No two of the leaves tie. -/
theorem ofLeaves_tiesTransitive (n : Nat) (tree : S → Option Nat) :
    (Evaluation.ofLeaves n tree : Evaluation S A M isSubcategory).TiesTransitive := by
  intro x y z h h'
  have hxy : x = y := by simpa [Evaluation.ofLeaves] using h
  rw [hxy]
  exact h'

/-- Nodes that are float literals. -/
def floatLeaves (literal : Nat → APFloat) : TreeNodes Nat :=
  leafNodes (fun x => .float (literal x)) fun _ _ => rfl

/-- Trees of one node each, which is a float literal; each operand is the root of a tree. -/
def Evaluation.ofLiterals (n : Nat) (literal : Nat → APFloat) (tree : S → Nat) :
    Evaluation S A M isSubcategory where
  L := Nat
  N := Nat
  order := inferInstance
  db := leaves A n
  isSubcategory_trans _ _ _ _ h := absurd h (by simp [leaves, leafDatabase, leafTrees,
    overArchetypes, XTrees.overArchetypes])
  simpleCompare := SimpleCompare.compareTreePtr
    (SimpleCompare.compare3Way (floatLeaves literal) .TOTAL)
  simpleCompare_self x := SimpleCompare.compareTreePtr_self
    (SimpleCompare.compare3Way_self (floatLeaves literal) .TOTAL) x
  simpleCompare_symm _ _ h := SimpleCompare.compareTreePtr_symm
    (fun _ _ => SimpleCompare.compare3Way_symm) h
  isLocalMatch _ _ := true
  value s := some (.link (tree s))

/-- The roots of two trees tie when their literals do. -/
theorem ofLiterals_tie {n : Nat} {literal : Nat → APFloat} {tree : S → Nat} {i j : Nat}
    (hi : i < n) (hj : j < n) :
    (Evaluation.ofLiterals n literal tree : Evaluation S A M isSubcategory).kit.simpleCompare
      (.link i) (.link j) = (literal i).orderCompare (literal j) := by
  have hchild : ∀ k, k < n → (leaves A n).getChildTreePtr (.link k) = some k :=
    fun k hk => if_pos hk
  show SimpleCompare.compareTreePtr _ ((leaves A n).getChildTreePtr (.link i))
    ((leaves A n).getChildTreePtr (.link j)) = _
  rw [hchild i hi, hchild j hj]
  exact SimpleCompare.compare3Way_float rfl rfl

end

end Inferno.SYM
