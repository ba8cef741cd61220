/-
  Inferno.SYM.PreSolveDatabase
  ────────────────────────────
  **`PreSolve` AGAINST A DATABASE.**

    • `predicateEvaluate_congr`     — predicates equal by `Expression::Relation` evaluate
                                      alike, when no operand occurs twice,
    • `preSolve_exact`              — the actual row holds the value of the expression
                                      exactly when it survives the enforced rules,
    • `equality_substitution_loses_row` — a row that does not survive: the substitution
                                      of an equation makes `b >= b` an axis, and from it
                                      and `b >= c` the code derives `c >= b`.
-/
import Inferno.SYM.LeafDatabase
import Inferno.SYM.PreSolveExact
import Inferno.SYM.SymbolExpression
import Mathlib.Data.List.Perm.Basic

namespace Inferno.SYM

open Inferno.Common
open Inferno.DB

/-! ## §1. Equal predicates evaluate alike. -/

section

variable {X A M : Type} [DecidableEq X] {kit : PredicateKit X A M}

theorem perm_pair {α : Type} {a b c d : α} (h : [a, b].Perm [c, d]) :
    (a = c ∧ b = d) ∨ (a = d ∧ b = c) := by
  have ha : a ∈ [c, d] := h.subset List.mem_cons_self
  rcases List.mem_cons.mp ha with rfl | ha
  · have hb := List.perm_cons a |>.mp h
    exact Or.inl ⟨rfl, by simpa using hb⟩
  · obtain rfl : a = d := List.mem_singleton.mp ha
    have hb := List.perm_cons a |>.mp (h.trans (List.Perm.swap a c []))
    exact Or.inr ⟨rfl, by simpa using hb⟩

/-- A commutative class answers the same on its operands in another order. -/
theorem evaluateDefined_perm (hsymm : ∀ x y, kit.simpleCompare x y = 0 → kit.simpleCompare y x = 0)
    {kind : PredicateKind A M} (hcomm : kind.isCommutative = true) {xs ys : List X}
    (h : xs.Perm ys) : PredicateOperator.evaluateDefined kit kind xs
      = PredicateOperator.evaluateDefined kit kind ys := by
  -- a class of two operands, which may be exchanged
  have hpair (f : X → X → Option Bool) (hf : ∀ a b, f a b = f b a)
      (htwo : ∀ a b, PredicateOperator.evaluateDefined kit kind [a, b] = f a b)
      (hother : ∀ zs : List X, zs.length ≠ 2 →
        PredicateOperator.evaluateDefined kit kind zs = none) :
      PredicateOperator.evaluateDefined kit kind xs
        = PredicateOperator.evaluateDefined kit kind ys := by
    by_cases hlen : xs.length = 2
    · obtain ⟨a, b, rfl⟩ := List.length_eq_two.mp hlen
      obtain ⟨c, d, rfl⟩ := List.length_eq_two.mp (h.length_eq.symm.trans hlen)
      rw [htwo, htwo]
      rcases perm_pair h with ⟨rfl, rfl⟩ | ⟨rfl, rfl⟩
      · rfl
      · exact hf a b
    · rw [hother xs hlen, hother ys (h.length_eq ▸ hlen)]
  cases kind with
  | isEqual =>
      apply hpair (fun a b => some (decide (a = b)))
      · intro a b
        simp [eq_comm]
      · exact fun _ _ => rfl
      · intro zs hzs
        rcases zs with _ | ⟨a, _ | ⟨b, _ | ⟨c, zs⟩⟩⟩
        · rfl
        · rfl
        · exact absurd rfl hzs
        · rfl
  -- all different: in any order
  | isAllDiff =>
      show some (decide (xs.Pairwise (· ≠ ·))) = some (decide (ys.Pairwise (· ≠ ·)))
      rw [Option.some.injEq, decide_eq_decide]
      exact h.pairwise_iff (fun hne => hne.symm)
  | isSimpleCompareEquivalent =>
      apply hpair (fun a b => some (decide (kit.simpleCompare a b = 0)))
      · intro a b
        rw [Option.some.injEq, decide_eq_decide]
        exact ⟨hsymm a b, hsymm b a⟩
      · exact fun _ _ => rfl
      · intro zs hzs
        rcases zs with _ | ⟨a, _ | ⟨b, _ | ⟨c, zs⟩⟩⟩
        · rfl
        · rfl
        · exact absurd rfl hzs
        · rfl
  | _ => exact absurd hcomm (by simp [PredicateKind.isCommutative])

theorem evaluateOn_perm (hsymm : ∀ x y, kit.simpleCompare x y = 0 → kit.simpleCompare y x = 0)
    {kind : PredicateKind A M} (hcomm : kind.isCommutative = true) {rs rs' : List (Option X)}
    (h : rs.Perm rs') : PredicateOperator.evaluateOn kit kind rs
      = PredicateOperator.evaluateOn kit kind rs' := by
  have hall : rs.all Option.isSome = rs'.all Option.isSome := by
    rw [Bool.eq_iff_iff, List.all_eq_true, List.all_eq_true]
    exact ⟨fun hr x hx => hr x (h.mem_iff.mpr hx), fun hr x hx => hr x (h.mem_iff.mp hx)⟩
  unfold PredicateOperator.evaluateOn
  rw [hall, evaluateDefined_perm hsymm hcomm (h.filterMap id)]

end

section

variable {V L A N M : Type} [LinearOrder L] [DecidableEq V] [DecidableEq A] [DecidableEq M]

omit [DecidableEq M] in
/-- **Predicates equal by `Expression::Relation` evaluate alike**, when no operand
occurs twice in them. -/
theorem predicateEvaluate_congr (hypothesisLinks : StdMap V (XLink L)) (db : XTreeDatabase L N A)
    {kit : PredicateKit (XLink L) A M}
    (hsymm : ∀ x y, kit.simpleCompare x y = 0 → kit.simpleCompare y x = 0)
    {p q : PredicateOperator (SymbolExpression V L A) A M} (hp : p.operands.Nodup)
    (hq : q.operands.Nodup) (hkey : p.orderKey = q.orderKey) :
    predicateEvaluate hypothesisLinks db kit p = predicateEvaluate hypothesisLinks db kit q := by
  obtain ⟨hkind, hoperands⟩ := Prod.mk.inj hkey
  unfold predicateEvaluate
  rw [← hkind] at hoperands ⊢
  by_cases hcomm : p.kind.isCommutative = true
  · rw [if_pos hcomm, if_pos hcomm, OperandKey.unordered.injEq] at hoperands
    have hperm : p.operands.Perm q.operands :=
      (List.perm_ext_iff_of_nodup hp hq).mpr (fun s => by
        rw [← List.mem_toFinset, hoperands, List.mem_toFinset])
    rw [mapM_eq_filterMap, mapM_eq_filterMap]
    by_cases hsome : ∀ s ∈ p.operands, (s.evaluate hypothesisLinks db).isSome
    · rw [if_pos hsome, if_pos (fun s hs => hsome s (hperm.mem_iff.mpr hs))]
      exact evaluateOn_perm hsymm hcomm ((hperm.filterMap _).map _)
    · rw [if_neg hsome, if_neg (fun h => hsome (fun s hs => h s (hperm.mem_iff.mp hs)))]
  · rw [if_neg hcomm, if_neg hcomm, OperandKey.inOrder.injEq] at hoperands
    rw [hoperands]

/-! ## §2. The main theorem. -/

/-- **`PreSolve` preserves the meaning of the rows that survive its rules.**  For any
expression over predicates without repeated operands, any database and any assignment
that gives each predicate a truth value: `PreSolve` returns, and the cell at the actual
truth values holds the value of the expression, with the alternative expression
evaluating to it, exactly when the predicates that the table was extended by can be
given truth values with which no enforced rule excludes the row. -/
theorem preSolve_exact
    (layout : Layout (SymbolExpression V L A) A M) (isSubcategory : A → A → Bool)
    (hypothesisLinks : StdMap V (XLink L)) (db : XTreeDatabase L N A)
    (kit : PredicateKit (XLink L) A M)
    (hsymm : ∀ x y, kit.simpleCompare x y = 0 → kit.simpleCompare y x = 0)
    (expr : BooleanExpression (PredicateOperator (SymbolExpression V L A) A M))
    (hconstructed : expr.Constructed) (hrepeat : ∀ p ∈ expr.predicates, p.operands.Nodup)
    (hdefined : ∀ p ∈ expr.predicates, ∃ b, predicateEvaluate hypothesisLinks db kit p = some b) :
    ∃ added ttwp actual result alt,
      addedPreds layout (getPredicates layout expr) = some added
      ∧ preSolve layout isSubcategory expr = some ttwp
      ∧ ttwp.predicates = getPredicates layout expr
      ∧ ttwp.predicates.mapM (fun s => predicateEvaluate hypothesisLinks db kit (s.front layout))
          = some actual
      ∧ expr.evaluate (predicateEvaluate hypothesisLinks db kit) = some result
      ∧ getAltExpressionForTesting layout ttwp = some alt
      ∧ ((ttwp.truthTable.get actual = some (if result then .TRUE else .FALSE)
            ∧ alt.evaluate (predicateEvaluate hypothesisLinks db kit) = some result)
          ↔ Survives layout isSubcategory ttwp.predicates added actual) := by
  -- equal predicates evaluate alike, with a kit that is symmetric
  obtain ⟨added, ttwp, actual, result, alt, hadded, hpre, hpreds, hactual, hresult, halt, hyes,
      hno⟩ :=
    preSolve_spec layout isSubcategory hconstructed hdefined
      (fun p hp q hq => predicateEvaluate_congr hypothesisLinks db hsymm (hrepeat p hp)
        (hrepeat q hq))
  refine ⟨added, ttwp, actual, result, alt, hadded, hpre, hpreds, hactual, hresult, halt, ?_⟩
  constructor
  · intro h
    -- a row that does not survive is DONT_CARE
    by_contra hnot
    have hcell := h.1
    rw [hno hnot] at hcell
    cases result <;> simp at hcell
  · exact hyes

end

/-! ## §3. A row that is lost. -/

/-- A layout that walks the keys of a list in its order, with the first predicate at
the lowest address. -/
noncomputable def Layout.ofList {S A M : Type} [DecidableEq S] [DecidableEq A] [DecidableEq M]
    (keys : List (PredicateKind A M × OperandKey S)) (hkeys : keys.Nodup) : Layout S A M where
  walk ks := if ks ⊆ keys.toFinset then keys.filter (· ∈ ks) else ks.toList
  mem_walk ks k := by
    by_cases h : ks ⊆ keys.toFinset
    · rw [if_pos h, List.mem_filter, decide_eq_true_iff]
      exact ⟨fun hk => hk.2, fun hk => ⟨List.mem_toFinset.mp (h hk), hk⟩⟩
    · rw [if_neg h, Finset.mem_toList]
  nodup_walk ks := by
    by_cases h : ks ⊆ keys.toFinset
    · rw [if_pos h]
      exact hkeys.filter _
    · rw [if_neg h]
      exact ks.nodup_toList
  lowestAddress l h := l.head h
  lowestAddress_mem l h := List.head_mem h

/-- A variable. -/
def var (plink : Nat) : SymbolExpression Nat Nat Unit := .symbolVariable plink

/-- `a == b`, `a >= b`, `a > b`. -/
def equal (a b : Nat) : PredicateOperator (SymbolExpression Nat Nat Unit) Unit Unit :=
  ⟨.isEqual, [var a, var b], rfl⟩

def greaterOrEqual (a b : Nat) : PredicateOperator (SymbolExpression Nat Nat Unit) Unit Unit :=
  ⟨.isGreaterOrEqual, [var a, var b], rfl⟩

def greater (a b : Nat) : PredicateOperator (SymbolExpression Nat Nat Unit) Unit Unit :=
  ⟨.isGreater, [var a, var b], rfl⟩

/-- `a == b` and the comparisons of three variables. -/
def lostKeys : List (PredicateKind Unit Unit × OperandKey (SymbolExpression Nat Nat Unit)) :=
  (equal 0 1 :: (List.range 3).flatMap fun a => (List.range 3).map (greaterOrEqual a)).map
    PredicateOperator.orderKey

noncomputable def lostLayout : Layout (SymbolExpression Nat Nat Unit) Unit Unit :=
  .ofList lostKeys (by decide)

/-- `a == b | a >= b | b >= c | c >= b`. -/
def lostExpression :
    BooleanExpression (PredicateOperator (SymbolExpression Nat Nat Unit) Unit Unit) :=
  .orOp [.predicate (equal 0 1), .predicate (greaterOrEqual 0 1),
    .predicate (greaterOrEqual 1 2), .predicate (greaterOrEqual 2 1)]

/-- `a` and `b` are the root of the second tree, `c` that of the first. -/
def lostLinks : StdMap Nat (XLink Nat) :=
  ((StdMap.empty.set 0 (.link 1)).set 1 (.link 1)).set 2 (.link 0)

def lostKit : PredicateKit (XLink Nat) Unit Unit :=
  databaseKit (leafDatabase 2) (fun _ _ => 0) (fun _ _ => true)

def lostEvaluate (p : PredicateOperator (SymbolExpression Nat Nat Unit) Unit Unit) :
    Option Bool :=
  predicateEvaluate lostLinks (leafDatabase 2) lostKit p

theorem lostExpression_nodup : ∀ p ∈ lostExpression.predicates, p.operands.Nodup := by
  decide

theorem lostExpression_defined :
    ∀ p ∈ lostExpression.predicates, ∃ b, lostEvaluate p = some b := by
  intro p hp
  have hsome : (lostEvaluate p).isSome = true := by
    revert p
    decide
  exact Option.isSome_iff_exists.mp hsome

/-- **A row is lost**: `a == b`, `a >= b` and `b >= c` are true and `c >= b` is false, and
so the expression is true; but the cell of that row is `DONT_CARE`, and the alternative
expression is false. -/
theorem equality_substitution_loses_row :
    lostExpression.Constructed
    ∧ (∀ p ∈ lostExpression.predicates, p.operands.Nodup)
    ∧ (∀ p ∈ lostExpression.predicates, ∃ b, lostEvaluate p = some b)
    ∧ lostExpression.evaluate lostEvaluate = some true
    ∧ ((preSolve lostLayout (fun _ _ => true) lostExpression).bind fun ttwp =>
        (ttwp.predicates.mapM (fun s => lostEvaluate (s.front lostLayout))).bind
          ttwp.truthTable.get) = some .DONT_CARE
    ∧ ((preSolve lostLayout (fun _ _ => true) lostExpression).bind fun ttwp =>
        (getAltExpressionForTesting lostLayout ttwp).bind fun alt =>
          alt.evaluate lostEvaluate) = some false :=
  ⟨by simp [lostExpression, BooleanExpression.Constructed, BooleanExpression.ConstructedAll],
    lostExpression_nodup, lostExpression_defined, by decide +kernel, by decide +kernel,
    by decide +kernel⟩

/-- The main theorem at that expression. -/
theorem preSolve_exact_lost :
    ∃ added ttwp actual result alt,
      addedPreds lostLayout (getPredicates lostLayout lostExpression) = some added
      ∧ preSolve lostLayout (fun _ _ => true) lostExpression = some ttwp
      ∧ ttwp.predicates = getPredicates lostLayout lostExpression
      ∧ ttwp.predicates.mapM (fun s => lostEvaluate (s.front lostLayout)) = some actual
      ∧ lostExpression.evaluate lostEvaluate = some result
      ∧ getAltExpressionForTesting lostLayout ttwp = some alt
      ∧ ((ttwp.truthTable.get actual = some (if result then .TRUE else .FALSE)
            ∧ alt.evaluate lostEvaluate = some result)
          ↔ Survives lostLayout (fun _ _ => true) ttwp.predicates added actual) :=
  preSolve_exact lostLayout (fun _ _ => true) lostLinks (leafDatabase 2) lostKit
    (fun _ _ _ => rfl) lostExpression
    (by simp [lostExpression, BooleanExpression.Constructed, BooleanExpression.ConstructedAll])
    lostExpression_nodup lostExpression_defined

end Inferno.SYM
