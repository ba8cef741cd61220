/-
  Inferno.SYM.ClutchExact
  ───────────────────────
  What `ClutchRewriter` makes of an expression over pattern links.

    • `disengagedBy`              — the rewriter of a disengager expression,
    • `Clutched`                  — the links are the disengager together, or none is and
                                    the expression holds,
    • `evaluate_applyDistributed` — a nested conjunction is the conjunction of the
                                    clutched conjuncts,
    • `clutch_exact`              — both rewrites, at every assignment; an expression
                                    without links has no gate.
-/
import Inferno.SYM.Clutch
import Inferno.SYM.LeafDatabase
import Inferno.Engine.PatternGraph

namespace Inferno.SYM

open Inferno.Common
open Inferno.DB
open BooleanExpression

/-! ## §1. Nested conjunctions. -/

section

variable {P V : Type}

/-- The least of the results, as a conjunction. -/
theorem minElement_eq_all (rs : List Bool) : minElement rs = rs.all id := by
  rw [Bool.eq_iff_iff, minElement_eq_true, List.all_eq_true]
  rfl

theorem minElement_append (rs rs' : List Bool) :
    minElement (rs ++ rs') = (minElement rs && minElement rs') := by
  rw [minElement_eq_all, minElement_eq_all, minElement_eq_all, List.all_append]

theorem evaluateAll_append {pred : P → Option Bool} (sa sb : List (BooleanExpression P)) :
    evaluateAll pred (sa ++ sb) =
      (evaluateAll pred sa).bind (fun rs => (evaluateAll pred sb).map (rs ++ ·)) := by
  induction sa with
  | nil =>
      show evaluateAll pred sb = (evaluateAll pred sb).map (fun rs' => [] ++ rs')
      simp
  | cons a sa ih =>
      rw [List.cons_append, evaluateAll, evaluateAll, ih]
      cases evaluate pred a with
      | none => rfl
      | some r =>
          cases evaluateAll pred sa with
          | none => rfl
          | some rs =>
              cases evaluateAll pred sb with
              | none => rfl
              | some rs' => rfl

variable [LinearOrder V] (rewriter : ClutchRewriter P V) (pred : P → Option Bool)

/-- The conjunction of the clutched conjuncts, each clutched by itself. -/
def clutchedConjuncts (conjuncts : List (BooleanExpression P)) : BooleanExpression P :=
  andOp (conjuncts.map rewriter.applyUnified)

theorem evaluate_clutchedConjuncts_singleton (c : BooleanExpression P) :
    (clutchedConjuncts rewriter [c]).evaluate pred
      = (rewriter.applyUnified c).evaluate pred := by
  unfold clutchedConjuncts
  rw [List.map_singleton, evaluate, evaluateAll, evaluateAll]
  cases (rewriter.applyUnified c).evaluate pred with
  | none => rfl
  | some r => rfl

theorem evaluate_clutchedConjuncts_append (cs ds : List (BooleanExpression P)) :
    (clutchedConjuncts rewriter (cs ++ ds)).evaluate pred =
      ((clutchedConjuncts rewriter cs).evaluate pred).bind (fun r =>
        ((clutchedConjuncts rewriter ds).evaluate pred).map (r && ·)) := by
  unfold clutchedConjuncts
  rw [List.map_append, evaluate, evaluate, evaluate, evaluateAll_append]
  cases evaluateAll pred (cs.map rewriter.applyUnified) with
  | none => rfl
  | some rs =>
      cases evaluateAll pred (ds.map rewriter.applyUnified) with
      | none => rfl
      | some rs' =>
          show some (minElement (rs ++ rs')) = some (minElement rs && minElement rs')
          rw [minElement_append]

mutual

/-- **Distribution**: a nested conjunction evaluates as the conjunction of its clutched
conjuncts, assertions included. -/
theorem evaluate_applyDistributed : ∀ e : BooleanExpression P,
    (rewriter.applyDistributed e).evaluate pred
      = (clutchedConjuncts rewriter (splitAnds e)).evaluate pred
  | andOp sa => by
      rw [ClutchRewriter.applyDistributed, splitAnds]
      exact evaluate_applyDistributedAll sa
  | constant _ => by
      rw [ClutchRewriter.applyDistributed, splitAnds, evaluate_clutchedConjuncts_singleton]
  | predicate _ => by
      rw [ClutchRewriter.applyDistributed, splitAnds, evaluate_clutchedConjuncts_singleton]
  | notOp _ => by
      rw [ClutchRewriter.applyDistributed, splitAnds, evaluate_clutchedConjuncts_singleton]
  | orOp _ => by
      rw [ClutchRewriter.applyDistributed, splitAnds, evaluate_clutchedConjuncts_singleton]
  | boolEqual _ _ => by
      rw [ClutchRewriter.applyDistributed, splitAnds, evaluate_clutchedConjuncts_singleton]
  | implication _ _ => by
      rw [ClutchRewriter.applyDistributed, splitAnds, evaluate_clutchedConjuncts_singleton]
  | uniplexor _ _ _ => by
      rw [ClutchRewriter.applyDistributed, splitAnds, evaluate_clutchedConjuncts_singleton]
  | multiplexor _ _ => by
      rw [ClutchRewriter.applyDistributed, splitAnds, evaluate_clutchedConjuncts_singleton]

theorem evaluate_applyDistributedAll : ∀ sa : List (BooleanExpression P),
    (andOp (rewriter.applyDistributedAll sa)).evaluate pred
      = (clutchedConjuncts rewriter (splitAndsAll sa)).evaluate pred
  | [] => rfl
  | a :: sa => by
      have ha := evaluate_applyDistributed a
      have hsa := evaluate_applyDistributedAll sa
      rw [splitAndsAll, evaluate_clutchedConjuncts_append, ← ha, ← hsa,
        ClutchRewriter.applyDistributedAll, evaluate, evaluate, evaluateAll]
      cases (rewriter.applyDistributed a).evaluate pred with
      | none => rfl
      | some r =>
          cases evaluateAll pred (rewriter.applyDistributedAll sa) with
          | none => rfl
          | some rs =>
              show some (minElement ([r] ++ rs)) = some (r && minElement rs)
              rw [minElement_append]
              rfl

end

end

/-! ## §2. The rewriter of a disengager. -/

section

variable {V L A N M : Type} [LinearOrder V] [LinearOrder L]

/-- The constructor: `x == disengager_expr` for a variable `x`. -/
def disengagedBy (disengagerExpr : SymbolExpression V L A) :
    ClutchRewriter (PredicateOperator (SymbolExpression V L A) A M) V where
  vars := Engine.predicateVariables
  isDisengager plink := isEqual (.symbolVariable plink) disengagerExpr

variable (hypothesisLinks : StdMap V (XLink L)) (db : XTreeDatabase L N A)
  (kit : PredicateKit (XLink L) A M)

/-- The value of a link is the disengager. -/
def Disengaged (d : SymbolicResult (XLink L)) (plink : V) : Prop :=
  ∃ x, hypothesisLinks.lookup plink = some x ∧ d = .uniqueResult x

/-- **A clutched expression**: it evaluates, and its links are the disengager together, or
none of them is and it holds. -/
structure Clutched (d : SymbolicResult (XLink L)) (e : Engine.Expression V L A M) : Prop where
  evaluates : ∃ r, e.evaluate (predicateEvaluate hypothesisLinks db kit) = some r
  gated : (e.variables.Nonempty ∧ ∀ v ∈ e.variables, Disengaged hypothesisLinks d v)
    ∨ ((∀ v ∈ e.variables, ¬ Disengaged hypothesisLinks d v)
        ∧ e.Satisfied (predicateEvaluate hypothesisLinks db kit))

variable {hypothesisLinks} {db} {kit} {disengagerExpr : SymbolExpression V L A}
  {d : SymbolicResult (XLink L)}

open Classical in
/-- `x == disengager_expr` of an assigned link tells whether it is the disengager. -/
theorem evaluate_isDisengager (hd : disengagerExpr.evaluate hypothesisLinks db = some d) {v : V}
    (hv : (hypothesisLinks.lookup v).isSome) :
    ((disengagedBy disengagerExpr).isDisengager v).evaluate
        (predicateEvaluate hypothesisLinks db kit)
      = some (decide (Disengaged hypothesisLinks d v)) := by
  obtain ⟨x, hx⟩ := Option.isSome_iff_exists.mp hv
  have heval : (SymbolExpression.symbolVariable v : SymbolExpression V L A).evaluate
      hypothesisLinks db = some (.uniqueResult x) := by
    rw [SymbolExpression.evaluate, hx]
    rfl
  by_cases hdis : Disengaged hypothesisLinks d v
  · rw [decide_eq_true hdis]
    obtain ⟨x', hx', hdx⟩ := hdis
    refine satisfied_isEqual.mpr ⟨x', ?_, ?_⟩
    · rw [SymbolExpression.evaluate, hx']
      rfl
    · rw [hd, hdx]
  · rw [decide_eq_false hdis]
    have hne : (isNotEqual (.symbolVariable v) disengagerExpr).Satisfied
          (predicateEvaluate hypothesisLinks db kit) ↔ _ := satisfied_isNotEqual heval hd
    have hnot : ¬ ∃ x', SymbolicResult.uniqueResult x = .uniqueResult x'
        ∧ d = .uniqueResult x' := by
      intro h
      obtain ⟨x', hx', hdx⟩ := h
      exact hdis ⟨x', by rw [hx, SymbolicResult.uniqueResult.inj hx'], hdx⟩
    exact (satisfied_notOp _).mp (hne.mpr hnot)

/-- What the rewriter's links say, together and engaged. -/
theorem clutched_iff_applyUnified (hd : disengagerExpr.evaluate hypothesisLinks db = some d)
    {e : Engine.Expression V L A M}
    (hassigned : ∀ v ∈ e.variables, (hypothesisLinks.lookup v).isSome) :
    ((disengagedBy disengagerExpr).applyUnified e).Satisfied
        (predicateEvaluate hypothesisLinks db kit)
      ↔ Clutched hypothesisLinks db kit d e := by
  classical
  rcases e.variables.eq_empty_or_nonempty with hempty | hne
  · -- no links: the expression is left as it is
    have hsame : (disengagedBy disengagerExpr).applyUnified e = e :=
      ClutchRewriter.applyUnified_of_closed hempty
    rw [hsame]
    constructor
    · intro hsat
      exact ⟨⟨true, hsat⟩, Or.inr ⟨fun v hv => absurd (hempty ▸ hv) (Finset.notMem_empty v), hsat⟩⟩
    · intro h
      rcases h.gated with hall | hnone
      · rw [hempty] at hall
        exact absurd hall.1 Finset.not_nonempty_empty
      · exact hnone.2
  · -- all links tell together whether they are disengaged
    have htells : (disengagedBy disengagerExpr).Tells (predicateEvaluate hypothesisLinks db kit)
        (fun v => decide (Disengaged hypothesisLinks d v)) e :=
      fun v hv => evaluate_isDisengager hd (hassigned v hv)
    rw [ClutchRewriter.satisfied_applyUnified htells hne]
    show ((∀ v ∈ e.variables, ∀ w ∈ e.variables, _) ∧ ∃ r, _) ↔ _
    obtain ⟨u, hu⟩ := hne
    constructor
    · intro h
      obtain ⟨htogether, r, hr, himp⟩ := h
      refine ⟨⟨r, hr⟩, ?_⟩
      -- the first link decides for all of them
      by_cases hdis : Disengaged hypothesisLinks d u
      · refine Or.inl ⟨⟨u, hu⟩, fun v hv => ?_⟩
        have hsame := htogether v hv u hu
        exact of_decide_eq_true (hsame.trans (decide_eq_true hdis))
      · have hnone : ∀ v ∈ e.variables, ¬ Disengaged hypothesisLinks d v := by
          intro v hv
          exact of_decide_eq_false ((htogether v hv u hu).trans (decide_eq_false hdis))
        refine Or.inr ⟨hnone, ?_⟩
        rw [Satisfied, hr, himp (fun v hv => decide_eq_false (hnone v hv))]
    · -- and back: together, either disengaged or engaged with the expression true
      intro h
      obtain ⟨r, hr⟩ := h.evaluates
      rcases h.gated with hall | hnone
      · refine ⟨fun v hv w hw => ?_, r, hr, fun hengaged => ?_⟩
        · rw [decide_eq_true (hall.2 v hv), decide_eq_true (hall.2 w hw)]
        · exact absurd (hall.2 u hu) (of_decide_eq_false (hengaged u hu))
      · refine ⟨fun v hv w hw => ?_, true, hnone.2, fun _ => rfl⟩
        rw [decide_eq_false (hnone.1 v hv), decide_eq_false (hnone.1 w hw)]

/-- **Clutching is exact.**  The unified rewrite is the clutched expression; the
distributed one evaluates as the conjunction of the clutched conjuncts, and asks each of
them of its own links. -/
theorem clutch_exact (e : Engine.Expression V L A M)
    (hassigned : ∀ v ∈ e.variables, (hypothesisLinks.lookup v).isSome)
    (hd : disengagerExpr.evaluate hypothesisLinks db = some d) :
    (((disengagedBy disengagerExpr).applyUnified e).Satisfied
        (predicateEvaluate hypothesisLinks db kit)
      ↔ Clutched hypothesisLinks db kit d e)
    ∧ ((disengagedBy disengagerExpr).applyDistributed e).evaluate
        (predicateEvaluate hypothesisLinks db kit)
      = (clutchedConjuncts (disengagedBy disengagerExpr) (splitAnds e)).evaluate
        (predicateEvaluate hypothesisLinks db kit)
    ∧ (((disengagedBy disengagerExpr).applyDistributed e).Satisfied
        (predicateEvaluate hypothesisLinks db kit)
      ↔ ∀ c ∈ splitAnds e, Clutched hypothesisLinks db kit d c) := by
  refine ⟨clutched_iff_applyUnified hd hassigned,
    evaluate_applyDistributed (disengagedBy disengagerExpr) _ e, ?_⟩
  rw [ClutchRewriter.satisfied_applyDistributed]
  refine forall₂_congr (fun c hc => clutched_iff_applyUnified hd (fun v hv => ?_))
  exact hassigned v (requiredVariables_mono (predicates_of_mem_splitAnds e c hc) hv)

end

/-! ## §3. A clause without links. -/

/-- `x0 == x1`, of two links. -/
def twoLinks : Engine.Expression Nat Nat Unit Unit :=
  isEqual (.symbolVariable 0) (.symbolVariable 1)

/-- What the predicates ask of a database of two leaves. -/
def twoLeavesKit : PredicateKit (XLink Nat) Unit Unit :=
  databaseKit (leafDatabase 2) (fun _ _ => 0) (fun _ _ => false)

/-- Both links at MMAX: the equation is disengaged. -/
theorem clutch_exact_twoLinks :
    (((disengagedBy (.symbolConstant .MMAX)).applyUnified twoLinks).Satisfied
        (predicateEvaluate ((StdMap.empty.set 0 XLink.MMAX).set 1 XLink.MMAX) (leafDatabase 2)
          twoLeavesKit)
      ↔ Clutched ((StdMap.empty.set 0 XLink.MMAX).set 1 XLink.MMAX) (leafDatabase 2) twoLeavesKit
          (.uniqueResult .MMAX) twoLinks)
    ∧ ((disengagedBy (.symbolConstant .MMAX)).applyDistributed twoLinks).evaluate
        (predicateEvaluate ((StdMap.empty.set 0 XLink.MMAX).set 1 XLink.MMAX) (leafDatabase 2)
          twoLeavesKit)
      = (clutchedConjuncts (disengagedBy (.symbolConstant .MMAX)) (splitAnds twoLinks)).evaluate
        (predicateEvaluate ((StdMap.empty.set 0 XLink.MMAX).set 1 XLink.MMAX) (leafDatabase 2)
          twoLeavesKit)
    ∧ (((disengagedBy (.symbolConstant .MMAX)).applyDistributed twoLinks).Satisfied
        (predicateEvaluate ((StdMap.empty.set 0 XLink.MMAX).set 1 XLink.MMAX) (leafDatabase 2)
          twoLeavesKit)
      ↔ ∀ c ∈ splitAnds twoLinks, Clutched ((StdMap.empty.set 0 XLink.MMAX).set 1 XLink.MMAX)
          (leafDatabase 2) twoLeavesKit (.uniqueResult .MMAX) c) :=
  clutch_exact twoLinks (by decide) rfl

/-- **A clause without links is not gated**: `false` requires no links, so all of them are
the disengager, and the rewrite is false. -/
theorem applyUnified_closed_false :
    ¬ (((disengagedBy (.symbolConstant .MMAX)).applyUnified
          (.constant false : Engine.Expression Nat Nat Unit Unit)).Satisfied
        (predicateEvaluate StdMap.empty (leafDatabase 2) twoLeavesKit)
      ↔ ((∀ v ∈ Engine.Expression.variables
            (.constant false : Engine.Expression Nat Nat Unit Unit),
          Disengaged StdMap.empty (.uniqueResult (XLink.MMAX : XLink Nat)) v)
        ∨ ((∀ v ∈ Engine.Expression.variables
              (.constant false : Engine.Expression Nat Nat Unit Unit),
            ¬ Disengaged StdMap.empty (.uniqueResult (XLink.MMAX : XLink Nat)) v)
          ∧ (BooleanExpression.constant false : Engine.Expression Nat Nat Unit Unit).Satisfied
            (predicateEvaluate StdMap.empty (leafDatabase 2) twoLeavesKit)))) := by
  rw [ClutchRewriter.applyUnified_of_closed rfl]
  intro h
  have hsat := h.mpr (Or.inl (fun v hv => absurd hv (Finset.notMem_empty v)))
  exact absurd hsat (by simp)

end Inferno.SYM
