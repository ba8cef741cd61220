/-
  Inferno.SYM.Clutch
  ──────────────────
  `ClutchRewriter`: constraints that a disengager value switches off.

    • `applyUnified`     — all the variables of a clause are the disengager, or none is
                           and the clause holds,
    • `applyDistributed` — the same of each clause of a conjunction,
    • engaged, a clutched conjunction says what the conjunction says; disengaged, it
      says nothing; and a clause's variables are engaged together.
-/
import Inferno.Common.StdMap
import Inferno.SYM.Rewriters

namespace Inferno.SYM

open Inferno.Common
open BooleanExpression

variable {P V : Type}

/-! ## §1. What holds of every conjunct. -/

namespace BooleanExpression

/-- A conjunct of `a & b` is one of `a` or of `b`. -/
theorem mem_splitAnds_of_and {c a b : BooleanExpression P} (hc : c ≠ constant true)
    (h : c ∈ splitAnds (a.and b)) : c ∈ splitAnds a ∨ c ∈ splitAnds b := by
  unfold and at h
  rw [mem_splitAnds_createTidiedOperator hc] at h
  have hall := (mem_splitAndsAll_of_tidy [a, b] [] h).resolve_left List.not_mem_nil
  rwa [splitAndsAll, splitAndsAll, splitAndsAll, List.append_nil, List.mem_append] at hall

section

variable {Q : BooleanExpression P → Prop} (htrue : Q (constant true))
  (hfalse : ¬ Q (constant false))

include htrue hfalse

/-- **`&` joins conjuncts**, for any property that the constants have as they stand. -/
theorem forall_splitAnds_and (a b : BooleanExpression P) :
    (∀ c ∈ splitAnds (a.and b), Q c)
      ↔ (∀ c ∈ splitAnds a, Q c) ∧ ∀ c ∈ splitAnds b, Q c := by
  constructor
  · intro h
    have hconst : constant false ∉ splitAnds (a.and b) := fun hmem => hfalse (h _ hmem)
    have hpart : ∀ c, c ∈ splitAnds a ∨ c ∈ splitAnds b → Q c := by
      intro c hc
      by_cases hct : c = constant true
      · exact hct ▸ htrue
      · exact h c ((mem_splitAnds_and hct hconst).mpr hc)
    exact ⟨fun c hc => hpart c (Or.inl hc), fun c hc => hpart c (Or.inr hc)⟩
  · intro h c hc
    by_cases hct : c = constant true
    · exact hct ▸ htrue
    · rcases mem_splitAnds_of_and hct hc with hc | hc
      · exact h.1 c hc
      · exact h.2 c hc

theorem forall_splitAnds_andAll (clauses : List (BooleanExpression P)) :
    ∀ expr : BooleanExpression P, (∀ c ∈ splitAnds (expr.andAll clauses), Q c)
      ↔ (∀ c ∈ splitAnds expr, Q c) ∧ ∀ a ∈ clauses, ∀ c ∈ splitAnds a, Q c := by
  induction clauses with
  | nil => intro expr; simp [andAll]
  | cons a clauses ih =>
      intro expr
      show (∀ c ∈ splitAnds ((expr.and a).andAll clauses), Q c) ↔ _
      rw [ih, forall_splitAnds_and htrue hfalse, List.forall_mem_cons, and_assoc]

end

end BooleanExpression

/-! ## §2. The rewriter. -/

/-- `ClutchRewriter`: the variables of the predicates, and `x == disengager_expr`. -/
structure ClutchRewriter (P V : Type) where
  vars : P → Finset V
  isDisengager : V → BooleanExpression P

namespace ClutchRewriter

variable [LinearOrder V] (rewriter : ClutchRewriter P V)

/-- `all_disengage_equal`, over the overlapping adjacent pairs of a list. -/
def allDisengageEqual (allDisengagedList : List (BooleanExpression P)) : BooleanExpression P :=
  (constant true).andAll
    ((allDisengagedList.zip allDisengagedList.tail).map (fun e => boolEqual e.1 e.2))

/-- `ApplyUnified`. -/
def applyUnified (originalExpr : BooleanExpression P) : BooleanExpression P :=
  match inOrder (originalExpr.requiredVariables rewriter.vars) with
  | [] => originalExpr
  | v :: vs =>
      let originalWhenEngaged := implication (notOp (rewriter.isDisengager v)) originalExpr
      (allDisengageEqual ((v :: vs).map rewriter.isDisengager)).and originalWhenEngaged

mutual

/-- `ApplyDistributed`: recurse in case of nested `AndOperator`. -/
def applyDistributed : BooleanExpression P → BooleanExpression P
  | andOp sa => andOp (applyDistributedAll sa)
  | constant value => rewriter.applyUnified (constant value)
  | predicate p => rewriter.applyUnified (predicate p)
  | notOp a => rewriter.applyUnified (notOp a)
  | orOp sa => rewriter.applyUnified (orOp sa)
  | boolEqual a b => rewriter.applyUnified (boolEqual a b)
  | implication a b => rewriter.applyUnified (implication a b)
  | uniplexor a b c => rewriter.applyUnified (uniplexor a b c)
  | multiplexor controls options => rewriter.applyUnified (multiplexor controls options)

/-- Its loop over the clauses. -/
def applyDistributedAll : List (BooleanExpression P) → List (BooleanExpression P)
  | [] => []
  | a :: sa => applyDistributed a :: applyDistributedAll sa

end

variable {rewriter} {pred : P → Option Bool}

mutual

/-- **Distribution**: each conjunct is clutched by itself. -/
theorem satisfied_applyDistributed : ∀ e : BooleanExpression P,
    (rewriter.applyDistributed e).Satisfied pred
      ↔ ∀ c ∈ splitAnds e, (rewriter.applyUnified c).Satisfied pred
  | andOp sa => by
      rw [applyDistributed, satisfied_andOp, splitAnds]
      exact satisfied_applyDistributedAll sa
  | constant _ => by rw [applyDistributed, splitAnds, List.forall_mem_singleton]
  | predicate _ => by rw [applyDistributed, splitAnds, List.forall_mem_singleton]
  | notOp _ => by rw [applyDistributed, splitAnds, List.forall_mem_singleton]
  | orOp _ => by rw [applyDistributed, splitAnds, List.forall_mem_singleton]
  | boolEqual _ _ => by rw [applyDistributed, splitAnds, List.forall_mem_singleton]
  | implication _ _ => by rw [applyDistributed, splitAnds, List.forall_mem_singleton]
  | uniplexor _ _ _ => by rw [applyDistributed, splitAnds, List.forall_mem_singleton]
  | multiplexor _ _ => by rw [applyDistributed, splitAnds, List.forall_mem_singleton]

theorem satisfied_applyDistributedAll : ∀ sa : List (BooleanExpression P),
    (∀ a ∈ rewriter.applyDistributedAll sa, a.Satisfied pred)
      ↔ ∀ c ∈ splitAndsAll sa, (rewriter.applyUnified c).Satisfied pred
  | [] => by simp [applyDistributedAll, splitAndsAll]
  | a :: sa => by
      rw [applyDistributedAll, splitAndsAll, List.forall_mem_cons, List.forall_mem_append,
        satisfied_applyDistributed a, satisfied_applyDistributedAll sa]

end

/-! ## §3. One clause. -/

section

variable {disengaged : V → Bool}

omit [LinearOrder V] in
/-- Neighbours that are equal are all equal to the first. -/
theorem satisfied_allDisengageEqual {isDisengager : V → BooleanExpression P} (vs : List V) :
    ∀ v : V, (∀ w ∈ v :: vs, (isDisengager w).evaluate pred = some (disengaged w)) →
      ((allDisengageEqual ((v :: vs).map isDisengager)).Satisfied pred
        ↔ ∀ w ∈ v :: vs, disengaged w = disengaged v) := by
  induction vs with
  | nil =>
      intro v _
      simp [allDisengageEqual, andAll]
  | cons u vs ih =>
      intro v heval
      rw [List.forall_mem_cons] at heval
      have hu := heval.2 u List.mem_cons_self
      have hpair : (boolEqual (isDisengager v) (isDisengager u)).Satisfied pred
          ↔ disengaged v = disengaged u := by
        simp [Satisfied, evaluate, heval.1, hu]
      have hrest := ih u heval.2
      unfold allDisengageEqual at hrest ⊢
      rw [satisfied_andAll, and_iff_right ((satisfied_constant true).mpr rfl)] at hrest ⊢
      simp only [List.map_cons, List.tail_cons, List.zip_cons_cons, List.forall_mem_cons, hpair,
        true_and] at hrest ⊢
      rw [hrest]
      constructor
      · intro h
        exact ⟨h.1.symm, fun w hw => (h.2 w hw).trans h.1.symm⟩
      · intro h
        exact ⟨h.1.symm, fun w hw => (h.2 w hw).trans h.1.symm⟩

/-- `x == disengager_expr` tells whether the variables of an expression are disengaged. -/
def Tells (rewriter : ClutchRewriter P V) (pred : P → Option Bool) (disengaged : V → Bool)
    (e : BooleanExpression P) : Prop :=
  ∀ v ∈ e.requiredVariables rewriter.vars,
    (rewriter.isDisengager v).evaluate pred = some (disengaged v)

/-- **A clutched clause** that has variables: they are engaged together, and then the
clause holds. -/
theorem satisfied_applyUnified {c : BooleanExpression P} (h : Tells rewriter pred disengaged c)
    (hne : (c.requiredVariables rewriter.vars).Nonempty) :
    (rewriter.applyUnified c).Satisfied pred
      ↔ (∀ v ∈ c.requiredVariables rewriter.vars, ∀ w ∈ c.requiredVariables rewriter.vars,
          disengaged v = disengaged w)
        ∧ ∃ r, c.evaluate pred = some r
          ∧ ((∀ v ∈ c.requiredVariables rewriter.vars, disengaged v = false) → r = true) := by
  have hmem : ∀ v, v ∈ inOrder (c.requiredVariables rewriter.vars)
      ↔ v ∈ c.requiredVariables rewriter.vars := fun v => mem_inOrder
  unfold applyUnified
  cases hvars : inOrder (c.requiredVariables rewriter.vars) with
  | nil =>
      -- excluded: the clause has variables
      obtain ⟨v, hv⟩ := hne
      rw [hvars] at hmem
      exact absurd ((hmem v).mpr hv) List.not_mem_nil
  | cons v vs =>
      rw [hvars] at hmem
      have hall : ∀ w ∈ v :: vs, (rewriter.isDisengager w).evaluate pred = some (disengaged w) :=
        fun w hw => h w ((hmem w).mp hw)
      have hv : v ∈ c.requiredVariables rewriter.vars := (hmem v).mp List.mem_cons_self
      show ((allDisengageEqual ((v :: vs).map rewriter.isDisengager)).and _).Satisfied pred ↔ _
      rw [satisfied_and, satisfied_allDisengageEqual vs v hall]
      simp only [hmem]
      -- the first variable stands for all of them
      have heq : (∀ w ∈ c.requiredVariables rewriter.vars, disengaged w = disengaged v)
          ↔ ∀ u ∈ c.requiredVariables rewriter.vars, ∀ w ∈ c.requiredVariables rewriter.vars,
              disengaged u = disengaged w := by
        constructor
        · intro hv' u hu w hw
          exact (hv' u hu).trans (hv' w hw).symm
        · intro hv' w hw
          exact hv' w hw v hv
      rw [heq]
      -- once they are together, only the first is left to ask
      refine and_congr_right (fun htogether => ?_)
      have hengaged : (∀ w ∈ c.requiredVariables rewriter.vars, disengaged w = false)
          ↔ disengaged v = false := by
        constructor
        · intro hw
          exact hw v hv
        · intro hw w hw'
          exact (htogether w hw' v hv).trans hw
      rw [hengaged]
      cases hc : c.evaluate pred with
      | none => simp [Satisfied, evaluate, hc, hall v List.mem_cons_self]
      | some r =>
          cases hdis : disengaged v <;>
            simp [Satisfied, evaluate, hc, hall v List.mem_cons_self, hdis]

/-- A clause without variables is left as it is. -/
theorem applyUnified_of_closed {c : BooleanExpression P}
    (h : c.requiredVariables rewriter.vars = ∅) : rewriter.applyUnified c = c := by
  have hnil : inOrder (c.requiredVariables rewriter.vars) = [] := by
    rw [h]
    exact List.eq_nil_iff_forall_not_mem.mpr (by simp)
  unfold applyUnified
  rw [hnil]

/-! ## §4. A conjunction. -/

/-- **Engaged**, the clutched conjunction is the conjunction. -/
theorem satisfied_of_engaged {e : BooleanExpression P}
    (h : ∀ c ∈ splitAnds e, Tells rewriter pred disengaged c)
    (hengaged : ∀ c ∈ splitAnds e, ∀ v ∈ c.requiredVariables rewriter.vars,
      disengaged v = false) :
    (rewriter.applyDistributed e).Satisfied pred ↔ e.Satisfied pred := by
  rw [satisfied_applyDistributed, ← satisfied_splitAnds e]
  refine forall₂_congr (fun c hc => ?_)
  rcases (c.requiredVariables rewriter.vars).eq_empty_or_nonempty with hempty | hne
  · rw [applyUnified_of_closed hempty]
  · rw [satisfied_applyUnified (h c hc) hne]
    constructor
    · intro hu
      obtain ⟨_, r, hr, htrue⟩ := hu
      rw [Satisfied, hr, htrue (hengaged c hc)]
    · intro hsat
      refine ⟨fun v hv w hw => ?_, true, hsat, fun _ => rfl⟩
      rw [hengaged c hc v hv, hengaged c hc w hw]

/-- What a disengaged clause still asks: that it evaluates, and that it holds if it has
no variable. -/
structure Idle (rewriter : ClutchRewriter P V) (pred : P → Option Bool)
    (c : BooleanExpression P) : Prop where
  evaluates : ∃ r, c.evaluate pred = some r
  closed : c.requiredVariables rewriter.vars = ∅ → c.Satisfied pred

/-- **Disengaged**, the clutched conjunction says nothing. -/
theorem satisfied_of_disengaged {e : BooleanExpression P}
    (h : ∀ c ∈ splitAnds e, Tells rewriter pred disengaged c)
    (hdis : ∀ c ∈ splitAnds e, ∀ v ∈ c.requiredVariables rewriter.vars, disengaged v = true)
    (hidle : ∀ c ∈ splitAnds e, Idle rewriter pred c) :
    (rewriter.applyDistributed e).Satisfied pred := by
  rw [satisfied_applyDistributed]
  intro c hc
  rcases (c.requiredVariables rewriter.vars).eq_empty_or_nonempty with hempty | hne
  · rw [applyUnified_of_closed hempty]
    exact (hidle c hc).closed hempty
  · rw [satisfied_applyUnified (h c hc) hne]
    obtain ⟨r, hr⟩ := (hidle c hc).evaluates
    refine ⟨fun v hv w hw => ?_, r, hr, fun hengaged => ?_⟩
    · rw [hdis c hc v hv, hdis c hc w hw]
    · obtain ⟨v, hv⟩ := hne
      have hboth := (hdis c hc v hv).symm.trans (hengaged v hv)
      cases hboth

/-- The variables of a clause are engaged together. -/
structure Together (rewriter : ClutchRewriter P V) (disengaged : V → Bool)
    (c : BooleanExpression P) : Prop where
  same : ∀ v ∈ c.requiredVariables rewriter.vars, ∀ w ∈ c.requiredVariables rewriter.vars,
    disengaged v = disengaged w
  notFalse : c ≠ constant false

/-- **A clause's variables are engaged together.** -/
theorem together_of_satisfied {e : BooleanExpression P}
    (h : ∀ c ∈ splitAnds e, Tells rewriter pred disengaged c)
    (hsat : (rewriter.applyDistributed e).Satisfied pred) :
    ∀ c ∈ splitAnds e, Together rewriter disengaged c := by
  rw [satisfied_applyDistributed] at hsat
  intro c hc
  have hu := hsat c hc
  refine ⟨?_, ?_⟩
  · rcases (c.requiredVariables rewriter.vars).eq_empty_or_nonempty with hempty | hne
    · rw [hempty]
      simp
    · exact ((satisfied_applyUnified (h c hc) hne).mp hu).1
  · intro hfalse
    rw [hfalse, applyUnified_of_closed rfl] at hu
    simp at hu

theorem Together.constant_true : Together rewriter disengaged (constant true) :=
  ⟨fun _ hv => absurd hv (Finset.notMem_empty _), by simp⟩

theorem Idle.constant_true : Idle rewriter pred (constant true) :=
  ⟨⟨true, rfl⟩, fun _ => rfl⟩

theorem not_idle_constant_false : ¬ Idle rewriter pred (constant false) := by
  intro h
  have hsat := h.closed rfl
  simp at hsat

end

end ClutchRewriter

end Inferno.SYM
