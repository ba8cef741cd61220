/-
  Inferno.SYM.BooleanExpression
  ─────────────────────────────
  `SYM::BooleanExpression`: the Boolean connectives over predicates.

    • `BooleanExpression`   — the operators of boolean_operators.cpp and of
                              conditional_operators.cpp,
    • `evaluate`            — `BooleanResult` is two-valued; `none` is a failed
                              assertion under one of the operands,
    • `createTidiedOperator` — what the overloads `&` and `|` build,
    • `satisfied_andAll`    — a conjunction built by `&=` is satisfied iff each
                              clause is,
    • `predicates`          — the predicates a walk meets; evaluation reads no
                              others.
-/
import Mathlib

namespace Inferno.SYM

/-! ## §1. Syntax. -/

/-- `SYM::BooleanExpression`, over predicates `P`. -/
inductive BooleanExpression (P : Type) where
  | constant (value : Bool)
  | predicate (p : P)
  | notOp (a : BooleanExpression P)
  | andOp (sa : List (BooleanExpression P))
  | orOp (sa : List (BooleanExpression P))
  | boolEqual (a b : BooleanExpression P)
  | implication (a b : BooleanExpression P)
  | uniplexor (a b c : BooleanExpression P)
  | multiplexor (controls options : List (BooleanExpression P))

namespace BooleanExpression

variable {P : Type}

/-! ## §2. Evaluation. -/

/-- `min_element` of the operands, `true` for none: lower certainly dominates. -/
def minElement : List Bool → Bool
  | [] => true
  | r :: rs => rs.foldl min r

/-- `max_element` of the operands, `false` for none: higher certainly dominates. -/
def maxElement : List Bool → Bool
  | [] => false
  | r :: rs => rs.foldl max r

/-- `int_control`: bit `i` is control `i`. -/
def intControl : List Bool → Nat
  | [] => 0
  | r :: rs => r.toNat + 2 * intControl rs

mutual

/-- `Evaluate`. -/
def evaluate (pred : P → Option Bool) : BooleanExpression P → Option Bool
  | constant value => some value
  | predicate p => pred p
  | notOp a => (evaluate pred a).map (!·)
  | andOp sa => (evaluateAll pred sa).map minElement
  | orOp sa => (evaluateAll pred sa).map maxElement
  | boolEqual a b => do
      let ra ← evaluate pred a
      let rb ← evaluate pred b
      some (ra == rb)
  | implication a b => do
      let ra ← evaluate pred a
      let rb ← evaluate pred b
      some (if ra then rb else true)
  | uniplexor a b c => do
      let ra ← evaluate pred a
      if ra then evaluate pred b else evaluate pred c
  | multiplexor controls options => do
      let rs ← evaluateAll pred controls
      evaluateAt pred options (intControl rs)

/-- The operands' results, in order. -/
def evaluateAll (pred : P → Option Bool) : List (BooleanExpression P) → Option (List Bool)
  | [] => some []
  | a :: sa => do
      let r ← evaluate pred a
      let rs ← evaluateAll pred sa
      some (r :: rs)

/-- `options[int_control]->Evaluate(kit)`. -/
def evaluateAt (pred : P → Option Bool) : List (BooleanExpression P) → Nat → Option Bool
  | [], _ => none
  | a :: _, 0 => evaluate pred a
  | _ :: sa, i + 1 => evaluateAt pred sa i

end

/-- `Evaluate` returns true. -/
def Satisfied (pred : P → Option Bool) (e : BooleanExpression P) : Prop :=
  e.evaluate pred = some true

section

variable {pred : P → Option Bool}

theorem foldl_min (r : Bool) (rs : List Bool) :
    rs.foldl min r = true ↔ r = true ∧ ∀ b ∈ rs, b = true := by
  induction rs generalizing r with
  | nil => simp
  | cons b rs ih =>
      rw [List.foldl_cons, ih]
      cases r <;> cases b <;> simp

theorem minElement_eq_true (rs : List Bool) : minElement rs = true ↔ ∀ b ∈ rs, b = true := by
  cases rs with
  | nil => simp [minElement]
  | cons r rs =>
      rw [minElement, foldl_min]
      simp

/-- All operands evaluate, and all to true. -/
theorem evaluateAll_eq_true (sa : List (BooleanExpression P)) :
    (∃ rs, evaluateAll pred sa = some rs ∧ ∀ b ∈ rs, b = true)
      ↔ ∀ a ∈ sa, a.Satisfied pred := by
  induction sa with
  | nil => simp [evaluateAll]
  | cons a sa ih =>
      rw [List.forall_mem_cons, ← ih]
      unfold Satisfied
      cases ha : evaluate pred a with
      | none => simp [evaluateAll, ha]
      | some r =>
          cases hsa : evaluateAll pred sa with
          | none => simp [evaluateAll, ha, hsa]
          | some rs => simp [evaluateAll, ha, hsa]

@[simp] theorem satisfied_constant (value : Bool) :
    (constant value).Satisfied pred ↔ value = true := by
  simp [Satisfied, evaluate]

@[simp] theorem satisfied_predicate (p : P) :
    (predicate p).Satisfied pred ↔ pred p = some true := by
  simp [Satisfied, evaluate]

@[simp] theorem satisfied_notOp (a : BooleanExpression P) :
    (notOp a).Satisfied pred ↔ a.evaluate pred = some false := by
  simp [Satisfied, evaluate]

@[simp] theorem satisfied_andOp (sa : List (BooleanExpression P)) :
    (andOp sa).Satisfied pred ↔ ∀ a ∈ sa, a.Satisfied pred := by
  rw [← evaluateAll_eq_true]
  unfold Satisfied
  rw [evaluate, Option.map_eq_some_iff]
  simp only [minElement_eq_true]

end

/-! ## §3. Tidied operators. -/

/-- The `OP` of `CreateTidiedOperator<OP>`. -/
inductive TidyOp where
  | andOp
  | orOp
deriving DecidableEq

/-- `make_shared<OP>( out )`. -/
def TidyOp.make : TidyOp → List (BooleanExpression P) → BooleanExpression P
  | .andOp, out => .andOp out
  | .orOp, out => .orOp out

/-- `dynamic_pointer_cast<OP>`, to its operands. -/
def TidyOp.cast : TidyOp → BooleanExpression P → Option (List (BooleanExpression P))
  | .andOp, .andOp sa => some sa
  | .orOp, .orOp sa => some sa
  | _, _ => none

/-- The loop of `CreateTidiedOperator`: our own operator is expanded one level, the
identity is dropped, the other constant dominates. -/
def tidy (op : TidyOp) (identity : Bool) (out : List (BooleanExpression P)) :
    List (BooleanExpression P) → List (BooleanExpression P)
  | [] => out
  | bexpr :: rest =>
      match op.cast bexpr with
      | some subs => tidy op identity (out ++ subs) rest
      | none =>
          match bexpr with
          | .constant value =>
              if value = identity then tidy op identity out rest else [.constant value]
          | _ => tidy op identity (out ++ [bexpr]) rest

/-- `CreateTidiedOperator<OP>(identity)`. -/
def createTidiedOperator (op : TidyOp) (identity : Bool) (l : List (BooleanExpression P)) :
    BooleanExpression P :=
  match tidy op identity [] l with
  | [] => .constant identity
  | [a] => a
  | out => op.make out

/-- `operator&`. -/
def and (a b : BooleanExpression P) : BooleanExpression P :=
  createTidiedOperator .andOp true [a, b]

/-- A loop of `expr &= clause`. -/
def andAll (expr : BooleanExpression P) (clauses : List (BooleanExpression P)) :
    BooleanExpression P :=
  clauses.foldl and expr

section

variable {pred : P → Option Bool}

theorem satisfied_tidy (l : List (BooleanExpression P)) (out : List (BooleanExpression P)) :
    (∀ a ∈ tidy .andOp true out l, a.Satisfied pred)
      ↔ (∀ a ∈ out, a.Satisfied pred) ∧ ∀ a ∈ l, a.Satisfied pred := by
  induction l generalizing out with
  | nil => simp [tidy]
  | cons a l ih =>
      rw [List.forall_mem_cons]
      cases a with
      | andOp sa =>
          show (∀ b ∈ tidy .andOp true (out ++ sa) l, _) ↔ _
          rw [ih, List.forall_mem_append, satisfied_andOp, and_assoc]
      | constant value =>
          cases value with
          | true =>
              show (∀ b ∈ tidy .andOp true out l, _) ↔ _
              simp [ih]
          | false =>
              show (∀ b ∈ [constant false], _) ↔ _
              simp
      | _ =>
          rw [tidy, TidyOp.cast]
          · simp only [ih, List.forall_mem_append, List.forall_mem_singleton, and_assoc]
          all_goals simp

theorem satisfied_createTidiedOperator (l : List (BooleanExpression P)) :
    (createTidiedOperator .andOp true l).Satisfied pred ↔ ∀ a ∈ l, a.Satisfied pred := by
  have h : (∀ a ∈ tidy .andOp true [] l, a.Satisfied pred) ↔ ∀ a ∈ l, a.Satisfied pred := by
    simp [satisfied_tidy]
  rw [← h]
  unfold createTidiedOperator
  split
  next heq => simp [heq]
  next a heq => simp [heq]
  next out _ _ =>
    show (andOp _).Satisfied pred ↔ _
    rw [satisfied_andOp]

@[simp] theorem satisfied_and (a b : BooleanExpression P) :
    (and a b).Satisfied pred ↔ a.Satisfied pred ∧ b.Satisfied pred := by
  simp [and, satisfied_createTidiedOperator]

/-- **A conjunction built clause by clause** is satisfied iff its clauses are. -/
theorem satisfied_andAll (clauses : List (BooleanExpression P)) (expr : BooleanExpression P) :
    (expr.andAll clauses).Satisfied pred
      ↔ expr.Satisfied pred ∧ ∀ c ∈ clauses, c.Satisfied pred := by
  induction clauses generalizing expr with
  | nil => simp [andAll]
  | cons c clauses ih =>
      show ((expr.and c).andAll clauses).Satisfied pred ↔ _
      rw [ih, satisfied_and, List.forall_mem_cons, and_assoc]

end

/-! ## §4. Walks. -/

section

mutual

/-- The predicates that `ExpressionWalker` meets, in order. -/
def predicates : BooleanExpression P → List P
  | constant _ => []
  | predicate p => [p]
  | notOp a => predicates a
  | andOp sa => predicatesAll sa
  | orOp sa => predicatesAll sa
  | boolEqual a b => predicates a ++ predicates b
  | implication a b => predicates a ++ predicates b
  | uniplexor a b c => predicates a ++ (predicates b ++ predicates c)
  | multiplexor controls options => predicatesAll controls ++ predicatesAll options

/-- Those under each operand. -/
def predicatesAll : List (BooleanExpression P) → List P
  | [] => []
  | a :: sa => predicates a ++ predicatesAll sa

end

mutual

/-- What the constructors assert: a `Multiplexor` has an option for each value of its
controls. -/
def Constructed : BooleanExpression P → Prop
  | constant _ => True
  | predicate _ => True
  | notOp a => Constructed a
  | andOp sa => ConstructedAll sa
  | orOp sa => ConstructedAll sa
  | boolEqual a b => Constructed a ∧ Constructed b
  | implication a b => Constructed a ∧ Constructed b
  | uniplexor a b c => Constructed a ∧ Constructed b ∧ Constructed c
  | multiplexor controls options =>
      options.length = 2 ^ controls.length ∧ ConstructedAll controls ∧ ConstructedAll options

/-- Each operand was constructed. -/
def ConstructedAll : List (BooleanExpression P) → Prop
  | [] => True
  | a :: sa => Constructed a ∧ ConstructedAll sa

end

variable {f g : P → Option Bool}

mutual

/-- **Evaluation reads the predicates of the walk only.** -/
theorem evaluate_congr : ∀ a : BooleanExpression P, (∀ p ∈ predicates a, f p = g p) →
    evaluate f a = evaluate g a
  | constant _, _ => rfl
  | predicate p, h => h p (List.mem_singleton.mpr rfl)
  | notOp a, h => by
      rw [evaluate, evaluate, evaluate_congr a h]
  | andOp sa, h => by
      rw [evaluate, evaluate, evaluateAll_congr sa h]
  | orOp sa, h => by
      rw [evaluate, evaluate, evaluateAll_congr sa h]
  | boolEqual a b, h => by
      rw [predicates, List.forall_mem_append] at h
      rw [evaluate, evaluate, evaluate_congr a h.1, evaluate_congr b h.2]
  | implication a b, h => by
      rw [predicates, List.forall_mem_append] at h
      rw [evaluate, evaluate, evaluate_congr a h.1, evaluate_congr b h.2]
  | uniplexor a b c, h => by
      rw [predicates, List.forall_mem_append, List.forall_mem_append] at h
      rw [evaluate, evaluate, evaluate_congr a h.1, evaluate_congr b h.2.1,
        evaluate_congr c h.2.2]
  | multiplexor controls options, h => by
      rw [predicates, List.forall_mem_append] at h
      rw [evaluate, evaluate, evaluateAll_congr controls h.1]
      congr 1
      funext rs
      exact evaluateAt_congr options (intControl rs) h.2

theorem evaluateAll_congr : ∀ sa : List (BooleanExpression P),
    (∀ p ∈ predicatesAll sa, f p = g p) → evaluateAll f sa = evaluateAll g sa
  | [], _ => rfl
  | a :: sa, h => by
      rw [predicatesAll, List.forall_mem_append] at h
      rw [evaluateAll, evaluateAll, evaluate_congr a h.1, evaluateAll_congr sa h.2]

theorem evaluateAt_congr : ∀ (sa : List (BooleanExpression P)) (i : Nat),
    (∀ p ∈ predicatesAll sa, f p = g p) → evaluateAt f sa i = evaluateAt g sa i
  | [], _, _ => rfl
  | a :: _, 0, h => by
      rw [predicatesAll, List.forall_mem_append] at h
      exact evaluate_congr a h.1
  | _ :: sa, i + 1, h => by
      rw [predicatesAll, List.forall_mem_append] at h
      exact evaluateAt_congr sa i h.2

end

theorem length_evaluateAll (sa : List (BooleanExpression P)) {rs : List Bool}
    (h : evaluateAll f sa = some rs) : rs.length = sa.length := by
  induction sa generalizing rs with
  | nil =>
      rw [← Option.some.inj h]
      rfl
  | cons a sa ih =>
      rw [evaluateAll] at h
      obtain ⟨r, _, h⟩ := Option.bind_eq_some_iff.mp h
      obtain ⟨rs', hrs', h⟩ := Option.bind_eq_some_iff.mp h
      rw [← Option.some.inj h, List.length_cons, List.length_cons, ih hrs']

theorem intControl_lt (rs : List Bool) : intControl rs < 2 ^ rs.length := by
  induction rs with
  | nil => exact Nat.one_pos
  | cons r rs ih =>
      rw [List.length_cons, Nat.pow_succ]
      unfold intControl
      cases r <;> simp <;> omega

mutual

/-- **Evaluation fails no assertion of its own.** -/
theorem evaluate_isSome : ∀ a : BooleanExpression P, Constructed a →
    (∀ p ∈ predicates a, ∃ r, f p = some r) → ∃ r, evaluate f a = some r
  | constant value, _, _ => ⟨value, rfl⟩
  | predicate p, _, h => h p (List.mem_singleton.mpr rfl)
  | notOp a, ha, h => by
      obtain ⟨r, hr⟩ := evaluate_isSome a ha h
      exact ⟨!r, by rw [evaluate, hr]; rfl⟩
  | andOp sa, ha, h => by
      obtain ⟨rs, hrs⟩ := evaluateAll_isSome sa ha h
      exact ⟨minElement rs, by rw [evaluate, hrs]; rfl⟩
  | orOp sa, ha, h => by
      obtain ⟨rs, hrs⟩ := evaluateAll_isSome sa ha h
      exact ⟨maxElement rs, by rw [evaluate, hrs]; rfl⟩
  | boolEqual a b, ha, h => by
      rw [predicates, List.forall_mem_append] at h
      obtain ⟨ra, hra⟩ := evaluate_isSome a ha.1 h.1
      obtain ⟨rb, hrb⟩ := evaluate_isSome b ha.2 h.2
      exact ⟨ra == rb, by rw [evaluate, hra, hrb]; rfl⟩
  | implication a b, ha, h => by
      rw [predicates, List.forall_mem_append] at h
      obtain ⟨ra, hra⟩ := evaluate_isSome a ha.1 h.1
      obtain ⟨rb, hrb⟩ := evaluate_isSome b ha.2 h.2
      exact ⟨if ra then rb else true, by rw [evaluate, hra, hrb]; rfl⟩
  | uniplexor a b c, ha, h => by
      rw [predicates, List.forall_mem_append, List.forall_mem_append] at h
      obtain ⟨ra, hra⟩ := evaluate_isSome a ha.1 h.1
      obtain ⟨rb, hrb⟩ := evaluate_isSome b ha.2.1 h.2.1
      obtain ⟨rc, hrc⟩ := evaluate_isSome c ha.2.2 h.2.2
      rw [evaluate, hra]
      -- the source evaluates the option that is chosen only
      cases ra with
      | true => exact ⟨rb, hrb⟩
      | false => exact ⟨rc, hrc⟩
  | multiplexor controls options, ha, h => by
      rw [predicates, List.forall_mem_append] at h
      obtain ⟨rs, hrs⟩ := evaluateAll_isSome controls ha.2.1 h.1
      rw [evaluate, hrs]
      -- the controls pick an option that is there
      apply evaluateAt_isSome options (intControl rs) ha.2.2 h.2
      rw [ha.1, ← length_evaluateAll controls hrs]
      exact intControl_lt rs

theorem evaluateAll_isSome : ∀ sa : List (BooleanExpression P), ConstructedAll sa →
    (∀ p ∈ predicatesAll sa, ∃ r, f p = some r) → ∃ rs, evaluateAll f sa = some rs
  | [], _, _ => ⟨[], rfl⟩
  | a :: sa, ha, h => by
      rw [predicatesAll, List.forall_mem_append] at h
      obtain ⟨r, hr⟩ := evaluate_isSome a ha.1 h.1
      obtain ⟨rs, hrs⟩ := evaluateAll_isSome sa ha.2 h.2
      exact ⟨r :: rs, by rw [evaluateAll, hr, hrs]; rfl⟩

theorem evaluateAt_isSome : ∀ (sa : List (BooleanExpression P)) (i : Nat), ConstructedAll sa →
    (∀ p ∈ predicatesAll sa, ∃ r, f p = some r) → i < sa.length →
    ∃ r, evaluateAt f sa i = some r
  | [], _, _, _, hi => absurd hi (by simp)
  | a :: _, 0, ha, h, _ => by
      rw [predicatesAll, List.forall_mem_append] at h
      exact evaluate_isSome a ha.1 h.1
  | _ :: sa, i + 1, ha, h, hi => by
      rw [predicatesAll, List.forall_mem_append] at h
      exact evaluateAt_isSome sa i ha.2 h.2 (Nat.lt_of_succ_lt_succ hi)

end

theorem evaluateAt_eq (sa : List (BooleanExpression P)) : ∀ i : Nat,
    evaluateAt f sa i = sa[i]?.bind (evaluate f) := by
  induction sa with
  | nil => exact fun _ => rfl
  | cons a sa ih =>
      intro i
      cases i with
      | zero => rfl
      | succ i => exact ih i

end

end BooleanExpression

end Inferno.SYM
