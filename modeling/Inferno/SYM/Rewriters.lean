/-
  Inferno.SYM.Rewriters
  ─────────────────────
  The rewriters of rewriters.cpp, and the variables an expression requires.

    • `requiredVariables`   — `GetRequiredVariables`,
    • `splitAnds`           — `PreprocessForEngine::SplitAnds`: the conjuncts,
    • `preprocessForEngine` — the conjuncts of a list, without the constants,
    • `mem_splitAnds_andAll` — a conjunction built by `&=` splits into what its clauses
                              split into,
    • `condense`            — the conjuncts again, one conjunction for each set of
                              required variables.
-/
import Inferno.SYM.BooleanExpression
import Inferno.Common.Assert
import Mathlib.Data.List.Dedup
import Mathlib.Data.Finset.Lattice.Basic

namespace Inferno.SYM.BooleanExpression

open Inferno.Common

variable {P V : Type}

/-! ## §1. Required variables. -/

section

variable [DecidableEq V]

/-- `GetRequiredVariables`, given those of the predicates. -/
def requiredVariables (vars : P → Finset V) (e : BooleanExpression P) : Finset V :=
  (e.predicates.map vars).foldr (· ∪ ·) ∅

theorem mem_requiredVariables {vars : P → Finset V} {e : BooleanExpression P} {v : V} :
    v ∈ e.requiredVariables vars ↔ ∃ p ∈ e.predicates, v ∈ vars p := by
  unfold requiredVariables
  induction e.predicates with
  | nil => simp
  | cons p ps ih =>
      rw [List.map_cons, List.foldr_cons, Finset.mem_union, ih, List.exists_mem_cons_iff]

/-- An expression with fewer predicates requires fewer variables. -/
theorem requiredVariables_mono {vars : P → Finset V} {a e : BooleanExpression P}
    (h : ∀ p ∈ a.predicates, p ∈ e.predicates) :
    a.requiredVariables vars ⊆ e.requiredVariables vars := by
  intro v hv
  obtain ⟨p, hp, hvp⟩ := mem_requiredVariables.mp hv
  exact mem_requiredVariables.mpr ⟨p, h p hp, hvp⟩

end

/-! ## §2. Splitting. -/

mutual

/-- `SplitAnds`. -/
def splitAnds : BooleanExpression P → List (BooleanExpression P)
  | andOp sa => splitAndsAll sa
  | constant value => [constant value]
  | predicate p => [predicate p]
  | notOp a => [notOp a]
  | orOp sa => [orOp sa]
  | boolEqual a b => [boolEqual a b]
  | implication a b => [implication a b]
  | uniplexor a b c => [uniplexor a b c]
  | multiplexor controls options => [multiplexor controls options]

/-- Its loop over the operands. -/
def splitAndsAll : List (BooleanExpression P) → List (BooleanExpression P)
  | [] => []
  | a :: sa => splitAnds a ++ splitAndsAll sa

end

theorem splitAndsAll_eq_flatMap (sa : List (BooleanExpression P)) :
    splitAndsAll sa = sa.flatMap splitAnds := by
  induction sa with
  | nil => rfl
  | cons a sa ih => rw [splitAndsAll, ih, List.flatMap_cons]

mutual

/-- A conjunct has no predicates of its own. -/
theorem predicates_of_mem_splitAnds : ∀ (e c : BooleanExpression P), c ∈ splitAnds e →
    ∀ p ∈ c.predicates, p ∈ e.predicates
  | andOp sa, c, hc, p, hp => predicates_of_mem_splitAndsAll sa c hc p hp
  | constant _, c, hc, p, hp => by rw [splitAnds, List.mem_singleton] at hc; exact hc ▸ hp
  | predicate _, c, hc, p, hp => by rw [splitAnds, List.mem_singleton] at hc; exact hc ▸ hp
  | notOp _, c, hc, p, hp => by rw [splitAnds, List.mem_singleton] at hc; exact hc ▸ hp
  | orOp _, c, hc, p, hp => by rw [splitAnds, List.mem_singleton] at hc; exact hc ▸ hp
  | boolEqual _ _, c, hc, p, hp => by rw [splitAnds, List.mem_singleton] at hc; exact hc ▸ hp
  | implication _ _, c, hc, p, hp => by rw [splitAnds, List.mem_singleton] at hc; exact hc ▸ hp
  | uniplexor _ _ _, c, hc, p, hp => by rw [splitAnds, List.mem_singleton] at hc; exact hc ▸ hp
  | multiplexor _ _, c, hc, p, hp => by rw [splitAnds, List.mem_singleton] at hc; exact hc ▸ hp

theorem predicates_of_mem_splitAndsAll : ∀ (sa : List (BooleanExpression P))
    (c : BooleanExpression P), c ∈ splitAndsAll sa → ∀ p ∈ c.predicates, p ∈ predicatesAll sa
  | [], _, hc, _, _ => absurd hc List.not_mem_nil
  | a :: sa, c, hc, p, hp => by
      rw [splitAndsAll, List.mem_append] at hc
      rw [predicatesAll, List.mem_append]
      rcases hc with hc | hc
      · exact Or.inl (predicates_of_mem_splitAnds a c hc p hp)
      · exact Or.inr (predicates_of_mem_splitAndsAll sa c hc p hp)

end

mutual

/-- The conjuncts together say what the expression says. -/
theorem satisfied_splitAnds {pred : P → Option Bool} : ∀ e : BooleanExpression P,
    (∀ c ∈ splitAnds e, c.Satisfied pred) ↔ e.Satisfied pred
  | andOp sa => by rw [splitAnds, satisfied_andOp]; exact satisfied_splitAndsAll sa
  | constant _ => List.forall_mem_singleton
  | predicate _ => List.forall_mem_singleton
  | notOp _ => List.forall_mem_singleton
  | orOp _ => List.forall_mem_singleton
  | boolEqual _ _ => List.forall_mem_singleton
  | implication _ _ => List.forall_mem_singleton
  | uniplexor _ _ _ => List.forall_mem_singleton
  | multiplexor _ _ => List.forall_mem_singleton

theorem satisfied_splitAndsAll {pred : P → Option Bool} : ∀ sa : List (BooleanExpression P),
    (∀ c ∈ splitAndsAll sa, c.Satisfied pred) ↔ ∀ a ∈ sa, a.Satisfied pred
  | [] => by simp [splitAndsAll]
  | a :: sa => by
      rw [splitAndsAll, List.forall_mem_append, List.forall_mem_cons, satisfied_splitAnds a,
        satisfied_splitAndsAll sa]

end

/-! ## §3. Splitting a tidied conjunction. -/

theorem splitAndsAll_append (sa sb : List (BooleanExpression P)) :
    splitAndsAll (sa ++ sb) = splitAndsAll sa ++ splitAndsAll sb := by
  simp only [splitAndsAll_eq_flatMap, List.flatMap_append]

/-- What a tidied conjunction splits into comes from its operands. -/
theorem mem_splitAndsAll_of_tidy {c : BooleanExpression P} (l : List (BooleanExpression P)) :
    ∀ out : List (BooleanExpression P), c ∈ splitAndsAll (tidy .andOp true out l) →
      c ∈ splitAndsAll out ∨ c ∈ splitAndsAll l := by
  induction l with
  | nil => intro out hc; exact Or.inl hc
  | cons a l ih =>
      intro out hc
      rw [splitAndsAll, List.mem_append]
      cases a with
      | andOp sa =>
          have hc' : c ∈ splitAndsAll (tidy .andOp true (out ++ sa) l) := hc
          rcases ih _ hc' with h | h
          · rw [splitAndsAll_append, List.mem_append] at h
            exact h.imp id Or.inl
          · exact Or.inr (Or.inr h)
      | constant value =>
          cases value with
          | true => exact (ih out hc).imp id Or.inr
          | false => exact Or.inr (Or.inl hc)
      | _ =>
          rw [tidy, TidyOp.cast] at hc
          · rcases ih _ hc with h | h
            · rw [splitAndsAll_append, List.mem_append] at h
              refine h.imp id (fun hmem => Or.inl ?_)
              rwa [splitAndsAll, splitAndsAll, List.append_nil] at hmem
            · exact Or.inr (Or.inr h)
          all_goals simp

/-- And nothing of them is missing, unless a constant false dominates. -/
theorem mem_splitAndsAll_tidy {c : BooleanExpression P} (hc : c ≠ constant true)
    (l : List (BooleanExpression P)) :
    ∀ out : List (BooleanExpression P),
      constant false ∉ splitAndsAll (tidy .andOp true out l) →
      c ∈ splitAndsAll out ∨ c ∈ splitAndsAll l → c ∈ splitAndsAll (tidy .andOp true out l) := by
  induction l with
  | nil =>
      intro out _ h
      exact h.resolve_right List.not_mem_nil
  | cons a l ih =>
      intro out hfalse h
      rw [splitAndsAll, List.mem_append] at h
      cases a with
      | andOp sa =>
          refine ih (out ++ sa) hfalse ?_
          rw [splitAndsAll_append, List.mem_append, or_assoc]
          exact h
      | constant value =>
          cases value with
          | true =>
              refine ih out hfalse (h.imp id (fun h => h.resolve_left ?_))
              intro hmem
              exact hc (List.mem_singleton.mp hmem)
          -- the constant that dominates is excluded
          | false => exact absurd List.mem_cons_self hfalse
      | _ =>
          rw [tidy, TidyOp.cast] at hfalse ⊢
          · refine ih _ hfalse ?_
            rw [splitAndsAll_append, List.mem_append, or_assoc]
            refine h.imp id (fun h => h.imp (fun hmem => ?_) id)
            rwa [splitAndsAll, splitAndsAll, List.append_nil]
          all_goals simp

theorem mem_splitAnds_createTidiedOperator {c : BooleanExpression P} (hc : c ≠ constant true)
    (l : List (BooleanExpression P)) :
    c ∈ splitAnds (createTidiedOperator .andOp true l)
      ↔ c ∈ splitAndsAll (tidy .andOp true [] l) := by
  unfold createTidiedOperator
  split
  next heq =>
    rw [heq]
    simp [splitAnds, splitAndsAll, hc]
  next a heq => rw [heq, splitAndsAll, splitAndsAll, List.append_nil]
  next out _ _ => rfl

theorem constant_false_ne_true : (constant false : BooleanExpression P) ≠ constant true := by
  simp

theorem mem_splitAnds_and {c : BooleanExpression P} (hc : c ≠ constant true)
    {a b : BooleanExpression P} (hfalse : constant false ∉ splitAnds (a.and b)) :
    c ∈ splitAnds (a.and b) ↔ c ∈ splitAnds a ∨ c ∈ splitAnds b := by
  have hsplit : splitAndsAll [a, b] = splitAnds a ++ splitAnds b := by
    rw [splitAndsAll, splitAndsAll, splitAndsAll, List.append_nil]
  unfold and at hfalse ⊢
  rw [mem_splitAnds_createTidiedOperator constant_false_ne_true] at hfalse
  rw [mem_splitAnds_createTidiedOperator hc, ← List.mem_append, ← hsplit]
  constructor
  · intro h
    exact (mem_splitAndsAll_of_tidy [a, b] [] h).resolve_left List.not_mem_nil
  · intro h
    exact mem_splitAndsAll_tidy hc [a, b] [] hfalse (Or.inr h)

/-- **A conjunction built by `&=` splits into what its parts split into**, when no constant
false dominates. -/
theorem mem_splitAnds_andAll (clauses : List (BooleanExpression P)) :
    ∀ expr : BooleanExpression P, constant false ∉ splitAnds (expr.andAll clauses) →
      ∀ c, c ≠ constant true → (c ∈ splitAnds (expr.andAll clauses)
        ↔ c ∈ splitAnds expr ∨ ∃ a ∈ clauses, c ∈ splitAnds a) := by
  induction clauses with
  | nil => intro expr _ c _; simp [andAll]
  | cons a clauses ih =>
      intro expr hfalse c hc
      have hsplit := ih (expr.and a) hfalse
      have hand : constant false ∉ splitAnds (expr.and a) := by
        intro hmem
        exact hfalse ((hsplit _ constant_false_ne_true).mpr (Or.inl hmem))
      show c ∈ splitAnds ((expr.and a).andAll clauses) ↔ _
      rw [hsplit c hc, mem_splitAnds_and hc hand, List.exists_mem_cons_iff, or_assoc]

/-! ## §4. Preprocessing for the engine. -/

/-- The second loop of `PreprocessForEngine`: a constant true goes, and the code asserts
that there is no constant false. -/
def dropConstants : List (BooleanExpression P) → Option (List (BooleanExpression P))
  | [] => some []
  | constant true :: l => dropConstants l
  | constant false :: _ => none
  | c :: l => (dropConstants l).map (c :: ·)

/-- `PreprocessForEngine`. -/
def preprocessForEngine (l : List (BooleanExpression P)) : Option (List (BooleanExpression P)) :=
  dropConstants (splitAndsAll l)

theorem dropConstants_eq_some {l : List (BooleanExpression P)} :
    ∀ {l' : List (BooleanExpression P)}, dropConstants l = some l' →
      constant false ∉ l ∧ ∀ c, c ∈ l' ↔ c ∈ l ∧ c ≠ constant true := by
  induction l with
  | nil =>
      intro l' h
      cases h
      simp
  | cons a l ih =>
      intro l' h
      cases a with
      -- `true` is dropped, `false` leaves nothing
      | constant value =>
          cases value with
          | true =>
              obtain ⟨hfalse, hmem⟩ := ih (show dropConstants l = some l' from h)
              refine ⟨by simpa using hfalse, ?_⟩
              intro c
              rw [hmem, List.mem_cons, or_and_right]
              simp
          | false => cases h
      -- any other stays
      | _ =>
          rw [dropConstants, Option.map_eq_some_iff] at h
          · obtain ⟨l₁, hl₁, rfl⟩ := h
            obtain ⟨hfalse, hmem⟩ := ih hl₁
            refine ⟨by simpa using hfalse, ?_⟩
            intro c
            rw [List.mem_cons, hmem, List.mem_cons, or_and_right]
            refine or_congr ?_ Iff.rfl
            constructor
            · intro hc
              exact ⟨hc, by rw [hc]; simp⟩
            · intro hc
              exact hc.1
          all_goals simp

/-- The conjuncts that are not constant, of a list in which no constant is false. -/
theorem preprocessForEngine_eq_some {l l' : List (BooleanExpression P)}
    (h : preprocessForEngine l = some l') :
    (∀ e ∈ l, constant false ∉ splitAnds e)
      ∧ ∀ c, c ∈ l' ↔ (∃ e ∈ l, c ∈ splitAnds e) ∧ c ≠ constant true := by
  obtain ⟨hfalse, hmem⟩ := dropConstants_eq_some h
  simp only [splitAndsAll_eq_flatMap, List.mem_flatMap] at hfalse hmem
  refine ⟨?_, hmem⟩
  intro e he hc
  exact hfalse ⟨e, he, hc⟩

/-! ## §5. Condensing. -/

section

variable [DecidableEq V]

/-- The sets of required variables that occur, once each: the keys of
`expressions_condensed`. -/
def condensedKeys (vars : P → Finset V) (l : List (BooleanExpression P)) : List (Finset V) :=
  (l.map (requiredVariables vars)).dedup

/-- One conjunction for each set of required variables. -/
def condense (vars : P → Finset V) (l : List (BooleanExpression P)) :
    List (BooleanExpression P) :=
  (condensedKeys vars l).map (fun required =>
    createTidiedOperator .andOp true
      (l.filter (fun bexpr => bexpr.requiredVariables vars = required)))

/-- **Condensing keeps the conjunction.** -/
theorem satisfied_condense {pred : P → Option Bool} (vars : P → Finset V)
    (l : List (BooleanExpression P)) :
    (∀ c ∈ condense vars l, c.Satisfied pred) ↔ ∀ c ∈ l, c.Satisfied pred := by
  unfold condense condensedKeys
  rw [List.forall_mem_map]
  simp only [satisfied_createTidiedOperator, List.mem_filter, decide_eq_true_eq]
  constructor
  · intro h c hc
    exact h _ (List.mem_dedup.mpr (List.mem_map_of_mem hc)) c ⟨hc, rfl⟩
  · intro h required _ c hc
    exact h c hc.1

end

end Inferno.SYM.BooleanExpression
