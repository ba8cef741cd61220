/-
  Inferno.SYM.PreSolveSurvival
  ────────────────────────────
  **WHEN THE ACTUAL ROW SURVIVES `PreSolve`.**

    • `Derived.lacks`      — what is derived from two predicates lacks an operand that
                             both have, so it is neither of them,
    • `holds_of_orderKey`  — equal predicates hold together,
    • `survives_of_nodup`  — the derivations are sound, so the row of the truth values
                             breaks no rule, when no axis repeats an operand,
    • `preSolve_preserves` — then `PreSolve` preserves the meaning of the actual row,
    • `preSolve_preserves_kept` — one that is kept although the table is extended.
-/
import Inferno.SYM.DerivationExact
import Inferno.SYM.PreSolveDatabase
import Inferno.SYM.RelationshipExact

namespace Inferno.SYM

open Inferno.Common
open Inferno.DB

/-! ## §1. Predicates that repeat no operand. -/

section

variable {S A M : Type} {p q pi pj pk : PredicateOperator S A M}

theorem ne_of_nodup_pair {a b : S} {l : List S} (hl : l = [a, b]) (hnodup : l.Nodup) : a ≠ b := by
  rw [hl] at hnodup
  simpa using hnodup

theorem not_contracted (hpi : pi.operands.Nodup)
    (hpj : pj.operands.Nodup) : ¬ Contracted pi pj := by
  rintro (⟨a, c, d, _, hi, _⟩ | ⟨c, _, hj, _⟩)
  · exact ne_of_nodup_pair hi hpi rfl
  · exact ne_of_nodup_pair hj hpj rfl

theorem not_selfOrdered (hpi : pi.operands.Nodup) :
    ¬ SelfOrdered pi pj := by
  rintro ⟨a, d, _, hi, _⟩
  exact ne_of_nodup_pair hi hpi rfl

variable [DecidableEq S]

/-- Substitution at one of different operands leaves none of it. -/
theorem substituteFirst_lacks {existing «with» : S} (hne : existing ≠ «with») {sop sop' : List S}
    (hnodup : sop.Nodup) (h : PredicateOperator.substituteFirst existing «with» sop = some sop') :
    existing ∈ sop ∧ existing ∉ sop' := by
  induction sop generalizing sop' with
  | nil => exact absurd h (by simp [PredicateOperator.substituteFirst])
  | cons s sop ih =>
      obtain ⟨hs, hrest⟩ := List.nodup_cons.mp hnodup
      unfold PredicateOperator.substituteFirst at h
      by_cases heq : existing = s
      · subst heq
        rw [if_pos rfl, Option.some.injEq] at h
        subst h
        exact ⟨List.mem_cons_self, List.not_mem_cons_of_ne_of_not_mem hne hs⟩
      · rw [if_neg heq] at h
        obtain ⟨sop₁, hsop₁, rfl⟩ := Option.map_eq_some_iff.mp h
        obtain ⟨hin, hout⟩ := ih hrest hsop₁
        exact ⟨List.mem_cons_of_mem s hin, List.not_mem_cons_of_ne_of_not_mem heq hout⟩

theorem trySubstitute_lacks {existing «with» : S} (hne : existing ≠ «with»)
    (hnodup : p.operands.Nodup) (h : p.trySubstitute existing «with» = some pk) :
    existing ∈ p.operands ∧ existing ∉ pk.operands :=
  substituteFirst_lacks hne hnodup (trySubstitute_eq_some h).2

/-- **What is derived lacks an operand** that both predicates have. -/
theorem Derived.lacks (h : Derived pi pj pk) (hpi : pi.operands.Nodup)
    (hpj : pj.operands.Nodup) : ∃ s, s ∈ pi.operands ∧ s ∈ pj.operands ∧ s ∉ pk.operands := by
  cases h with
  | @equal a b _ hi h =>
      have hab := ne_of_nodup_pair hi hpi
      rcases h with h | h
      · obtain ⟨hin, hout⟩ := trySubstitute_lacks hab hpj h
        exact ⟨a, by simp [hi], hin, hout⟩
      · obtain ⟨hin, hout⟩ := trySubstitute_lacks hab.symm hpj h
        exact ⟨b, by simp [hi], hin, hout⟩
  | @textbook a b d _ _ hj h =>
      obtain ⟨hin, hout⟩ := trySubstitute_lacks (ne_of_nodup_pair hj hpj) hpi h
      exact ⟨b, hin, by simp [hj], hout⟩
  | @forward a b c _ _ hj h =>
      obtain ⟨hin, hout⟩ := trySubstitute_lacks (ne_of_nodup_pair hj hpj).symm hpi h
      exact ⟨a, hin, by simp [hj], hout⟩
  | @commuted a b c _ _ hj h =>
      obtain ⟨hin, hout⟩ := trySubstitute_lacks (ne_of_nodup_pair hj hpj).symm hpi h
      exact ⟨b, hin, by simp [hj], hout⟩
  | @reverse a b d _ _ hj h =>
      obtain ⟨hin, hout⟩ := trySubstitute_lacks (ne_of_nodup_pair hj hpj) hpi h
      exact ⟨a, hin, by simp [hj], hout⟩

/-- Equal predicates have the same operands, in some order and number. -/
theorem toFinset_eq_of_orderKey (h : p.orderKey = q.orderKey) :
    p.kind = q.kind ∧ p.operands.toFinset = q.operands.toFinset := by
  obtain ⟨hkind, hoperands⟩ := Prod.mk.inj h
  refine ⟨hkind, ?_⟩
  rw [hkind] at hoperands
  split at hoperands
  · exact OperandKey.unordered.inj hoperands
  · rw [OperandKey.inOrder.inj hoperands]

/-- And so it is neither of the two. -/
theorem Derived.orderKey_ne (h : Derived pi pj pk) (hpi : pi.operands.Nodup)
    (hpj : pj.operands.Nodup) : pi.orderKey ≠ pk.orderKey ∧ pj.orderKey ≠ pk.orderKey := by
  obtain ⟨s, hi, hj, hk⟩ := h.lacks hpi hpj
  rw [← List.mem_toFinset] at hi hj hk
  constructor
  · intro heq
    exact hk ((toFinset_eq_of_orderKey heq).2 ▸ hi)
  · intro heq
    exact hk ((toFinset_eq_of_orderKey heq).2 ▸ hj)

end

/-! ## §2. Equal predicates hold together. -/

section

variable {S A M : Type} [DecidableEq S] {isSubcategory : A → A → Bool}
  {e : Evaluation S A M isSubcategory} {p q : PredicateOperator S A M}

/-- Operands of a commutative class that has a true predicate on them, and a predicate
on the same ones without repeats: none is repeated. -/
theorem nodup_of_holds (hcomm : p.kind.isCommutative = true) (hkind : p.kind = q.kind)
    (hsame : p.operands.toFinset = q.operands.toFinset) (hq : q.operands.Nodup)
    (hp : e.Holds p) : p.operands.Nodup := by
  have hpair : p.operands.length = 2 → q.operands.length = 2 → p.operands.Nodup := by
    intro hlen hlen'
    rw [← Multiset.coe_nodup, ← Multiset.toFinset_card_eq_card_iff_nodup]
    show p.operands.toFinset.card = p.operands.length
    rw [hsame, List.toFinset_card_of_nodup hq, hlen, hlen']
  have hpa := p.arity
  have hqa := q.arity
  rw [← hkind] at hqa
  cases hk : p.kind with
  | isEqual =>
      rw [hk] at hpa hqa
      exact hpair hpa hqa
  | isSimpleCompareEquivalent =>
      rw [hk] at hpa hqa
      exact hpair hpa hqa
  | isAllDiff => exact (values_nodup (.inr (.inr hk)) hp).1.of_map
  | _ =>
      rw [hk] at hcomm
      exact absurd hcomm (by simp [PredicateKind.isCommutative])

/-- **A predicate equal to one that holds does**, when it repeats no operand. -/
theorem Evaluation.holds_of_orderKey (hkey : p.orderKey = q.orderKey) (hq : q.operands.Nodup)
    (hp : e.Holds p) : e.Holds q := by
  obtain ⟨hkind, hsame⟩ := toFinset_eq_of_orderKey hkey
  by_cases hcomm : p.kind.isCommutative = true
  · have hnodup := nodup_of_holds hcomm hkind hsame hq hp
    have hperm : p.operands.Perm q.operands :=
      (List.perm_ext_iff_of_nodup hnodup hq).mpr (fun s => by
        rw [← List.mem_toFinset, hsame, List.mem_toFinset])
    unfold Evaluation.Holds at hp ⊢
    rw [← hkind, ← evaluateOn_perm (fun _ _ h => e.tie_symm h) hcomm (hperm.map e.value)]
    exact hp
  · obtain ⟨_, hoperands⟩ := Prod.mk.inj hkey
    rw [← hkind, if_neg hcomm, if_neg hcomm] at hoperands
    exact (e.holds_congr hkind (by rw [OperandKey.inOrder.inj hoperands])).mp hp

end

/-! ## §3. The row survives. -/

section

variable {S A M : Type} [DecidableEq S] [DecidableEq A] [DecidableEq M]
  {layout : Layout S A M} {isSubcategory : A → A → Bool}

variable {e : Evaluation S A M isSubcategory} {axes : List (EqualPredicateSet S A M)}
  {w : List Bool}

/-- **The row of the truth values breaks no rule**, when no axis repeats an operand and
ties are transitive. -/
theorem not_breaks_of_nodup (htrans : e.TiesTransitive)
    (hnodup : ∀ s ∈ axes, (s.front layout).operands.Nodup)
    (hrow : ∀ (i : Nat) s b, axes[i]? = some s → w[i]? = some b →
      (e.Holds (s.front layout) ↔ b = true)) (ij : Nat × Nat) :
    ¬ Breaks layout isSubcategory axes w ij := by
  rintro ⟨si, sj, hsi, hsj, h⟩
  have hpi := hnodup si (List.mem_of_getElem? hsi)
  have hpj := hnodup sj (List.mem_of_getElem? hsj)
  rcases h with (⟨hrel, hwi, hwj⟩ | ⟨hrel, hwi, hwj⟩) | ⟨pk, k, hpk, hlookup, hwi, hwj, hk⟩
  · -- they contradict each other
    obtain ⟨_, hm, hr⟩ := (tryDeriveRelationship_cases (by decide)).mp hrel
    exact contradicts_sound hr hm (not_contracted hpi hpj)
      ⟨(hrow _ _ _ hsi hwi).mpr rfl, (hrow _ _ _ hsj hwj).mpr rfl⟩
  · -- the first implies the second
    obtain ⟨_, hm, hr⟩ := (tryDeriveRelationship_cases (by decide)).mp hrel
    have hj := implies_sound hr hm (not_contracted hpi hpj) ((hrow _ _ _ hsi hwi).mpr rfl)
    exact absurd ((hrow _ _ _ hsj hwj).mp hj) (by decide)
  · -- a predicate is derived from the two, and has the axis `k`
    have hderived := tryDerivePredicate_cases hpk
    have hholds := hderived.sound (not_selfOrdered hpi) (.inr htrans)
      ((hrow _ _ _ hsi hwi).mpr rfl) ((hrow _ _ _ hsj hwj).mpr rfl)
    obtain ⟨hnei, hnej⟩ := hderived.orderKey_ne hpi hpj
    obtain ⟨sk, hsk, hkey⟩ := (predToIndex_spec layout axes pk.orderKey).2 k hlookup
    rcases hk with rfl | rfl | hwk
    · rw [hsi, Option.some.injEq] at hsk
      exact hnei (hsk ▸ hkey)
    · rw [hsj, Option.some.injEq] at hsk
      exact hnej (hsk ▸ hkey)
    · have hk := e.holds_of_orderKey hkey.symm (hnodup sk (List.mem_of_getElem? hsk)) hholds
      exact absurd ((hrow _ _ _ hsk hwk).mp hk) (by decide)

/-- **The actual row survives**, when no axis and no added predicate repeats an operand. -/
theorem survives_of_nodup {predicates added : List (EqualPredicateSet S A M)}
    {actual : List Bool} (htrans : e.TiesTransitive)
    (hnodup : ∀ s ∈ predicates ++ added, (s.front layout).operands.Nodup)
    (hlen : actual.length = predicates.length)
    (hactual : ∀ (i : Nat) s b, predicates[i]? = some s → actual[i]? = some b →
      (e.Holds (s.front layout) ↔ b = true)) :
    Survives layout isSubcategory predicates added actual := by
  classical
  -- the added predicates have their truth values
  refine ⟨added.map (fun s => decide (e.Holds (s.front layout))), List.length_map _, ?_⟩
  intro ij _
  refine not_breaks_of_nodup htrans hnodup ?_ ij
  intro i s b hs hb
  by_cases hi : i < predicates.length
  · rw [List.getElem?_append_left hi] at hs
    rw [List.getElem?_append_left (hlen ▸ hi)] at hb
    exact hactual i s b hs hb
  · rw [List.getElem?_append_right (by omega)] at hs hb
    rw [hlen, List.getElem?_map, hs, Option.map_some, Option.some.injEq] at hb
    rw [← hb, decide_eq_true_iff]

end

/-! ## §4. The meaning is preserved. -/

section

variable {V L A N M : Type} [LinearOrder L] [DecidableEq V] [DecidableEq A] [DecidableEq M]

/-- **`PreSolve` preserves the meaning** of an expression at the actual row, when neither
its predicates nor those that the table is extended by repeat an operand, and ties of
`SimpleCompare` are transitive on the nodes of the database. -/
theorem preSolve_preserves
    (layout : Layout (SymbolExpression V L A) A M) (isSubcategory : A → A → Bool)
    (hypothesisLinks : StdMap V (XLink L)) (db : XTreeDatabase L N A)
    (harchetypes : ∀ a b node, isSubcategory a b = true → db.isSubcategory b node = true →
      db.isSubcategory a node = true)
    (simpleCompare : Option N → Option N → Int) (hself : ∀ x, simpleCompare x x = 0)
    (hsymm : ∀ x y, simpleCompare x y = 0 → simpleCompare y x = 0)
    (htrans : ∀ x y z, simpleCompare x y = 0 → simpleCompare y z = 0 → simpleCompare x z = 0)
    (isLocalMatch : M → Option N → Bool)
    (expr : BooleanExpression (PredicateOperator (SymbolExpression V L A) A M))
    (hconstructed : expr.Constructed) (hrepeat : ∀ p ∈ expr.predicates, p.operands.Nodup)
    (hdefined : ∀ p ∈ expr.predicates, ∃ b,
      predicateEvaluate hypothesisLinks db (databaseKit db simpleCompare isLocalMatch) p = some b)
    (hadded : ∀ added, addedPreds layout (getPredicates layout expr) = some added →
      ∀ s ∈ added, ∀ p ∈ s.preds, p.operands.Nodup) :
    ∃ ttwp actual result alt,
      preSolve layout isSubcategory expr = some ttwp
      ∧ ttwp.predicates.mapM (fun s => predicateEvaluate hypothesisLinks db
          (databaseKit db simpleCompare isLocalMatch) (s.front layout)) = some actual
      ∧ expr.evaluate (predicateEvaluate hypothesisLinks db
          (databaseKit db simpleCompare isLocalMatch)) = some result
      ∧ getAltExpressionForTesting layout ttwp = some alt
      ∧ ttwp.truthTable.get actual = some (if result then .TRUE else .FALSE)
      ∧ alt.evaluate (predicateEvaluate hypothesisLinks db
          (databaseKit db simpleCompare isLocalMatch)) = some result := by
  -- a tie is symmetric, so an equivalence may be asked either way round
  have hkit : ∀ x y : XLink L, (databaseKit db simpleCompare isLocalMatch).simpleCompare x y = 0 →
      (databaseKit db simpleCompare isLocalMatch).simpleCompare y x = 0 := fun _ _ h => hsymm _ _ h
  obtain ⟨added, ttwp, actual, result, alt, hadds, hpre, hpreds, hactual, hresult, halt, hyes, _⟩ :=
    preSolve_spec layout isSubcategory hconstructed hdefined
      (fun p hp q hq => predicateEvaluate_congr hypothesisLinks db hkit (hrepeat p hp)
        (hrepeat q hq))
  obtain ⟨hlen, hvalues⟩ := getElem?_of_mapM hactual
  have hnodup : ∀ s ∈ ttwp.predicates ++ added, (s.front layout).operands.Nodup := by
    intro s hs
    rcases List.mem_append.mp hs with hs | hs
    · rw [hpreds] at hs
      exact hrepeat _ (mem_of_mem_groupByEquality hs (s.front_mem layout))
    · exact hadded added hadds s hs _ (s.front_mem layout)
  -- the derivations are sound at the actual row, which therefore survives
  have hsurvives : Survives layout isSubcategory ttwp.predicates added actual := by
    refine survives_of_nodup (e := Evaluation.ofLinks hypothesisLinks db harchetypes simpleCompare
      hself hsymm isLocalMatch) htrans hnodup hlen ?_
    intro i s b hs hb
    exact Evaluation.holds_ofLinks ((hvalues i s hs).trans hb)
  obtain ⟨hcell, halternative⟩ := hyes hsurvives
  exact ⟨ttwp, actual, result, alt, hpre, hactual, hresult, halt, hcell, halternative⟩

end

/-! ## §5. A row that is kept. -/

/-- `a > b | b >= c | a >= b | b > c`: from the first two and from the last two follows
`a > c`, that the table is extended by. -/
def keptExpression :
    BooleanExpression (PredicateOperator (SymbolExpression Nat Nat Unit) Unit Unit) :=
  .orOp [.predicate (greater 0 1), .predicate (greaterOrEqual 1 2),
    .predicate (greaterOrEqual 0 1), .predicate (greater 1 2)]

noncomputable def keptLayout : Layout (SymbolExpression Nat Nat Unit) Unit Unit :=
  .ofList (((List.range 3).flatMap fun a => (List.range 3).flatMap fun b =>
    [greater a b, greaterOrEqual a b]).map PredicateOperator.orderKey) (by decide)

/-- `a`, `b` and `c` are the roots of the third, the second and the first tree. -/
def keptLinks : StdMap Nat (XLink Nat) :=
  ((StdMap.empty.set 0 (.link 2)).set 1 (.link 1)).set 2 (.link 0)

def keptEvaluate (p : PredicateOperator (SymbolExpression Nat Nat Unit) Unit Unit) :
    Option Bool :=
  predicateEvaluate keptLinks (leafDatabase 3)
    (databaseKit (leafDatabase 3) (fun _ _ => 0) (fun _ _ => true)) p

theorem keptExpression_defined :
    ∀ p ∈ keptExpression.predicates, ∃ b, keptEvaluate p = some b := by
  intro p hp
  have hsome : (keptEvaluate p).isSome = true := by
    revert p
    decide
  exact Option.isSome_iff_exists.mp hsome

theorem keptExpression_added : ∀ added,
    addedPreds keptLayout (getPredicates keptLayout keptExpression) = some added →
      ∀ s ∈ added, ∀ p ∈ s.preds, p.operands.Nodup := by
  intro added hadded
  have hall : (addedPreds keptLayout (getPredicates keptLayout keptExpression)).all (fun added =>
      added.all fun s => s.preds.all fun p => decide p.operands.Nodup) = true := by
    decide +kernel
  rw [hadded] at hall
  simpa using hall

/-- **A row is kept**: all four are true, and `a > c` does not repeat an operand. -/
theorem preSolve_preserves_kept :
    ∃ ttwp actual result alt,
      preSolve keptLayout (fun _ _ => true) keptExpression = some ttwp
      ∧ ttwp.predicates.mapM (fun s => keptEvaluate (s.front keptLayout)) = some actual
      ∧ keptExpression.evaluate keptEvaluate = some result
      ∧ getAltExpressionForTesting keptLayout ttwp = some alt
      ∧ ttwp.truthTable.get actual = some (if result then .TRUE else .FALSE)
      ∧ alt.evaluate keptEvaluate = some result :=
  preSolve_preserves keptLayout (fun _ _ => true) keptLinks (leafDatabase 3)
    (fun _ _ _ _ h => h) (fun _ _ => 0) (fun _ => rfl) (fun _ _ _ => rfl) (fun _ _ _ _ _ => rfl)
    (fun _ _ => true) keptExpression
    (by simp [keptExpression, BooleanExpression.Constructed, BooleanExpression.ConstructedAll])
    (by decide) keptExpression_defined keptExpression_added

example : (addedPreds keptLayout (getPredicates keptLayout keptExpression)).map
    (List.map (·.front keptLayout)) = some [greater 0 2] := by
  decide +kernel

end Inferno.SYM
