/-
  Inferno.SYM.RelationshipExact
  ─────────────────────────────
  **WHEN A RELATIONSHIP OF TWO PREDICATES IS TRUE.**

    • `tryDeriveRelationship_cases` — what a relationship that is reported says of the
                             classes and the operands,
    • `Contracted`         — an operand equated with itself, against a predicate of
                             different operands,
    • `tryDeriveRelationship_sound_iff` — implications and contradictions are true exactly
                             when the predicates do not stand so.
-/
import Inferno.SYM.Derivation
import Inferno.SYM.Evaluation

namespace Inferno.SYM

open Inferno.Common
open Inferno.DB
open Inferno.Lib

variable {S A M : Type} {isSubcategory : A → A → Bool}

/-! ## §1. What is reported. -/

namespace PredicateKind

variable {ki kj : PredicateKind A M}

theorem implies_cases (h : ki.getRelationshipWith isSubcategory kj = .IMPLIES) :
    (ki = .isEqual ∧ (kj = .isGreaterOrEqual ∨ kj = .isLessOrEqual
        ∨ kj = .isSimpleCompareEquivalent))
      ∨ (ki = .isGreater ∧ kj = .isGreaterOrEqual)
      ∨ (ki = .isLess ∧ kj = .isLessOrEqual)
      ∨ ∃ a b, ki = .isInCategory a ∧ kj = .isInCategory b ∧ isSubcategory b a = true := by
  cases ki <;> cases kj <;> simp [getRelationshipWith] at h ⊢
  exact h

theorem contradicts_cases (h : ki.getRelationshipWith isSubcategory kj = .CONTRADICTS) :
    ((ki = .isGreater ∨ ki = .isLess ∨ ki = .isAllDiff) ∧ kj = .isEqual)
      ∨ (ki = .isGreater ∧ (kj = .isLess ∨ kj = .isLessOrEqual))
      ∨ (ki = .isLess ∧ (kj = .isGreater ∨ kj = .isGreaterOrEqual))
      ∨ (ki = .isGreaterOrEqual ∧ kj = .isLess)
      ∨ (ki = .isLessOrEqual ∧ kj = .isGreater) := by
  cases ki <;> cases kj <;> simp [getRelationshipWith] at h ⊢
  -- two categories never contradict
  split at h <;> exact absurd h (by decide)

end PredicateKind

/-- A common part as large as one of two sets is that set. -/
theorem subset_or_subset {α : Type} [DecidableEq α] {s t : Finset α} :
    ¬ (s ∩ t).card < min s.card t.card ↔ s ⊆ t ∨ t ⊆ s := by
  rw [not_lt, min_le_iff]
  constructor
  · intro h
    rcases h with h | h
    · exact .inl (Finset.inter_eq_left.mp (Finset.eq_of_subset_of_card_le
        Finset.inter_subset_left h))
    · exact .inr (Finset.inter_eq_right.mp (Finset.eq_of_subset_of_card_le
        Finset.inter_subset_right h))
  · intro h
    rcases h with h | h
    · exact .inl (by rw [Finset.inter_eq_left.mpr h])
    · exact .inr (by rw [Finset.inter_eq_right.mpr h])

section

variable [DecidableEq S] [DecidableEq A] [DecidableEq M] {pi pj : PredicateOperator S A M}
  {rij : Relationship}

/-- **How operands are matched**: as sets when a class is commutative, else as lists. -/
def Matched (pi pj : PredicateOperator S A M) : Prop :=
  if pi.kind.isCommutative || pj.kind.isCommutative then
    pi.operands.toFinset ⊆ pj.operands.toFinset ∨ pj.operands.toFinset ⊆ pi.operands.toFinset
  else pi.operands = pj.operands

/-- **A relationship is reported** when the operands match and the table has it. -/
theorem tryDeriveRelationship_cases (hrij : rij ≠ .NONE) :
    tryDeriveRelationship isSubcategory pi pj = some rij
      ↔ pi.orderKey ≠ pj.orderKey ∧ Matched pi pj
        ∧ pi.kind.getRelationshipWith isSubcategory pj.kind = rij := by
  unfold tryDeriveRelationship Matched
  rw [ASSERT_bind_eq_some]
  dsimp only
  refine and_congr_right fun _ => ?_
  split
  · rw [← subset_or_subset]
    split
    next hlt => simp [hlt, Ne.symm hrij]
    next hge => simp [hge]
  · split
    next hne => simp [hne, Ne.symm hrij]
    next heq => simp [not_not.mp heq]

end

/-! ## §2. Relationships that are true. -/

section

variable {e : Evaluation S A M isSubcategory} {pi pj : PredicateOperator S A M}

/-- One operand, so one value. -/
theorem Evaluation.holds_isInCategory {p : PredicateOperator S A M} {a : A}
    (hk : p.kind = .isInCategory a) : e.Holds p ↔ ∃ s x, p.operands = [s] ∧ e.value s = some x
      ∧ e.kit.isSubcategory a x = true := by
  have harity := p.arity
  rw [hk] at harity
  obtain ⟨s, hs⟩ := List.length_eq_one_iff.mp harity
  rw [e.holds_iff, hs, hk]
  constructor
  · rintro ⟨xs, hxs, h⟩
    have hlen := congrArg List.length hxs
    rw [List.length_map, List.length_map] at hlen
    obtain ⟨x, rfl⟩ := List.length_eq_one_iff.mp hlen.symm
    simp only [List.map_cons, List.map_nil, List.cons.injEq, and_true] at hxs
    exact ⟨s, x, rfl, hxs, Option.some.inj h⟩
  · rintro ⟨s', x, hs', hx, h⟩
    cases hs'
    exact ⟨[x], by simp [hx], congrArg some h⟩

/-- Archetypes pass nodes up. -/
theorem Evaluation.isSubcategory_up {a b : A} (hab : isSubcategory b a = true) {x : XLink e.L}
    (h : e.kit.isSubcategory a x = true) : e.kit.isSubcategory b x = true := by
  have h : (e.db.getChildTreePtr x).any (e.db.isSubcategory a) = true := h
  show (e.db.getChildTreePtr x).any (e.db.isSubcategory b) = true
  cases hchild : e.db.getChildTreePtr x with
  | none => rw [hchild] at h; exact h
  | some node =>
      rw [hchild] at h
      exact e.isSubcategory_trans b a node hab h

/-- A class that tells its operands apart: their values are different. -/
theorem values_nodup (hk : pi.kind = .isGreater ∨ pi.kind = .isLess ∨ pi.kind = .isAllDiff)
    (h : e.Holds pi) : (pi.operands.map e.value).Nodup ∧ 2 ≤ pi.operands.length := by
  have harity := pi.arity
  -- a binary one, where related values differ
  have hpair : ∀ {kind : PredicateKind A M}, pi.kind = kind → pi.operands.length = 2 →
      (∀ x y, e.Relates kind x y → x ≠ y) →
      (pi.operands.map e.value).Nodup ∧ 2 ≤ pi.operands.length := by
    intro kind hkind hlen hne
    obtain ⟨a, b, hops⟩ := List.length_eq_two.mp hlen
    obtain ⟨x, y, hx, hy, hxy⟩ := (e.holds_pair hops).mp h
    rw [hkind] at hxy
    refine ⟨?_, hlen.ge⟩
    rw [hops]
    simp [hx, hy, hne x y hxy]
  rcases hk with hk | hk | hk
  · rw [hk] at harity
    refine hpair hk harity ?_
    rintro x y hxy rfl
    exact e.threeWay.irrefl x hxy
  · rw [hk] at harity
    refine hpair hk harity ?_
    rintro x y hxy rfl
    exact e.threeWay.irrefl x hxy
  · -- the third, where all values differ
    rw [hk] at harity
    obtain ⟨xs, hxs, hdiff⟩ := (e.holds_iff pi).mp h
    rw [hk] at hdiff
    have hnodup : xs.Nodup := decide_eq_true_iff.mp (Option.some.inj hdiff)
    refine ⟨?_, harity⟩
    rw [hxs]
    exact hnodup.map (Option.some_injective _)

/-- Different values, two of them equal: an operand was equated with itself. -/
theorem equated_with_itself [DecidableEq S] {X : Type} {ops : List S} {value : S → X} {c d : S}
    (hnodup : (ops.map value).Nodup) (hlen : 2 ≤ ops.length) (hcd : value c = value d)
    (hsub : ops.toFinset ⊆ [c, d].toFinset ∨ [c, d].toFinset ⊆ ops.toFinset) :
    c = d ∧ c ∈ ops ∧ ops.Nodup := by
  have hinj := List.inj_on_of_nodup_map hnodup
  rcases hsub with hsub | hsub
  · -- every operand is `c` or `d`, and so all values are equal
    match ops, hlen with
    | a :: b :: rest, _ =>
        have hmem : ∀ s ∈ a :: b :: rest, value s = value c := by
          intro s hs
          have hs' := hsub (List.mem_toFinset.mpr hs)
          rw [List.mem_toFinset] at hs'
          simp only [List.mem_cons, List.not_mem_nil, or_false] at hs'
          rcases hs' with rfl | rfl
          · rfl
          · exact hcd.symm
        have hab := (hmem a (by simp)).trans (hmem b (by simp)).symm
        exact absurd hab (by
          have hhead := (List.nodup_cons.mp hnodup).1
          intro heq
          exact hhead (by rw [heq]; exact List.mem_cons_self))
  · have hc : c ∈ ops := List.mem_toFinset.mp (hsub (by simp))
    have hd : d ∈ ops := List.mem_toFinset.mp (hsub (by simp))
    exact ⟨hinj hc hd hcd, hc, hnodup.of_map⟩

end

/-- **An operand equated with itself**, against a predicate of different operands of which
it is one: the set of its operands is contracted. -/
def Contracted (pi pj : PredicateOperator S A M) : Prop :=
  (∃ a c d, pi.kind = .isEqual ∧ pi.operands = [a, a]
      ∧ (pj.kind = .isGreaterOrEqual ∨ pj.kind = .isLessOrEqual
        ∨ pj.kind = .isSimpleCompareEquivalent)
      ∧ pj.operands = [c, d] ∧ c ≠ d ∧ (a = c ∨ a = d))
    ∨ ∃ c, pj.kind = .isEqual ∧ pj.operands = [c, c]
      ∧ (pi.kind = .isGreater ∨ pi.kind = .isLess ∨ pi.kind = .isAllDiff)
      ∧ pi.operands.Nodup ∧ c ∈ pi.operands

section

variable [DecidableEq S] {e : Evaluation S A M isSubcategory} {pi pj : PredicateOperator S A M}

/-- **An implication by equality**: the other predicate's operands are among the equated
ones. -/
theorem implies_of_equal (hk : pi.kind = .isEqual) (hj : pj.kind = .isGreaterOrEqual
      ∨ pj.kind = .isLessOrEqual ∨ pj.kind = .isSimpleCompareEquivalent)
    (hm : Matched pi pj) (hno : ¬ Contracted pi pj) (h : e.Holds pi) : e.Holds pj := by
  -- both predicates have two operands
  have hlen : pi.operands.length = 2 ∧ pj.operands.length = 2 := by
    have hi := pi.arity
    have hj' := pj.arity
    rw [hk] at hi
    rcases hj with hj | hj | hj <;> rw [hj] at hj' <;> exact ⟨hi, hj'⟩
  obtain ⟨a, b, hi⟩ := List.length_eq_two.mp hlen.1
  obtain ⟨c, d, hopsj⟩ := List.length_eq_two.mp hlen.2
  obtain ⟨x, y, hx, hy, hxy⟩ := (e.holds_pair hi).mp h
  rw [hk] at hxy
  have hxy : x = y := hxy
  subst hxy
  -- the other's operands are among the equated ones
  have hmem : c ∈ [a, b] ∧ d ∈ [a, b] := by
    unfold Matched at hm
    rw [hk] at hm
    rw [if_pos (by rfl), hi, hopsj] at hm
    rcases hm with hsub | hsub
    · have ha : a ∈ [c, d] := List.mem_toFinset.mp (hsub (by simp))
      have hb : b ∈ [c, d] := List.mem_toFinset.mp (hsub (by simp))
      simp only [List.mem_cons, List.not_mem_nil, or_false] at ha hb ⊢
      by_cases hcd : c = d
      · subst hcd
        have hac : a = c := ha.elim id id
        exact ⟨.inl hac.symm, .inl hac.symm⟩
      · by_cases hab : a = b
        · subst hab
          exact absurd (.inl ⟨a, c, d, hk, hi, hj, hopsj, hcd, ha⟩) hno
        · -- different operands, two on each side
          rcases ha with rfl | rfl
          · rcases hb with rfl | rfl
            · exact absurd rfl hab
            · exact ⟨.inl rfl, .inr rfl⟩
          · rcases hb with rfl | rfl
            · exact ⟨.inr rfl, .inl rfl⟩
            · exact absurd rfl hab
    · exact ⟨List.mem_toFinset.mp (hsub (by simp)), List.mem_toFinset.mp (hsub (by simp))⟩
  -- which all have the one value
  have hval : ∀ s ∈ [a, b], e.value s = some x := by
    intro s hs
    simp only [List.mem_cons, List.not_mem_nil, or_false] at hs
    rcases hs with rfl | rfl
    · exact hx
    · exact hy
  refine (e.holds_pair hopsj).mpr ⟨x, x, hval c hmem.1, hval d hmem.2, ?_⟩
  rcases hj with hj | hj | hj
  · rw [hj]
    exact .inl rfl
  · rw [hj]
    exact .inl rfl
  · rw [hj]
    exact e.simpleCompare_self _

/-- **A contradiction with equality**: the operands told apart hold both sides of the
equation. -/
theorem contradicts_equal (hk : pi.kind = .isGreater ∨ pi.kind = .isLess ∨ pi.kind = .isAllDiff)
    (hj : pj.kind = .isEqual) (hm : Matched pi pj) (hno : ¬ Contracted pi pj) :
    ¬ (e.Holds pi ∧ e.Holds pj) := by
  rintro ⟨hpi, hpj⟩
  have harity := pj.arity
  rw [hj] at harity
  obtain ⟨c, d, hopsj⟩ := List.length_eq_two.mp harity
  obtain ⟨x, y, hx, hy, hxy⟩ := (e.holds_pair hopsj).mp hpj
  rw [hj] at hxy
  have hxy : x = y := hxy
  obtain ⟨hnodup, hlen⟩ := values_nodup hk hpi
  unfold Matched at hm
  rw [hj] at hm
  rw [if_pos (by simp [PredicateKind.isCommutative]), hopsj] at hm
  obtain ⟨rfl, hc, hops⟩ := equated_with_itself hnodup hlen (hx.trans (hxy ▸ hy.symm)) hm
  exact hno (.inr ⟨c, hj, hopsj, hk, hops, hc⟩)

/-- The operands of two comparisons that match are the same. -/
theorem holds_same {ki kj : PredicateKind A M} (hk : pi.kind = ki) (hkj : pj.kind = kj)
    (hci : ki.isCommutative = false) (hcj : kj.isCommutative = false)
    (harity : ∀ n, ki.Arity n → n = 2) (hm : Matched pi pj) (h : e.Holds pi) :
    ∃ x y, e.Relates ki x y ∧ (e.Holds pj ↔ e.Relates kj x y) := by
  unfold Matched at hm
  rw [hk, hkj, hci, hcj] at hm
  rw [if_neg (by decide)] at hm
  obtain ⟨a, b, hops⟩ := List.length_eq_two.mp (harity _ (hk ▸ pi.arity))
  obtain ⟨x, y, hx, hy, hxy⟩ := (e.holds_pair hops).mp h
  rw [hk] at hxy
  refine ⟨x, y, hxy, ?_⟩
  rw [e.holds_pair (hm ▸ hops), hkj]
  constructor
  · rintro ⟨x', y', hx', hy', hrel⟩
    rw [hx] at hx'
    rw [hy] at hy'
    cases hx'
    cases hy'
    exact hrel
  · exact fun hrel => ⟨x, y, hx, hy, hrel⟩

/-- **What is reported to follow follows.** -/
theorem implies_sound (h : pi.kind.getRelationshipWith isSubcategory pj.kind = .IMPLIES)
    (hm : Matched pi pj) (hno : ¬ Contracted pi pj) (hpi : e.Holds pi) : e.Holds pj := by
  rcases PredicateKind.implies_cases h with ⟨hk, hj⟩ | ⟨hk, hj⟩ | ⟨hk, hj⟩ | ⟨a, b, hk, hj, hab⟩
  · exact implies_of_equal hk hj hm hno hpi
  · obtain ⟨x, y, hxy, hiff⟩ := holds_same hk hj rfl rfl (fun _ hn => hn) hm hpi
    exact hiff.mpr (.inr hxy)
  · obtain ⟨x, y, hxy, hiff⟩ := holds_same hk hj rfl rfl (fun _ hn => hn) hm hpi
    exact hiff.mpr (.inr hxy)
  · -- a subcategory, of the one operand
    unfold Matched at hm
    rw [hk, hj, if_neg (by simp [PredicateKind.isCommutative])] at hm
    obtain ⟨s, x, hs, hx, hsub⟩ := (Evaluation.holds_isInCategory hk).mp hpi
    exact (Evaluation.holds_isInCategory hj).mpr
      ⟨s, x, hm ▸ hs, hx, Evaluation.isSubcategory_up hab hsub⟩

/-- **What is reported to contradict contradicts.** -/
theorem contradicts_sound (h : pi.kind.getRelationshipWith isSubcategory pj.kind = .CONTRADICTS)
    (hm : Matched pi pj) (hno : ¬ Contracted pi pj) : ¬ (e.Holds pi ∧ e.Holds pj) := by
  have htw := e.threeWay
  rcases PredicateKind.contradicts_cases h with ⟨hk, hj⟩ | ⟨hk, hj⟩ | ⟨hk, hj⟩ | ⟨hk, hj⟩ | ⟨hk, hj⟩
  · exact contradicts_equal hk hj hm hno
  · rintro ⟨hpi, hpj⟩
    rcases hj with hj | hj
    · obtain ⟨x, y, hxy, hiff⟩ := holds_same hk hj rfl rfl (fun _ hn => hn) hm hpi
      exact htw.asymm hxy (hiff.mp hpj)
    · obtain ⟨x, y, hxy, hiff⟩ := holds_same hk hj rfl rfl (fun _ hn => hn) hm hpi
      exact htw.irrefl _ (htw.trans_notAbove hxy (hiff.mp hpj))
  · rintro ⟨hpi, hpj⟩
    rcases hj with hj | hj
    · obtain ⟨x, y, hxy, hiff⟩ := holds_same hk hj rfl rfl (fun _ hn => hn) hm hpi
      exact htw.asymm hxy (hiff.mp hpj)
    · obtain ⟨x, y, hxy, hiff⟩ := holds_same hk hj rfl rfl (fun _ hn => hn) hm hpi
      exact htw.irrefl _ (htw.trans_notAbove hxy ((hiff.mp hpj).imp_left Eq.symm))
  · rintro ⟨hpi, hpj⟩
    obtain ⟨x, y, hxy, hiff⟩ := holds_same hk hj rfl rfl (fun _ hn => hn) hm hpi
    exact htw.irrefl _ (htw.trans_notAbove (hiff.mp hpj) (hxy.imp_left Eq.symm))
  · rintro ⟨hpi, hpj⟩
    obtain ⟨x, y, hxy, hiff⟩ := holds_same hk hj rfl rfl (fun _ hn => hn) hm hpi
    exact htw.irrefl _ (htw.trans_notAbove (hiff.mp hpj) hxy)

end

/-! ## §3. Relationships that are not. -/

section

variable [DecidableEq S] {e : Evaluation S A M isSubcategory} {pi pj : PredicateOperator S A M}

omit [DecidableEq S] in
/-- An operand with a value equals itself. -/
theorem holds_equal_self {p : PredicateOperator S A M} {a : S} {x : XLink e.L}
    (hk : p.kind = .isEqual) (hops : p.operands = [a, a]) (hx : e.value a = some x) :
    e.Holds p := by
  refine (e.holds_pair hops).mpr ⟨x, x, hx, hx, ?_⟩
  rw [hk]
  rfl

/-- `a == a` holds, and a predicate of it and another operand does not. -/
theorem not_implies_of_contracted {a c d : S} (isSubcategory : A → A → Bool)
    (hk : pi.kind = .isEqual) (hi : pi.operands = [a, a])
    (hkj : pj.kind = .isGreaterOrEqual ∨ pj.kind = .isLessOrEqual
      ∨ pj.kind = .isSimpleCompareEquivalent)
    (hj : pj.operands = [c, d]) (hcd : c ≠ d) :
    ∃ e : Evaluation S A M isSubcategory, e.Holds pi ∧ ¬ e.Holds pj := by
  -- the operands are the roots of two trees, and the predicate does not relate them
  have hat : ∀ (u v : Nat),
      (¬ (Evaluation.ofLeaves 2 (fun s => some (if s = c then u else v)) :
        Evaluation S A M isSubcategory).Relates pj.kind (.link u) (.link v)) →
      ∃ e : Evaluation S A M isSubcategory, e.Holds pi ∧ ¬ e.Holds pj := by
    intro u v hno
    refine ⟨.ofLeaves 2 (fun s => some (if s = c then u else v)), holds_equal_self hk hi rfl, ?_⟩
    intro hcon
    obtain ⟨x, y, hx, hy, hxy⟩ := (Evaluation.holds_pair _ hj).mp hcon
    simp only [Evaluation.ofLeaves, if_pos, Option.map_some] at hx
    simp only [Evaluation.ofLeaves, if_neg (Ne.symm hcd), Option.map_some] at hy
    cases hx
    cases hy
    exact hno hxy
  have hlt : Below (DepthFirstRelation.compare3Way (leaves A 2)) (.link 0) (.link 1) :=
    (leaves_below (by decide) (by decide)).mpr Nat.zero_lt_one
  have htw := DepthFirstRelation.compare3Way_threeWay (leaves A 2)
  rcases hkj with hkj | hkj | hkj
  · refine hat 0 1 ?_
    rw [hkj]
    intro hcon
    rcases hcon with heq | hgt
    · exact Nat.zero_ne_one (XLink.link.inj heq)
    · exact htw.asymm hlt hgt
  · refine hat 1 0 ?_
    rw [hkj]
    intro hcon
    rcases hcon with heq | hgt
    · exact Nat.one_ne_zero (XLink.link.inj heq)
    · exact htw.asymm hlt hgt
  · refine hat 0 1 ?_
    rw [hkj]
    intro hcon
    -- the two leaves are not equivalent
    have hone : (1 : Int) = 0 := hcon
    exact absurd hone (by decide)

/-- Operands with different values, in the order of their places or against it. -/
theorem exists_told_apart (isSubcategory : A → A → Bool)
    (hk : pi.kind = .isGreater ∨ pi.kind = .isLess ∨ pi.kind = .isAllDiff)
    (hnodup : pi.operands.Nodup) : ∃ e : Evaluation S A M isSubcategory,
      e.Holds pi ∧ ∀ s ∈ pi.operands, ∃ x, e.value s = some x := by
  have harity := pi.arity
  have hlt : Below (DepthFirstRelation.compare3Way (leaves A 2)) (.link 0) (.link 1) :=
    (leaves_below (by decide) (by decide)).mpr Nat.zero_lt_one
  -- two operands: one link is before the other
  rcases hk with hk | hk | hk
  · rw [hk] at harity
    obtain ⟨a, b, hops⟩ := List.length_eq_two.mp harity
    have hab : b ≠ a := by
      rw [hops] at hnodup
      simpa [eq_comm] using hnodup
    refine ⟨.ofLeaves 2 (fun s => some (if s = a then 1 else 0)), ?_, fun s _ => ⟨_, rfl⟩⟩
    refine (Evaluation.holds_pair _ hops).mpr ⟨.link (1 : Nat), .link (0 : Nat), ?_, ?_, ?_⟩
    · simp [Evaluation.ofLeaves]
    · simp [Evaluation.ofLeaves, hab]
    · rw [hk]
      exact hlt
  · rw [hk] at harity
    obtain ⟨a, b, hops⟩ := List.length_eq_two.mp harity
    have hab : b ≠ a := by
      rw [hops] at hnodup
      simpa [eq_comm] using hnodup
    refine ⟨.ofLeaves 2 (fun s => some (if s = a then 0 else 1)), ?_, fun s _ => ⟨_, rfl⟩⟩
    refine (Evaluation.holds_pair _ hops).mpr ⟨.link (0 : Nat), .link (1 : Nat), ?_, ?_, ?_⟩
    · simp [Evaluation.ofLeaves]
    · simp [Evaluation.ofLeaves, hab]
    · rw [hk]
      exact hlt
  · -- any number: each operand is given its own place
    refine ⟨.ofLeaves 0 (fun s => some (pi.operands.idxOf s)), ?_, fun s _ => ⟨_, rfl⟩⟩
    refine (Evaluation.holds_iff _ pi).mpr
      ⟨pi.operands.map (fun s => .link (pi.operands.idxOf s)), ?_, ?_⟩
    · rw [List.map_map]
      rfl
    · rw [hk]
      refine congrArg some (decide_eq_true_iff.mpr ?_)
      refine List.Nodup.map_on ?_ hnodup
      intro s hs t ht heq
      exact (List.idxOf_inj hs).mp (XLink.link.inj heq)

variable [DecidableEq A] [DecidableEq M]

/-- **A contracted pair** is reported, and what is reported is not true. -/
theorem Contracted.fails (h : Contracted pi pj) (isSubcategory : A → A → Bool) :
    (tryDeriveRelationship isSubcategory pi pj = some .IMPLIES
        ∧ ∃ e : Evaluation S A M isSubcategory, e.Holds pi ∧ ¬ e.Holds pj)
      ∨ (tryDeriveRelationship isSubcategory pi pj = some .CONTRADICTS
        ∧ ∃ e : Evaluation S A M isSubcategory, e.Holds pi ∧ e.Holds pj) := by
  have hkey : pi.kind ≠ pj.kind → pi.orderKey ≠ pj.orderKey :=
    fun hne heq => hne (congrArg Prod.fst heq)
  rcases h with ⟨a, c, d, hk, hi, hkj, hj, hcd, ha⟩ | ⟨c, hkj, hj, hk, hnodup, hc⟩
  · refine .inl ⟨(tryDeriveRelationship_cases (by decide)).mpr ⟨hkey ?_, ?_, ?_⟩,
      not_implies_of_contracted isSubcategory hk hi hkj hj hcd⟩
    · rcases hkj with hkj | hkj | hkj <;> rw [hk, hkj] <;> simp
    · unfold Matched
      rw [hk, if_pos (by rfl), hi, hj]
      refine .inl ?_
      rcases ha with rfl | rfl <;> simp
    · rcases hkj with hkj | hkj | hkj <;> rw [hk, hkj] <;> rfl
  · refine .inr ⟨(tryDeriveRelationship_cases (by decide)).mpr ⟨hkey ?_, ?_, ?_⟩, ?_⟩
    · rcases hk with hk | hk | hk <;> rw [hk, hkj] <;> simp
    · unfold Matched
      rw [hkj, if_pos (by simp [PredicateKind.isCommutative]), hj]
      refine .inr ?_
      simpa using hc
    · rcases hk with hk | hk | hk <;> rw [hk, hkj] <;> rfl
    · obtain ⟨e, hpi, hvalues⟩ := exists_told_apart isSubcategory hk hnodup
      obtain ⟨x, hx⟩ := hvalues c hc
      exact ⟨e, hpi, holds_equal_self hkj hj hx⟩

/-- **Reported relationships are true exactly when** no operand that is equated with itself
stands against a predicate of different operands. -/
theorem tryDeriveRelationship_sound_iff (isSubcategory : A → A → Bool)
    (pi pj : PredicateOperator S A M) :
    ((tryDeriveRelationship isSubcategory pi pj = some .IMPLIES →
        ∀ e : Evaluation S A M isSubcategory, e.Holds pi → e.Holds pj)
      ∧ (tryDeriveRelationship isSubcategory pi pj = some .CONTRADICTS →
        ∀ e : Evaluation S A M isSubcategory, ¬ (e.Holds pi ∧ e.Holds pj)))
      ↔ ¬ Contracted pi pj := by
  constructor
  · intro hsound hcon
    rcases hcon.fails isSubcategory with ⟨h, e, hpi, hpj⟩ | ⟨h, e, hpi, hpj⟩
    · exact hpj (hsound.1 h e hpi)
    · exact hsound.2 h e ⟨hpi, hpj⟩
  · intro hno
    constructor
    · intro h e hpi
      obtain ⟨_, hm, hrel⟩ := (tryDeriveRelationship_cases (by decide)).mp h
      exact implies_sound hrel hm hno hpi
    · intro h e
      obtain ⟨_, hm, hrel⟩ := (tryDeriveRelationship_cases (by decide)).mp h
      exact contradicts_sound hrel hm hno

/-- A predicate of two variables. -/
def ofVariables (kind : PredicateKind Unit Unit) (h : kind.Arity 2) (a b : Nat) :
    PredicateOperator (SymbolExpression Nat Nat Unit) Unit Unit :=
  ⟨kind, [.symbolVariable a, .symbolVariable b], h⟩

/-- The code reports that `a == a` implies `a >= b`, and that `b > a` contradicts `a == a`:
both fail when `a` is the root of the first tree and `b` of the second. -/
theorem relationship_fails :
    tryDeriveRelationship (fun _ _ => true) (ofVariables .isEqual rfl 0 0)
        (ofVariables .isGreaterOrEqual rfl 0 1) = some .IMPLIES
    ∧ tryDeriveRelationship (fun _ _ => true) (ofVariables .isGreater rfl 1 0)
        (ofVariables .isEqual rfl 0 0) = some .CONTRADICTS
    ∧ [ofVariables .isEqual rfl 0 0, ofVariables .isGreaterOrEqual rfl 0 1,
        ofVariables .isGreater rfl 1 0].map
        (predicateEvaluate ((StdMap.empty.set 0 (.link 0)).set 1 (.link 1)) (leafDatabase 2)
          (databaseKit (leafDatabase 2) (fun _ _ => 0) (fun _ _ => true)))
      = [some true, some false, some true] := by
  refine ⟨by decide, by decide, ?_⟩
  decide +kernel

end

end Inferno.SYM
