/-
  Inferno.SYM.DerivationExact
  ───────────────────────────
  **WHEN A DERIVED PREDICATE FOLLOWS.**

    • `tryDerivePredicate_cases` — the ways a predicate is derived,
    • `relates_forward`, `relates_reverse` — what each transitivity means,
    • `SelfOrdered`    — the first predicate orders an operand against itself, the second
                         orders it the same way against another,
    • `EquivalenceChain` — two equivalences with one operand in common,
    • `tryDerivePredicate_sound_iff` — the derived predicate follows exactly when the two
                         predicates do not stand so.
-/
import Inferno.SYM.Derivation
import Inferno.SYM.Evaluation

namespace Inferno.SYM

open Inferno.Common
open Inferno.DB
open Inferno.Helpers
open Inferno.Lib

variable {S A M : Type} {isSubcategory : A → A → Bool}

/-! ## §1. Transitivities. -/

namespace PredicateKind

variable {ki kj : PredicateKind A M}

/-- The pairs that announce the forward case. -/
theorem forward_cases (h : ki.getTransitivityWith kj = .FORWARD
      ∨ ki.getTransitivityWith kj = .BIDIRECTIONAL) :
    (ki = .isGreater ∧ (kj = .isGreaterOrEqual ∨ kj = .isGreater))
      ∨ (ki = .isLess ∧ (kj = .isLessOrEqual ∨ kj = .isLess))
      ∨ (ki = .isGreaterOrEqual ∧ kj = .isGreaterOrEqual)
      ∨ (ki = .isLessOrEqual ∧ kj = .isLessOrEqual)
      ∨ (ki = .isSimpleCompareEquivalent ∧ kj = .isSimpleCompareEquivalent) := by
  cases ki <;> cases kj <;> simp [getTransitivityWith] at h ⊢

/-- The pairs that announce the reverse case. -/
theorem reverse_cases (h : ki.getTransitivityWith kj = .REVERSE
      ∨ ki.getTransitivityWith kj = .BIDIRECTIONAL) :
    (ki = .isGreater ∧ (kj = .isLessOrEqual ∨ kj = .isLess))
      ∨ (ki = .isLess ∧ (kj = .isGreaterOrEqual ∨ kj = .isGreater))
      ∨ (ki = .isGreaterOrEqual ∧ kj = .isLessOrEqual)
      ∨ (ki = .isLessOrEqual ∧ kj = .isGreaterOrEqual)
      ∨ (ki = .isSimpleCompareEquivalent ∧ kj = .isSimpleCompareEquivalent) := by
  cases ki <;> cases kj <;> simp [getTransitivityWith] at h ⊢

end PredicateKind

namespace Evaluation

variable (e : Evaluation S A M isSubcategory) {ki kj : PredicateKind A M} {x y z : XLink e.L}

theorem tie_symm (h : e.kit.simpleCompare x y = 0) : e.kit.simpleCompare y x = 0 :=
  e.simpleCompare_symm _ _ h

/-- **The forward case**: the two classes compose, in either order, if they compare the
places of their operands. -/
theorem relates_forward (hki : ki ≠ .isSimpleCompareEquivalent)
    (h : ki.getTransitivityWith kj = .FORWARD
      ∨ ki.getTransitivityWith kj = .BIDIRECTIONAL) :
    (e.Relates ki x y → e.Relates kj y z → e.Relates ki x z)
      ∧ (e.Relates kj x y → e.Relates ki y z → e.Relates ki x z) := by
  have htw := e.threeWay
  rcases PredicateKind.forward_cases h with ⟨rfl, rfl | rfl⟩ | ⟨rfl, rfl | rfl⟩ | ⟨rfl, rfl⟩
    | ⟨rfl, rfl⟩ | ⟨rfl, rfl⟩
  · -- `>` after or before `>=`
    constructor
    · intro hxy hyz
      exact htw.notAbove_trans_below (hyz.imp_left Eq.symm) hxy
    · intro hxy hyz
      exact htw.trans_notAbove hyz (hxy.imp_left Eq.symm)
  · exact ⟨fun hxy hyz => htw.trans _ _ _ hyz hxy, fun hxy hyz => htw.trans _ _ _ hyz hxy⟩
  · exact ⟨fun hxy hyz => htw.trans_notAbove hxy hyz,
      fun hxy hyz => htw.notAbove_trans_below hxy hyz⟩
  · exact ⟨fun hxy hyz => htw.trans _ _ _ hxy hyz, fun hxy hyz => htw.trans _ _ _ hxy hyz⟩
  · -- `>=` and `>=`
    have hge : e.Relates .isGreaterOrEqual x y → e.Relates .isGreaterOrEqual y z →
        e.Relates .isGreaterOrEqual x z := by
      intro hxy hyz
      exact (htw.notAbove_trans (hyz.imp_left Eq.symm) (hxy.imp_left Eq.symm)).imp_left Eq.symm
    exact ⟨hge, hge⟩
  · exact ⟨fun hxy hyz => htw.notAbove_trans hxy hyz, fun hxy hyz => htw.notAbove_trans hxy hyz⟩
  · exact absurd rfl hki

/-- **The reverse case**: so do they with the second one turned round. -/
theorem relates_reverse (hki : ki ≠ .isSimpleCompareEquivalent)
    (h : ki.getTransitivityWith kj = .REVERSE
      ∨ ki.getTransitivityWith kj = .BIDIRECTIONAL) :
    (e.Relates ki x y → e.Relates kj z y → e.Relates ki x z)
      ∧ (e.Relates kj y x → e.Relates ki y z → e.Relates ki x z) := by
  have htw := e.threeWay
  rcases PredicateKind.reverse_cases h with ⟨rfl, rfl | rfl⟩ | ⟨rfl, rfl | rfl⟩ | ⟨rfl, rfl⟩
    | ⟨rfl, rfl⟩ | ⟨rfl, rfl⟩
  · exact ⟨fun hxy hzy => htw.notAbove_trans_below hzy hxy,
      fun hyx hyz => htw.trans_notAbove hyz hyx⟩
  · exact ⟨fun hxy hzy => htw.trans _ _ _ hzy hxy, fun hyx hyz => htw.trans _ _ _ hyz hyx⟩
  · exact ⟨fun hxy hzy => htw.trans_notAbove hxy (hzy.imp_left Eq.symm),
      fun hyx hyz => htw.notAbove_trans_below (hyx.imp_left Eq.symm) hyz⟩
  · exact ⟨fun hxy hzy => htw.trans _ _ _ hxy hzy, fun hyx hyz => htw.trans _ _ _ hyx hyz⟩
  · constructor
    · intro hxy hzy
      exact (htw.notAbove_trans hzy (hxy.imp_left Eq.symm)).imp_left Eq.symm
    · intro hyx hyz
      exact (htw.notAbove_trans (hyz.imp_left Eq.symm) hyx).imp_left Eq.symm
  · exact ⟨fun hxy hzy => htw.notAbove_trans hxy (hzy.imp_left Eq.symm),
      fun hyx hyz => htw.notAbove_trans (hyx.imp_left Eq.symm) hyz⟩
  · exact absurd rfl hki

end Evaluation

/-! ## §2. Substitution. -/

section

variable [DecidableEq S] {p pk : PredicateOperator S A M} {a b existing «with» : S}

theorem trySubstitute_eq_some (h : p.trySubstitute existing «with» = some pk) :
    pk.kind = p.kind
      ∧ PredicateOperator.substituteFirst existing «with» p.operands = some pk.operands := by
  unfold PredicateOperator.trySubstitute at h
  split at h
  next operands hops =>
    cases h
    exact ⟨rfl, hops⟩
  next => exact absurd h (by simp)

/-- One value over an equal one changes nothing. -/
theorem map_substituteFirst {X : Type} {value : S → X} (hvalue : value existing = value «with»)
    {sop sop' : List S} (h : PredicateOperator.substituteFirst existing «with» sop = some sop') :
    sop'.map value = sop.map value := by
  induction sop generalizing sop' with
  | nil => exact absurd h (by simp [PredicateOperator.substituteFirst])
  | cons s sop ih =>
      unfold PredicateOperator.substituteFirst at h
      by_cases hs : existing = s
      · rw [if_pos hs] at h
        cases h
        rw [List.map_cons, List.map_cons, ← hvalue, hs]
      · rw [if_neg hs] at h
        obtain ⟨rest, hrest, rfl⟩ := Option.map_eq_some_iff.mp h
        rw [List.map_cons, List.map_cons, ih hrest]

/-- **Substitution of an equal operand is sound.** -/
theorem holds_trySubstitute (e : Evaluation S A M isSubcategory)
    (hvalue : e.value existing = e.value «with»)
    (h : p.trySubstitute existing «with» = some pk) (hp : e.Holds p) : e.Holds pk := by
  obtain ⟨hkind, hops⟩ := trySubstitute_eq_some h
  exact (e.holds_congr hkind (map_substituteFirst hvalue hops)).mpr hp

/-- Over the first of two operands. -/
theorem trySubstitute_first (hp : p.operands = [a, b])
    (h : p.trySubstitute a «with» = some pk) : pk.kind = p.kind ∧ pk.operands = [«with», b] := by
  obtain ⟨hkind, hops⟩ := trySubstitute_eq_some h
  rw [hp] at hops
  unfold PredicateOperator.substituteFirst at hops
  rw [if_pos rfl] at hops
  exact ⟨hkind, (Option.some.inj hops).symm⟩

/-- Over the second, when the first is another. -/
theorem trySubstitute_second (hp : p.operands = [a, b]) (hab : a ≠ b)
    (h : p.trySubstitute b «with» = some pk) : pk.kind = p.kind ∧ pk.operands = [a, «with»] := by
  obtain ⟨hkind, hops⟩ := trySubstitute_eq_some h
  rw [hp] at hops
  unfold PredicateOperator.substituteFirst PredicateOperator.substituteFirst at hops
  rw [if_neg (Ne.symm hab), if_pos rfl] at hops
  exact ⟨hkind, (Option.some.inj hops).symm⟩

end

/-! ## §3. How predicates are derived. -/

section

variable [DecidableEq S] [DecidableEq A] [DecidableEq M] {pi pj pk : PredicateOperator S A M}

/-- **The branches of `TryDerivePredicate`** that return a predicate. -/
inductive Derived (pi pj pk : PredicateOperator S A M) : Prop where
  | equal {a b : S} (hkind : pi.kind = .isEqual) (hi : pi.operands = [a, b])
      (h : pj.trySubstitute a b = some pk ∨ pj.trySubstitute b a = some pk)
  | textbook {a b d : S} (ht : pi.kind.getTransitivityWith pj.kind = .FORWARD
        ∨ pi.kind.getTransitivityWith pj.kind = .BIDIRECTIONAL)
      (hi : pi.operands = [a, b]) (hj : pj.operands = [b, d])
      (h : pi.trySubstitute b d = some pk)
  | forward {a b c : S} (ht : pi.kind.getTransitivityWith pj.kind = .FORWARD
        ∨ pi.kind.getTransitivityWith pj.kind = .BIDIRECTIONAL)
      (hi : pi.operands = [a, b]) (hj : pj.operands = [c, a])
      (h : pi.trySubstitute a c = some pk)
  | commuted {a b c : S} (ht : pi.kind.getTransitivityWith pj.kind = .REVERSE
        ∨ pi.kind.getTransitivityWith pj.kind = .BIDIRECTIONAL)
      (hi : pi.operands = [a, b]) (hj : pj.operands = [c, b])
      (h : pi.trySubstitute b c = some pk)
  | reverse {a b d : S} (ht : pi.kind.getTransitivityWith pj.kind = .REVERSE
        ∨ pi.kind.getTransitivityWith pj.kind = .BIDIRECTIONAL)
      (hi : pi.operands = [a, b]) (hj : pj.operands = [a, d])
      (h : pi.trySubstitute a d = some pk)

theorem toPair_eq_some {S : Type} {l : List S} {ab : S × S} (h : toPair l = some ab) :
    l = [ab.1, ab.2] := by
  unfold toPair at h
  split at h
  · cases h
    rfl
  · exact absurd h (by simp)

theorem tryDerivePredicate_cases (h : tryDerivePredicate pi pj = some (some pk)) :
    Derived pi pj pk := by
  unfold tryDerivePredicate at h
  obtain ⟨_, h⟩ := ASSERT_bind_eq_some.mp h
  split at h
  -- an equality: the other predicate with one operand for the other
  next hsub =>
    have hkind : pi.kind = .isEqual := by
      cases hk : pi.kind <;> simp [hk, PredicateKind.isCanSubstituteFrom] at hsub ⊢
    obtain ⟨⟨a, b⟩, hpair, h⟩ := Option.bind_eq_some_iff.mp h
    have hi := toPair_eq_some hpair
    dsimp only at h hi
    split at h
    next pk' hpk' =>
      cases h
      exact .equal hkind hi (.inl hpk')
    next => exact .equal hkind hi (.inr (Option.some.inj h))
  -- the four cases of transitivity, in the order they are tried
  next =>
    dsimp only at h
    split at h
    · exact absurd h (by simp)
    obtain ⟨⟨a, b⟩, hpairI, h⟩ := Option.bind_eq_some_iff.mp h
    obtain ⟨⟨c, d⟩, hpairJ, h⟩ := Option.bind_eq_some_iff.mp h
    have hi := toPair_eq_some hpairI
    have hj := toPair_eq_some hpairJ
    dsimp only at h hi hj
    have hmap : ∀ {o : Option (PredicateOperator S A M)}, o.map some = some (some pk) →
        o = some pk := by
      intro o ho
      obtain ⟨q, hq, hqp⟩ := Option.map_eq_some_iff.mp ho
      rw [hq, Option.some.inj hqp]
    split at h
    next hc =>
      obtain ⟨ht, rfl⟩ := hc
      exact .textbook ht hi hj (hmap h)
    split at h
    next hc =>
      obtain ⟨ht, rfl⟩ := hc
      exact .forward ht hi hj (hmap h)
    split at h
    next hc =>
      obtain ⟨ht, rfl⟩ := hc
      exact .commuted ht hi hj (hmap h)
    split at h
    next hc =>
      obtain ⟨ht, rfl⟩ := hc
      exact .reverse ht hi hj (hmap h)
    next => exact absurd h (by simp)

end

/-! ## §4. When it follows. -/

/-- **`pi` orders an operand against itself**, by `>=` or `<=`, and `pj` orders it the same
way against another operand. -/
def SelfOrdered (pi pj : PredicateOperator S A M) : Prop :=
  ∃ a d, a ≠ d ∧ pi.operands = [a, a] ∧
    ((pi.kind = .isGreaterOrEqual
        ∧ (pj.kind = .isGreaterOrEqual ∧ pj.operands = [a, d]
          ∨ pj.kind = .isLessOrEqual ∧ pj.operands = [d, a]))
      ∨ (pi.kind = .isLessOrEqual
        ∧ (pj.kind = .isLessOrEqual ∧ pj.operands = [a, d]
          ∨ pj.kind = .isGreaterOrEqual ∧ pj.operands = [d, a])))

section

variable [DecidableEq S] {pi pj pk : PredicateOperator S A M}
  {e : Evaluation S A M isSubcategory} {a b d : S}

/-- **The textbook case**, but for an operand ordered against itself. -/
theorem sound_textbook (ht : pi.kind.getTransitivityWith pj.kind = .FORWARD
      ∨ pi.kind.getTransitivityWith pj.kind = .BIDIRECTIONAL)
    (hki : pi.kind ≠ .isSimpleCompareEquivalent) (hi : pi.operands = [a, b])
    (hj : pj.operands = [b, d]) (h : pi.trySubstitute b d = some pk)
    (hself : ¬ SelfOrdered pi pj) (hpi : e.Holds pi) (hpj : e.Holds pj) : e.Holds pk := by
  obtain ⟨x, y, hx, hy, hxy⟩ := (e.holds_pair hi).mp hpi
  obtain ⟨y', z, hy', hz, hyz⟩ := (e.holds_pair hj).mp hpj
  rw [hy] at hy'
  cases hy'
  -- equal operands of the first predicate: its first place is the one replaced
  by_cases hab : a = b
  · subst hab
    rw [hx] at hy
    cases hy
    obtain ⟨hkind, hops⟩ := trySubstitute_first hi h
    rw [e.holds_pair hops, hkind]
    refine ⟨z, x, hz, hx, ?_⟩
    -- the wrong operand was replaced: what is derived is turned round
    by_cases had : a = d
    · subst had
      rw [hx] at hz
      cases hz
      exact hxy
    · rcases PredicateKind.forward_cases ht with ⟨hk, _⟩ | ⟨hk, _⟩ | ⟨hk, hkj⟩ | ⟨hk, hkj⟩
        | ⟨hk, hkj⟩
      · rw [hk] at hxy
        exact absurd hxy (e.threeWay.irrefl x)
      · rw [hk] at hxy
        exact absurd hxy (e.threeWay.irrefl x)
      · exact absurd ⟨a, d, had, hi, .inl ⟨hk, .inl ⟨hkj, hj⟩⟩⟩ hself
      · exact absurd ⟨a, d, had, hi, .inr ⟨hk, .inl ⟨hkj, hj⟩⟩⟩ hself
      · exact absurd hk hki
  · -- different operands: the second place is replaced, as it should be
    obtain ⟨hkind, hops⟩ := trySubstitute_second hi hab h
    rw [e.holds_pair hops, hkind]
    exact ⟨x, z, hx, hz, (e.relates_forward hki ht).1 hxy hyz⟩

/-- **The commuted case**, with the same exception. -/
theorem sound_commuted (ht : pi.kind.getTransitivityWith pj.kind = .REVERSE
      ∨ pi.kind.getTransitivityWith pj.kind = .BIDIRECTIONAL)
    (hki : pi.kind ≠ .isSimpleCompareEquivalent) (hi : pi.operands = [a, b])
    (hj : pj.operands = [d, b]) (h : pi.trySubstitute b d = some pk)
    (hself : ¬ SelfOrdered pi pj) (hpi : e.Holds pi) (hpj : e.Holds pj) : e.Holds pk := by
  obtain ⟨x, y, hx, hy, hxy⟩ := (e.holds_pair hi).mp hpi
  obtain ⟨z, y', hz, hy', hzy⟩ := (e.holds_pair hj).mp hpj
  rw [hy] at hy'
  cases hy'
  by_cases hab : a = b
  · subst hab
    rw [hx] at hy
    cases hy
    obtain ⟨hkind, hops⟩ := trySubstitute_first hi h
    rw [e.holds_pair hops, hkind]
    refine ⟨z, x, hz, hx, ?_⟩
    by_cases had : a = d
    · subst had
      rw [hx] at hz
      cases hz
      exact hxy
    · rcases PredicateKind.reverse_cases ht with ⟨hk, _⟩ | ⟨hk, _⟩ | ⟨hk, hkj⟩ | ⟨hk, hkj⟩
        | ⟨hk, hkj⟩
      · rw [hk] at hxy
        exact absurd hxy (e.threeWay.irrefl x)
      · rw [hk] at hxy
        exact absurd hxy (e.threeWay.irrefl x)
      · exact absurd ⟨a, d, had, hi, .inl ⟨hk, .inr ⟨hkj, hj⟩⟩⟩ hself
      · exact absurd ⟨a, d, had, hi, .inr ⟨hk, .inr ⟨hkj, hj⟩⟩⟩ hself
      · exact absurd hk hki
  · -- different operands: the second place is replaced
    obtain ⟨hkind, hops⟩ := trySubstitute_second hi hab h
    rw [e.holds_pair hops, hkind]
    exact ⟨x, z, hx, hz, (e.relates_reverse hki ht).1 hxy hzy⟩

/-! ## §5. Equivalences. -/

/-- Two operands, in either order. -/
def PredicateOperator.Joins (p : PredicateOperator S A M) (a b : S) : Prop :=
  p.operands = [a, b] ∨ p.operands = [b, a]

/-- **Two equivalences with one operand in common.** -/
def EquivalenceChain (pi pj : PredicateOperator S A M) : Prop :=
  ∃ a b d, a ≠ b ∧ b ≠ d ∧ a ≠ d ∧ pi.kind = .isSimpleCompareEquivalent
    ∧ pj.kind = .isSimpleCompareEquivalent ∧ pi.Joins a b ∧ pj.Joins b d

omit [DecidableEq S] in
/-- An equivalence holds when the values tie, in either order. -/
theorem holds_joins (hk : pi.kind = .isSimpleCompareEquivalent) (h : pi.Joins a b) :
    e.Holds pi ↔ ∃ x y, e.value a = some x ∧ e.value b = some y
      ∧ e.kit.simpleCompare x y = 0 := by
  rcases h with h | h
  · rw [e.holds_pair h, hk]
    rfl
  · rw [e.holds_pair h, hk]
    constructor
    · rintro ⟨x, y, hx, hy, hxy⟩
      exact ⟨y, x, hy, hx, e.tie_symm hxy⟩
    · rintro ⟨x, y, hx, hy, hxy⟩
      exact ⟨y, x, hy, hx, e.tie_symm hxy⟩

variable [DecidableEq A] [DecidableEq M]

omit [DecidableEq A] [DecidableEq M] in
/-- **From two equivalences a third is derived**, of the operands that they have not in
common. -/
theorem Derived.joins (h : Derived pi pj pk) (hk : pi.kind = .isSimpleCompareEquivalent) :
    pj.kind = .isSimpleCompareEquivalent ∧ pk.kind = .isSimpleCompareEquivalent
      ∧ ∃ a b d, pi.Joins a b ∧ pj.Joins b d ∧ pk.Joins a d := by
  -- the classes go together by transitivity
  have hkj : pi.kind.getTransitivityWith pj.kind ≠ .NONE →
      pj.kind = .isSimpleCompareEquivalent := by
    intro hne
    rw [hk] at hne
    cases hkj : pj.kind <;> rw [hkj] at hne <;> simp [PredicateKind.getTransitivityWith] at hne ⊢
  have hforward : ∀ t : Transitivity, t = .FORWARD ∨ t = .BIDIRECTIONAL → t ≠ .NONE := by
    rintro t (rfl | rfl) <;> simp
  have hreverse : ∀ t : Transitivity, t = .REVERSE ∨ t = .BIDIRECTIONAL → t ≠ .NONE := by
    rintro t (rfl | rfl) <;> simp
  -- over the shared operand stands the other one of `pj`, also where the wrong place is taken
  have hsubst : ∀ {a b c : S}, pi.operands = [a, b] → pi.trySubstitute b c = some pk →
      pk.kind = .isSimpleCompareEquivalent ∧ pk.Joins a c := by
    intro a b c hi h
    by_cases hab : a = b
    · subst hab
      obtain ⟨hkind, hops⟩ := trySubstitute_first hi h
      exact ⟨hkind.trans hk, .inr hops⟩
    · obtain ⟨hkind, hops⟩ := trySubstitute_second hi hab h
      exact ⟨hkind.trans hk, .inl hops⟩
  cases h with
  | equal hkind _ _ =>
      rw [hk] at hkind
      cases hkind
  | @textbook a b d ht hi hj h =>
      obtain ⟨hkind, hpk⟩ := hsubst hi h
      exact ⟨hkj (hforward _ ht), hkind, a, b, d, .inl hi, .inl hj, hpk⟩
  | @forward a b c ht hi hj h =>
      obtain ⟨hkind, hops⟩ := trySubstitute_first hi h
      exact ⟨hkj (hforward _ ht), hkind.trans hk, b, a, c, .inr hi, .inr hj, .inr hops⟩
  | @commuted a b c ht hi hj h =>
      obtain ⟨hkind, hpk⟩ := hsubst hi h
      exact ⟨hkj (hreverse _ ht), hkind, a, b, c, .inl hi, .inr hj, hpk⟩
  | @reverse a b d ht hi hj h =>
      obtain ⟨hkind, hops⟩ := trySubstitute_first hi h
      exact ⟨hkj (hreverse _ ht), hkind.trans hk, b, a, d, .inr hi, .inl hj, .inr hops⟩

omit [DecidableEq A] [DecidableEq M] in
/-- **It follows**, unless they are a chain and ties are not transitive. -/
theorem Derived.sound_equivalent (h : Derived pi pj pk)
    (hk : pi.kind = .isSimpleCompareEquivalent)
    (hchain : ¬ EquivalenceChain pi pj ∨ e.TiesTransitive) (hpi : e.Holds pi)
    (hpj : e.Holds pj) : e.Holds pk := by
  obtain ⟨hkj, hkk, a, b, d, hi, hj, hpk⟩ := h.joins hk
  obtain ⟨x, y, hx, hy, hxy⟩ := (holds_joins hk hi).mp hpi
  obtain ⟨y', z, hy', hz, hyz⟩ := (holds_joins hkj hj).mp hpj
  obtain rfl := Option.some.inj (hy.symm.trans hy')
  rw [holds_joins hkk hpk]
  refine ⟨x, z, hx, hz, ?_⟩
  rcases hchain with hchain | htrans
  · -- two of the operands are one
    by_cases hab : a = b
    · subst hab
      obtain rfl := Option.some.inj (hx.symm.trans hy)
      exact hyz
    · by_cases hbd : b = d
      · subst hbd
        obtain rfl := Option.some.inj (hy.symm.trans hz)
        exact hxy
      · by_cases had : a = d
        · subst had
          obtain rfl := Option.some.inj (hx.symm.trans hz)
          exact e.simpleCompare_self _
        · exact absurd ⟨a, b, d, hab, hbd, had, hk, hkj, hi, hj⟩ hchain
  · exact htrans _ _ _ hxy hyz

/-- **What is derived follows**, unless the operand is ordered against itself, or two
equivalences are a chain and ties are not transitive. -/
theorem Derived.sound (h : Derived pi pj pk) (hself : ¬ SelfOrdered pi pj)
    (hchain : ¬ EquivalenceChain pi pj ∨ e.TiesTransitive) (hpi : e.Holds pi)
    (hpj : e.Holds pj) : e.Holds pk := by
  by_cases hki : pi.kind = .isSimpleCompareEquivalent
  · exact h.sound_equivalent hki hchain hpi hpj
  -- one case for each way the derived predicate was made
  cases h with
  | equal hkind hi h =>
      obtain ⟨x, y, hx, hy, hxy⟩ := (e.holds_pair hi).mp hpi
      rw [hkind] at hxy
      have heq : x = y := hxy
      subst heq
      rcases h with h | h
      · exact holds_trySubstitute e (hx.trans hy.symm) h hpj
      · exact holds_trySubstitute e (hy.trans hx.symm) h hpj
  | textbook ht hi hj h => exact sound_textbook ht hki hi hj h hself hpi hpj
  | forward ht hi hj h =>
      obtain ⟨x, y, hx, hy, hxy⟩ := (e.holds_pair hi).mp hpi
      obtain ⟨z, x', hz, hx', hzx⟩ := (e.holds_pair hj).mp hpj
      rw [hx] at hx'
      cases hx'
      obtain ⟨hkind, hops⟩ := trySubstitute_first hi h
      rw [e.holds_pair hops, hkind]
      exact ⟨z, y, hz, hy, (e.relates_forward hki ht).2 hzx hxy⟩
  | commuted ht hi hj h => exact sound_commuted ht hki hi hj h hself hpi hpj
  | reverse ht hi hj h =>
      obtain ⟨x, y, hx, hy, hxy⟩ := (e.holds_pair hi).mp hpi
      obtain ⟨x', z, hx', hz, hxz⟩ := (e.holds_pair hj).mp hpj
      rw [hx] at hx'
      cases hx'
      obtain ⟨hkind, hops⟩ := trySubstitute_first hi h
      rw [e.holds_pair hops, hkind]
      exact ⟨z, y, hz, hy, (e.relates_reverse hki ht).2 hxz hxy⟩

/-! ## §6. When it does not. -/

/-- An operand ordered against itself: the derived predicate turns the second one round. -/
theorem tryDerivePredicate_selfOrdered (hi : pi.operands = [a, a])
    (hk : pi.kind.isCanSubstituteFrom = false) (hj :
      pi.kind.getTransitivityWith pj.kind = .FORWARD ∧ pj.operands = [a, d]
        ∨ pi.kind.getTransitivityWith pj.kind = .REVERSE ∧ pj.operands = [d, a])
    (hkey : pi.orderKey ≠ pj.orderKey) :
    ∃ pk, tryDerivePredicate pi pj = some (some pk) ∧ pk.kind = pi.kind
      ∧ pk.operands = [d, a] := by
  obtain ⟨pk, hpk⟩ := pi.trySubstitute_isSome a d (by simp [hi])
  obtain ⟨hkind, hops⟩ := trySubstitute_first hi hpk
  refine ⟨pk, ?_, hkind, hops⟩
  unfold tryDerivePredicate
  rw [ASSERT_pos hkey, hk]
  rcases hj with ⟨ht, hj⟩ | ⟨ht, hj⟩
  · simp [ht, hi, hj, toPair, hpk]
  · simp [ht, hi, hj, toPair, hpk]

omit [DecidableEq S] [DecidableEq A] [DecidableEq M] in
/-- What is derived fails where the class relates the two values one way only. -/
theorem fails_at {u v : XLink e.L} (hi : pi.operands = [a, a]) (hops : pk.operands = [d, a])
    (hkind : pk.kind = pi.kind) (hva : e.value a = some u) (hvd : e.value d = some v)
    (hself : e.Relates pi.kind u u)
    (hj : pj.operands = [a, d] ∧ e.Relates pj.kind u v
      ∨ pj.operands = [d, a] ∧ e.Relates pj.kind v u)
    (hno : ¬ e.Relates pi.kind v u) : e.Holds pi ∧ e.Holds pj ∧ ¬ e.Holds pk := by
  refine ⟨(e.holds_pair hi).mpr ⟨u, u, hva, hva, hself⟩, ?_, ?_⟩
  · rcases hj with ⟨hj, hrel⟩ | ⟨hj, hrel⟩
    · exact (e.holds_pair hj).mpr ⟨u, v, hva, hvd, hrel⟩
    · exact (e.holds_pair hj).mpr ⟨v, u, hvd, hva, hrel⟩
  · intro hcon
    obtain ⟨x, y, hx, hy, hxy⟩ := (e.holds_pair hops).mp hcon
    rw [hvd] at hx
    rw [hva] at hy
    cases hx
    cases hy
    rw [hkind] at hxy
    exact hno hxy

/-- **It fails** in two trees of one node each, when the operand and the other are roots of
different ones. -/
theorem SelfOrdered.fails (h : SelfOrdered pi pj) (isSubcategory : A → A → Bool) :
    ∃ pk, tryDerivePredicate pi pj = some (some pk)
      ∧ ∃ e : Evaluation S A M isSubcategory, e.TiesTransitive ∧ e.Holds pi ∧ e.Holds pj
        ∧ ¬ e.Holds pk := by
  obtain ⟨a, d, had, hi, hkinds⟩ := h
  have hkey : pi.orderKey ≠ pj.orderKey := by
    intro heq
    have hkind : pi.kind = pj.kind := congrArg Prod.fst heq
    have hops : pi.operands = pj.operands := by
      have hcomm : pi.kind.isCommutative = false := by
        rcases hkinds with ⟨hk, _⟩ | ⟨hk, _⟩ <;> rw [hk] <;> rfl
      have hsnd := congrArg Prod.snd heq
      unfold PredicateOperator.orderKey at hsnd
      rw [← hkind, hcomm] at hsnd
      exact OperandKey.inOrder.inj hsnd
    rw [hi] at hops
    rcases hkinds with ⟨_, ⟨_, hj⟩ | ⟨_, hj⟩⟩ | ⟨_, ⟨_, hj⟩ | ⟨_, hj⟩⟩ <;>
      rw [hj] at hops <;> simp [had] at hops
  obtain ⟨hsub, hj⟩ : pi.kind.isCanSubstituteFrom = false
      ∧ (pi.kind.getTransitivityWith pj.kind = .FORWARD ∧ pj.operands = [a, d]
        ∨ pi.kind.getTransitivityWith pj.kind = .REVERSE ∧ pj.operands = [d, a]) := by
    rcases hkinds with ⟨hk, ⟨hkj, hj⟩ | ⟨hkj, hj⟩⟩ | ⟨hk, ⟨hkj, hj⟩ | ⟨hkj, hj⟩⟩ <;>
      rw [hk, hkj] <;> exact ⟨rfl, by simp [hj, PredicateKind.getTransitivityWith]⟩
  obtain ⟨pk, hpk, hkind, hops⟩ := tryDerivePredicate_selfOrdered hi hsub hj hkey
  refine ⟨pk, hpk, ?_⟩
  rcases hkinds with ⟨hk, hkj⟩ | ⟨hk, hkj⟩
  · -- `a` is the greater root
    let e : Evaluation S A M isSubcategory := .ofLeaves 2 (fun s => some (if s = a then 1 else 0))
    have hlt : Below e.kit.depthFirst (.link (0 : Nat)) (.link (1 : Nat)) :=
      (leaves_below (A := A) (by decide) (by decide)).mpr Nat.zero_lt_one
    refine ⟨e, ofLeaves_tiesTransitive _ _, fails_at (u := .link (1 : Nat))
      (v := .link (0 : Nat)) hi hops hkind ?_ ?_ ?_ ?_ ?_⟩
    · simp [e, Evaluation.ofLeaves]
    · simp [e, Evaluation.ofLeaves, Ne.symm had]
    · rw [hk]
      exact .inl rfl
    · rcases hkj with ⟨hkj, hj⟩ | ⟨hkj, hj⟩
      · exact .inl ⟨hj, by rw [hkj]; exact .inr hlt⟩
      · exact .inr ⟨hj, by rw [hkj]; exact .inr hlt⟩
    · rw [hk]
      intro hcon
      rcases hcon with heq | hgt
      · exact Nat.zero_ne_one (XLink.link.inj heq)
      · exact e.threeWay.asymm hlt hgt
  · -- `a` is the smaller root
    let e : Evaluation S A M isSubcategory := .ofLeaves 2 (fun s => some (if s = a then 0 else 1))
    have hlt : Below e.kit.depthFirst (.link (0 : Nat)) (.link (1 : Nat)) :=
      (leaves_below (A := A) (by decide) (by decide)).mpr Nat.zero_lt_one
    refine ⟨e, ofLeaves_tiesTransitive _ _, fails_at (u := .link (0 : Nat))
      (v := .link (1 : Nat)) hi hops hkind ?_ ?_ ?_ ?_ ?_⟩
    · simp [e, Evaluation.ofLeaves]
    · simp [e, Evaluation.ofLeaves, Ne.symm had]
    · rw [hk]
      exact .inl rfl
    · rcases hkj with ⟨hkj, hj⟩ | ⟨hkj, hj⟩
      · exact .inl ⟨hj, by rw [hkj]; exact .inr hlt⟩
      · exact .inr ⟨hj, by rw [hkj]; exact .inr hlt⟩
    · rw [hk]
      intro hcon
      rcases hcon with heq | hgt
      · exact Nat.one_ne_zero (XLink.link.inj heq)
      · exact e.threeWay.asymm hlt hgt

/-- Two literals that differ, and a NaN whose hash both have. -/
def tieLiteral : Nat → APFloat
  | 0 => ⟨.IEEEdouble, false, .fcNormal 0 [0x0010000000100400]⟩
  | 1 => ⟨.IEEEdouble, false, .fcNaN [1]⟩
  | _ => ⟨.IEEEdouble, false, .fcNormal 1 [0x0010000000101400]⟩

/-- The NaN ties with both, and they do not tie. -/
theorem tieLiteral_ties : (tieLiteral 0).orderCompare (tieLiteral 1) = 0
    ∧ (tieLiteral 1).orderCompare (tieLiteral 2) = 0
    ∧ (tieLiteral 0).orderCompare (tieLiteral 2) ≠ 0 := by
  decide +kernel

omit [DecidableEq S] [DecidableEq A] [DecidableEq M] in
theorem PredicateOperator.Joins.eq_or_eq {p : PredicateOperator S A M} {a' b' : S}
    (h : p.Joins a b) (h' : p.Joins a' b') : (a' = a ∧ b' = b) ∨ (a' = b ∧ b' = a) := by
  rcases h with h | h
  · rcases h' with h' | h'
    · rw [h] at h'
      cases h'
      exact .inl ⟨rfl, rfl⟩
    · rw [h] at h'
      cases h'
      exact .inr ⟨rfl, rfl⟩
  · rcases h' with h' | h'
    · rw [h] at h'
      cases h'
      exact .inr ⟨rfl, rfl⟩
    · rw [h] at h'
      cases h'
      exact .inl ⟨rfl, rfl⟩

/-- **From a chain an equivalence of its ends is derived.** -/
theorem tryDerivePredicate_chain (hab : a ≠ b) (hbd : b ≠ d) (had : a ≠ d)
    (hk : pi.kind = .isSimpleCompareEquivalent) (hkj : pj.kind = .isSimpleCompareEquivalent)
    (hi : pi.Joins a b) (hj : pj.Joins b d) :
    ∃ pk, tryDerivePredicate pi pj = some (some pk) ∧ pk.kind = .isSimpleCompareEquivalent
      ∧ pk.Joins a d := by
  -- the keys differ, for `a` is no operand of the second predicate
  have hkey : pi.orderKey ≠ pj.orderKey := by
    intro heq
    have hops : pi.operands.toFinset = pj.operands.toFinset := by
      have hsnd := congrArg Prod.snd heq
      unfold PredicateOperator.orderKey at hsnd
      rw [hk, hkj] at hsnd
      exact OperandKey.unordered.inj hsnd
    have ha : a ∈ pj.operands.toFinset := by
      rw [← hops, List.mem_toFinset]
      rcases hi with hi | hi <;> simp [hi]
    rw [List.mem_toFinset] at ha
    rcases hj with hj | hj <;> simp [hj, hab, had] at ha
  obtain ⟨pk, hpk⟩ := pi.trySubstitute_isSome b d (by rcases hi with hi | hi <;> simp [hi])
  have hderive : tryDerivePredicate pi pj = some (some pk) := by
    unfold tryDerivePredicate
    rw [ASSERT_pos hkey, hk, hkj]
    rcases hi with hi | hi <;> rcases hj with hj | hj <;>
      simp [hi, hj, toPair, hpk, hab, hbd, had, PredicateKind.isCanSubstituteFrom,
        PredicateKind.getTransitivityWith]
  refine ⟨pk, hderive, ?_⟩
  obtain ⟨_, hkk, a', b', d', hi', hj', hpk'⟩ := (tryDerivePredicate_cases hderive).joins hk
  refine ⟨hkk, ?_⟩
  -- the operand in common is `b`
  rcases hi.eq_or_eq hi' with ⟨rfl, rfl⟩ | ⟨rfl, rfl⟩
  · rcases hj.eq_or_eq hj' with ⟨_, rfl⟩ | ⟨heq, _⟩
    · exact hpk'
    · exact absurd heq hbd
  · rcases hj.eq_or_eq hj' with ⟨heq, _⟩ | ⟨heq, _⟩
    · exact absurd heq hab
    · exact absurd heq had

/-- **It fails** where the shared operand is the NaN, and the others are the two literals. -/
theorem EquivalenceChain.fails (h : EquivalenceChain pi pj) (isSubcategory : A → A → Bool) :
    ∃ pk, tryDerivePredicate pi pj = some (some pk)
      ∧ ∃ e : Evaluation S A M isSubcategory, e.Holds pi ∧ e.Holds pj ∧ ¬ e.Holds pk := by
  obtain ⟨a, b, d, hab, hbd, had, hk, hkj, hi, hj⟩ := h
  obtain ⟨pk, hderive, hkk, hpk⟩ := tryDerivePredicate_chain hab hbd had hk hkj hi hj
  refine ⟨pk, hderive, .ofLiterals 3 tieLiteral
    (fun s => if s = a then 0 else if s = b then 1 else 2), ?_, ?_, ?_⟩
  · refine (holds_joins hk hi).mpr ⟨.link (0 : Nat), .link (1 : Nat), ?_, ?_, ?_⟩
    · simp [Evaluation.ofLiterals]
    · simp [Evaluation.ofLiterals, Ne.symm hab]
    · exact (ofLiterals_tie (by decide) (by decide)).trans tieLiteral_ties.1
  · refine (holds_joins hkj hj).mpr ⟨.link (1 : Nat), .link (2 : Nat), ?_, ?_, ?_⟩
    · simp [Evaluation.ofLiterals, Ne.symm hab]
    · simp [Evaluation.ofLiterals, Ne.symm had, Ne.symm hbd]
    · exact (ofLiterals_tie (by decide) (by decide)).trans tieLiteral_ties.2.1
  · intro hcon
    obtain ⟨x, y, hx, hy, hxy⟩ := (holds_joins hkk hpk).mp hcon
    simp only [Evaluation.ofLiterals, if_pos] at hx
    simp only [Evaluation.ofLiterals, if_neg (Ne.symm had), if_neg (Ne.symm hbd)] at hy
    cases hx
    cases hy
    exact tieLiteral_ties.2.2 ((ofLiterals_tie (n := 3) (i := 0) (j := 2) (by decide)
      (by decide)).symm.trans hxy)

/-- **Predicate derivation is sound exactly when** the first predicate does not order an
operand against itself, by `>=` or `<=`, while the second orders it the same way against
another, and the two are no equivalences with one operand in common; and these may be such
equivalences where ties are transitive. -/
theorem tryDerivePredicate_sound_iff (isSubcategory : A → A → Bool)
    (pi pj : PredicateOperator S A M) :
    ((∀ pk, tryDerivePredicate pi pj = some (some pk) →
        ∀ e : Evaluation S A M isSubcategory, e.Holds pi → e.Holds pj → e.Holds pk)
      ↔ ¬ SelfOrdered pi pj ∧ ¬ EquivalenceChain pi pj)
    ∧ ((∀ pk, tryDerivePredicate pi pj = some (some pk) →
        ∀ e : Evaluation S A M isSubcategory, e.TiesTransitive → e.Holds pi → e.Holds pj →
          e.Holds pk)
      ↔ ¬ SelfOrdered pi pj) := by
  refine ⟨⟨fun hsound => ⟨fun hself => ?_, fun hchain => ?_⟩, ?_⟩, ⟨fun hsound hself => ?_, ?_⟩⟩
  · obtain ⟨pk, hpk, e, _, hpi, hpj, hno⟩ := hself.fails isSubcategory
    exact hno (hsound pk hpk e hpi hpj)
  · obtain ⟨pk, hpk, e, hpi, hpj, hno⟩ := hchain.fails isSubcategory
    exact hno (hsound pk hpk e hpi hpj)
  · rintro ⟨hself, hchain⟩ pk hpk e hpi hpj
    exact (tryDerivePredicate_cases hpk).sound hself (.inl hchain) hpi hpj
  · obtain ⟨pk, hpk, e, htrans, hpi, hpj, hno⟩ := hself.fails isSubcategory
    exact hno (hsound pk hpk e htrans hpi hpj)
  · intro hself pk hpk e htrans hpi hpj
    exact (tryDerivePredicate_cases hpk).sound hself (.inr htrans) hpi hpj

/-- `a >= b` of two variables. -/
def atLeast (a b : Nat) : PredicateOperator (SymbolExpression Nat Nat Unit) Unit Unit :=
  ⟨.isGreaterOrEqual, [.symbolVariable a, .symbolVariable b], rfl⟩

/-- `a ~ b` of two variables. -/
def equivalent (a b : Nat) : PredicateOperator (SymbolExpression Nat Nat Unit) Unit Unit :=
  ⟨.isSimpleCompareEquivalent, [.symbolVariable a, .symbolVariable b], rfl⟩

/-- From `a >= a` and `a >= b` the code derives `b >= a`: false when `a` is the root of the
second tree and `b` of the first.  From `a ~ b` and `b ~ c` it derives `a ~ c`: false when `b`
is the NaN and `a` and `c` are the two literals. -/
theorem derived_predicate_fails :
    (tryDerivePredicate (atLeast 0 0) (atLeast 0 1) = some (some (atLeast 1 0))
      ∧ [atLeast 0 0, atLeast 0 1, atLeast 1 0].map
          (predicateEvaluate ((StdMap.empty.set 0 (.link 1)).set 1 (.link 0)) (leafDatabase 2)
            (databaseKit (leafDatabase 2) (fun _ _ => 0) (fun _ _ => true)))
        = [some true, some true, some false])
    ∧ tryDerivePredicate (equivalent 0 1) (equivalent 1 2) = some (some (equivalent 0 2))
    ∧ [equivalent 0 1, equivalent 1 2, equivalent 0 2].map
        (predicateEvaluate (((StdMap.empty.set 0 (.link 0)).set 1 (.link 1)).set 2 (.link 2))
          (leafDatabase 3) (databaseKit (leafDatabase 3) (SimpleCompare.compareTreePtr
            (SimpleCompare.compare3Way (floatLeaves tieLiteral) .TOTAL)) (fun _ _ => true)))
      = [some true, some true, some false] := by
  refine ⟨⟨by decide, ?_⟩, by decide, ?_⟩
  · decide +kernel
  · decide +kernel

end

end Inferno.SYM
