/-
  Inferno.Helpers.FloatLiterals
  ─────────────────────────────
  The order of the literals of `SpecificFloat`: the value, then the hash.

    • `orderCompare_numbers`, `orderCompare_nan` — NaNs compare by the hash alone,
    • `FloatsSeparated`      — no two literals collide, and no NaN's hash lies between those
                               of two numbers the other way round,
    • `floatsSeparated_iff`  — exactly then the literals are ordered, and only equal ones
                               are equivalent.
-/
import Inferno.Helpers.SimpleCompare

namespace Inferno.Helpers

open Inferno.Lib

namespace APFloat

/-! ## §1. The two ways of comparing. -/

variable {a b c : APFloat} {x y : Int ×ₗ ℚ}

/-- The hash, as a number. -/
def hash (f : APFloat) : Nat := f.getHashValue.toNat

theorem orderCompare_numbers (ha : a.number = some x) (hb : b.number = some y) :
    a.orderCompare b = thenBy (linearCompare x y) (linearCompare a.hash b.hash) := by
  unfold orderCompare compare
  rw [ha, hb]
  dsimp only
  by_cases hlt : x < y
  · have hne : linearCompare x y = -1 := by
      unfold linearCompare
      rw [if_neg hlt.ne, if_pos hlt]
    rw [if_pos hlt, hne]
    rfl
  · rw [if_neg hlt]
    by_cases hgt : y < x
    · have hne : linearCompare x y = 1 := by
        unfold linearCompare
        rw [if_neg hgt.ne', if_neg hlt]
      rw [if_pos hgt, hne]
      rfl
    · have heq : x = y := le_antisymm (not_lt.mp hgt) (not_lt.mp hlt)
      rw [if_neg hgt, linearCompare_eq_zero.mpr heq]
      rfl

theorem orderCompare_nan (h : a.number = none ∨ b.number = none) :
    a.orderCompare b = linearCompare a.hash b.hash := by
  unfold orderCompare compare
  rcases h with ha | hb
  · rw [ha]
    rfl
  · rw [hb]
    cases a.number with
    | none => rfl
    | some x => rfl

/-- Every literal is equivalent to itself, a NaN as well. -/
theorem orderCompare_self (a : APFloat) : a.orderCompare a = 0 := by
  cases ha : a.number with
  | none =>
      rw [orderCompare_nan (Or.inl ha)]
      exact linearCompare_eq_zero.mpr rfl
  | some x =>
      rw [orderCompare_numbers ha ha, thenBy_eq_zero]
      exact ⟨linearCompare_eq_zero.mpr rfl, linearCompare_eq_zero.mpr rfl⟩

/-- The sign turns with the operands, whatever they are. -/
theorem orderCompare_swap (a b : APFloat) : a.orderCompare b < 0 ↔ 0 < b.orderCompare a := by
  cases ha : a.number with
  | none =>
      rw [orderCompare_nan (Or.inl ha), orderCompare_nan (Or.inr ha), linearCompare_neg,
        linearCompare_pos]
  | some x =>
      cases hb : b.number with
      | none =>
          rw [orderCompare_nan (Or.inr hb), orderCompare_nan (Or.inl hb), linearCompare_neg,
            linearCompare_pos]
      | some y =>
          rw [orderCompare_numbers ha hb, orderCompare_numbers hb ha]
          apply orders_linearCompare.thenBy_swap (Set.mem_univ x) (Set.mem_univ y)
          intro _
          rw [linearCompare_neg, linearCompare_pos]

/-! ## §2. When the literals are ordered. -/

/-- **Literals that the comparison keeps apart.** -/
structure FloatsSeparated (literals : Set APFloat) : Prop where
  /-- Two literals of one hash are numbers of two values. -/
  distinct : ∀ a ∈ literals, ∀ b ∈ literals, a ≠ b → a.hash = b.hash →
    ∃ x y, a.number = some x ∧ b.number = some y ∧ x ≠ y
  /-- No NaN is between two numbers by hash, against their values. -/
  between : ∀ a ∈ literals, ∀ b ∈ literals, ∀ n ∈ literals, ∀ x y, a.number = some x →
    b.number = some y → n.number = none → x < y → ¬ (b.hash < n.hash ∧ n.hash < a.hash)

variable {literals : Set APFloat}

theorem FloatsSeparated.eq_of_zero (h : FloatsSeparated literals) (ha : a ∈ literals)
    (hb : b ∈ literals) (hzero : a.orderCompare b = 0) : a = b := by
  by_contra hne
  have hhash : a.hash = b.hash := by
    cases hna : a.number with
    | none =>
        rw [orderCompare_nan (Or.inl hna), linearCompare_eq_zero] at hzero
        exact hzero
    | some x =>
        cases hnb : b.number with
        | none =>
            rw [orderCompare_nan (Or.inr hnb), linearCompare_eq_zero] at hzero
            exact hzero
        | some y =>
            rw [orderCompare_numbers hna hnb, thenBy_eq_zero, linearCompare_eq_zero,
              linearCompare_eq_zero] at hzero
            exact hzero.2
  obtain ⟨x, y, hx, hy, hxy⟩ := h.distinct a ha b hb hne hhash
  rw [orderCompare_numbers hx hy, thenBy_eq_zero, linearCompare_eq_zero] at hzero
  exact hxy hzero.1

/-- Hashes that are not above, of two literals one of which is a NaN. -/
theorem FloatsSeparated.hash_lt (h : FloatsSeparated literals) (ha : a ∈ literals)
    (hb : b ∈ literals) (hnan : a.number = none ∨ b.number = none) (hne : a ≠ b)
    (hle : a.orderCompare b ≤ 0) : a.hash < b.hash := by
  rw [orderCompare_nan hnan, linearCompare_nonpos] at hle
  apply lt_of_le_of_ne hle
  intro heq
  obtain ⟨x, y, hx, hy, _⟩ := h.distinct a ha b hb hne heq
  rcases hnan with hnan | hnan
  · rw [hnan] at hx
    cases hx
  · rw [hnan] at hy
    cases hy

/-- Numbers that are not above. -/
theorem le_of_orderCompare (ha : a.number = some x) (hb : b.number = some y)
    (hle : a.orderCompare b ≤ 0) : x < y ∨ (x = y ∧ a.hash ≤ b.hash) := by
  rw [orderCompare_numbers ha hb, thenBy_nonpos, linearCompare_neg, linearCompare_eq_zero,
    linearCompare_nonpos] at hle
  exact hle

theorem FloatsSeparated.trans (h : FloatsSeparated literals) (ha : a ∈ literals)
    (hb : b ∈ literals) (hc : c ∈ literals) (hab : a.orderCompare b ≤ 0)
    (hbc : b.orderCompare c ≤ 0) : a.orderCompare c ≤ 0 := by
  -- three different literals; a NaN is placed by its hash
  by_cases heq : a = b
  · rw [heq]
    exact hbc
  by_cases heq' : b = c
  · rw [← heq']
    exact hab
  by_cases heq'' : a = c
  · rw [heq'', orderCompare_self]
  cases hna : a.number with
  | none =>
      -- the first is a NaN
      have h1 := h.hash_lt ha hb (Or.inl hna) heq hab
      rw [orderCompare_nan (Or.inl hna), linearCompare_nonpos]
      cases hnb : b.number with
      | none => exact (h1.trans (h.hash_lt hb hc (Or.inl hnb) heq' hbc)).le
      | some y =>
          cases hnc : c.number with
          | none => exact (h1.trans (h.hash_lt hb hc (Or.inr hnc) heq' hbc)).le
          -- no NaN lies between two numbers by the hash
          | some z =>
              rcases le_of_orderCompare hnb hnc hbc with hlt | hsame
              · by_contra hle
                exact h.between b hb c hc a ha y z hnb hnc hna hlt ⟨not_le.mp hle, h1⟩
              · exact (h1.trans_le hsame.2).le
  | some x =>
      cases hnb : b.number with
      | none =>
          -- the middle one is a NaN
          have h1 := h.hash_lt ha hb (Or.inr hnb) heq hab
          have h2 := h.hash_lt hb hc (Or.inl hnb) heq' hbc
          cases hnc : c.number with
          | none =>
              rw [orderCompare_nan (Or.inr hnc), linearCompare_nonpos]
              exact (h1.trans h2).le
          | some z =>
              rw [orderCompare_numbers hna hnc, thenBy_nonpos, linearCompare_neg,
                linearCompare_eq_zero, linearCompare_nonpos]
              rcases lt_trichotomy x z with hlt | hsame | hgt
              · exact Or.inl hlt
              · exact Or.inr ⟨hsame, (h1.trans h2).le⟩
              · exact absurd ⟨h1, h2⟩ (h.between c hc a ha b hb z x hnc hna hnb hgt)
      | some y =>
          cases hnc : c.number with
          | none =>
              -- the last is a NaN
              have h2 := h.hash_lt hb hc (Or.inr hnc) heq' hbc
              rw [orderCompare_nan (Or.inr hnc), linearCompare_nonpos]
              rcases le_of_orderCompare hna hnb hab with hlt | hsame
              · by_contra hle
                exact h.between a ha b hb c hc x y hna hnb hnc hlt ⟨h2, not_le.mp hle⟩
              · exact (hsame.2.trans_lt h2).le
          | some z =>
              -- three numbers
              rw [orderCompare_numbers hna hnc, thenBy_nonpos, linearCompare_neg,
                linearCompare_eq_zero, linearCompare_nonpos]
              rcases le_of_orderCompare hna hnb hab with hlt | hsame
              · rcases le_of_orderCompare hnb hnc hbc with hlt' | hsame'
                · exact Or.inl (hlt.trans hlt')
                · exact Or.inl (hsame'.1 ▸ hlt)
              · rcases le_of_orderCompare hnb hnc hbc with hlt' | hsame'
                · exact Or.inl (hsame.1 ▸ hlt')
                · exact Or.inr ⟨hsame.1.trans hsame'.1, hsame.2.trans hsame'.2⟩

theorem FloatsSeparated.orders (h : FloatsSeparated literals) :
    Orders literals orderCompare where
  swap a _ b _ := orderCompare_swap a b
  trans _ ha _ hb _ hc := h.trans ha hb hc

/-- **Exactly then the literals are ordered**, and only equal ones are equivalent. -/
theorem floatsSeparated_iff : FloatsSeparated literals
    ↔ Orders literals orderCompare
      ∧ ∀ a ∈ literals, ∀ b ∈ literals, a.orderCompare b = 0 → a = b := by
  constructor
  · intro h
    exact ⟨h.orders, fun a ha b hb => h.eq_of_zero ha hb⟩
  · intro h
    obtain ⟨horders, hzero⟩ := h
    constructor
    · intro a ha b hb hne hhash
      have hsame : linearCompare a.hash b.hash = 0 := linearCompare_eq_zero.mpr hhash
      cases hna : a.number with
      | none =>
          exact absurd (hzero a ha b hb ((orderCompare_nan (Or.inl hna)).trans hsame)) hne
      | some x =>
          cases hnb : b.number with
          | none =>
              exact absurd (hzero a ha b hb ((orderCompare_nan (Or.inr hnb)).trans hsame)) hne
          | some y =>
              refine ⟨x, y, rfl, rfl, ?_⟩
              intro hxy
              apply hne
              apply hzero a ha b hb
              rw [orderCompare_numbers hna hnb, thenBy_eq_zero]
              exact ⟨linearCompare_eq_zero.mpr hxy, hsame⟩
    · intro a ha b hb n hn x y hx hy hnan hlt hbetween
      -- the two numbers are one way round, and through the NaN the other
      have hab : a.orderCompare b < 0 := by
        rw [orderCompare_numbers hx hy, thenBy_neg, linearCompare_neg]
        exact Or.inl hlt
      have hbn : b.orderCompare n < 0 := by
        rw [orderCompare_nan (Or.inr hnan), linearCompare_neg]
        exact hbetween.1
      have hna : n.orderCompare a ≤ 0 := by
        rw [orderCompare_nan (Or.inl hnan), linearCompare_nonpos]
        exact hbetween.2.le
      have hba := horders.neg_trans hb hn ha hbn hna
      have hswap := (orderCompare_swap a b).mp hab
      omega

end APFloat

end Inferno.Helpers
