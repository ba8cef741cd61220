/-
  Inferno.Lib.LongestMatch
  ────────────────────────
  Scanning by the longest match, the first of the rules where two are as long.

    • `Lexeme`       — a rule: what it makes, and how much of a text it matches,
    • `longest`      — the rule a scanner takes,
    • `longest_only` — the one rule that matches is taken,
    • `oneOf`, `inClass` — rules for a few texts, and for a class of characters.
-/
import Mathlib.Data.List.Basic

namespace Inferno.Lib

/-- A rule of a scanner: a text's longest match by it has this length; none if that is
zero. -/
structure Lexeme (C K : Type) where
  kind : K
  length : List C → Nat

section

variable {C K : Type}

/-- The rule with the longest match, the first of those as long. -/
def longest (text : List C) : List (Lexeme C K) → Option (K × Nat)
  | [] => none
  | r :: rs =>
      match longest text rs with
      | none => if 0 < r.length text then some (r.kind, r.length text) else none
      | some (k, n) =>
          if n ≤ r.length text then some (r.kind, r.length text) else some (k, n)

/-- Rules that do not match are not taken. -/
theorem longest_none (text : List C) (rs : List (Lexeme C K))
    (h : ∀ r ∈ rs, r.length text = 0) : longest text rs = none := by
  induction rs with
  | nil => rfl
  | cons r rs ih =>
      have hr : r.length text = 0 := h r List.mem_cons_self
      unfold longest
      rw [ih fun s hs => h s (List.mem_cons_of_mem r hs)]
      simp [hr]

/-- **The one rule that matches is taken**, by induction on the rules before it. -/
theorem longest_only (text : List C) (front back : List (Lexeme C K)) (r : Lexeme C K)
    (hpos : 0 < r.length text) (hfront : ∀ s ∈ front, s.length text = 0)
    (hback : ∀ s ∈ back, s.length text = 0) :
    longest text (front ++ r :: back) = some (r.kind, r.length text) := by
  induction front with
  | nil =>
      show longest text (r :: back) = _
      unfold longest
      rw [longest_none text back hback]
      simp [hpos]
  | cons s front ih =>
      have hs : s.length text = 0 := hfront s List.mem_cons_self
      show longest text (s :: (front ++ r :: back)) = _
      unfold longest
      rw [ih fun t ht => hfront t (List.mem_cons_of_mem s ht)]
      have hlt : ¬ r.length text ≤ s.length text := by omega
      simp [hlt]

variable [DecidableEq C]

/-- A few texts. -/
def oneOf (alternatives : List (List C)) (text : List C) : Nat :=
  ((alternatives.filter fun a => a.isPrefixOf text).map List.length).foldr max 0

/-- A class of characters. -/
def inClass (p : C → Bool) : List C → Nat
  | [] => 0
  | c :: _ => if p c then 1 else 0

theorem oneOf_zero {alternatives : List (List C)} {text : List C}
    (h : ∀ a ∈ alternatives, a.isPrefixOf text = false) : oneOf alternatives text = 0 := by
  unfold oneOf
  rw [List.filter_eq_nil_iff.mpr fun a ha => by simp [h a ha]]
  rfl

end

end Inferno.Lib
