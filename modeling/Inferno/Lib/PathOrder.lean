/-
  Inferno.Lib.PathOrder
  ─────────────────────
  Places in a tree as the paths that lead to them, in dictionary order: depth-first order.

    • `lt_below`      — a path comes before the paths below it,
    • `branch_lt`     — two branches compare by their first steps,
    • `branch_unique` — two paths branch at one place,
    • `prefix_of_between` — the paths below a path are an interval.
-/
import Mathlib

namespace Inferno.Lib.PathOrder

variable {K : Type*} [LinearOrder K] {p q s x : List K}

/-! ## §1. The order along a branch. -/

theorem lt_append (p : List K) {s : List K} (hs : s ≠ []) : p < p ++ s := by
  induction p with
  | nil =>
      cases s with
      | nil => exact absurd rfl hs
      | cons a s => exact List.nil_lt_cons a s
  | cons a p ih => exact List.Lex.cons ih

/-- **A path comes before the paths below it.** -/
theorem lt_below (h : p <+: q) (hne : p ≠ q) : p < q := by
  obtain ⟨s, rfl⟩ := h
  refine lt_append p ?_
  rintro rfl
  exact hne (List.append_nil p).symm

theorem le_below (h : p <+: q) : p ≤ q := by
  by_cases hne : p = q
  · exact hne.le
  · exact (lt_below h hne).le

/-- Of two branches, the one with the smaller first step comes first. -/
theorem branch_lt {a b : K} (c s t : List K) (h : a < b) : c ++ a :: s < c ++ b :: t := by
  induction c with
  | nil => exact List.Lex.rel h
  | cons d c ih => exact List.Lex.cons ih

/-! ## §2. The interval below a path. -/

/-- **The paths below `p` are an interval.** -/
theorem prefix_of_between (h₁ : p ≤ x) (h₂ : x ≤ p ++ s) : p <+: x := by
  induction p generalizing x with
  | nil => exact List.nil_prefix
  | cons a p ih =>
      cases x with
      | nil => exact absurd h₁ (not_le.mpr (List.nil_lt_cons a p))
      | cons b x =>
          have hab : a = b := by
            rcases lt_trichotomy a b with hlt | heq | hgt
            · have hlt' : a :: p ++ s < b :: x := branch_lt [] (p ++ s) x hlt
              exact absurd h₂ (not_le.mpr hlt')
            · exact heq
            · have hgt' : b :: x < a :: p := branch_lt [] x p hgt
              exact absurd h₁ (not_le.mpr hgt')
          subst hab
          have h₁' : p ≤ x := by
            by_contra hlt
            exact absurd h₁ (not_le.mpr (List.Lex.cons (not_le.mp hlt)))
          have h₂' : x ≤ p ++ s := by
            by_contra hlt
            have hlt' : a :: p ++ s < a :: x := List.Lex.cons (not_le.mp hlt)
            exact absurd h₂ (not_le.mpr hlt')
          exact List.prefix_cons_inj a |>.mpr (ih h₁' h₂')

/-- What comes after `p` and is not below it comes after all that is. -/
theorem append_lt (h : p < x) (hn : ¬ p <+: x) : p ++ s < x := by
  by_contra hle
  exact hn (prefix_of_between h.le (not_lt.mp hle))

theorem append_lt_append {s t : List K} (c : List K) (h : s < t) : c ++ s < c ++ t := by
  induction c with
  | nil => exact h
  | cons a c ih => exact List.Lex.cons ih

omit [LinearOrder K] in
/-- Two paths branch at one place. -/
theorem branch_unique {a b a' b' : K} {c c' s t s' t' : List K} (hab : a ≠ b) (hab' : a' ≠ b')
    (hp : c ++ a :: s = c' ++ a' :: s') (hq : c ++ b :: t = c' ++ b' :: t') :
    c = c' ∧ a = a' ∧ b = b' := by
  induction c generalizing c' with
  | nil =>
      cases c' with
      | nil => exact ⟨rfl, (List.cons.inj hp).1, (List.cons.inj hq).1⟩
      | cons d c' => exact absurd ((List.cons.inj hp).1.trans (List.cons.inj hq).1.symm) hab
  | cons d c ih =>
      cases c' with
      | nil => exact absurd ((List.cons.inj hp).1.symm.trans (List.cons.inj hq).1) hab'
      | cons d' c' =>
          obtain ⟨hd, hp'⟩ := List.cons.inj hp
          obtain ⟨hc, ha, hb⟩ := ih hp' (List.cons.inj hq).2
          exact ⟨by rw [hd, hc], ha, hb⟩

omit [LinearOrder K] in
/-- Neither of two branches is below the other. -/
theorem not_prefix_of_branch {a b : K} {c s t : List K} (h : a ≠ b) :
    ¬ c ++ a :: s <+: c ++ b :: t := by
  intro hp
  rw [List.prefix_append_right_inj, List.cons_prefix_cons] at hp
  exact h hp.1

end Inferno.Lib.PathOrder
