/-
  Inferno.Lib.ThreeWay
  ────────────────────
  Three-way comparisons that may refuse: `cmp x y` is a difference, or `none`.

    • `Below`    — the comparison returns a negative difference,
    • `ThreeWay` — the laws: zero is equality, the sign turns with the operands, and
                   below is transitive,
    • what each of `<`, `>`, `≤`, `≥ 0` says of the two values.
-/
import Mathlib.Data.Int.Order.Basic

namespace Inferno.Lib

variable {X : Type*} {cmp : X → X → Option Int} {x y z : X}

/-- `cmp x y` returns, and is negative. -/
def Below (cmp : X → X → Option Int) (x y : X) : Prop :=
  ∃ d, cmp x y = some d ∧ d < 0

/-- **The laws of a three-way comparison.** -/
structure ThreeWay (cmp : X → X → Option Int) : Prop where
  zero_iff : ∀ x y, cmp x y = some 0 ↔ x = y
  swap : ∀ x y, (∃ d, cmp x y = some d ∧ 0 < d) ↔ Below cmp y x
  trans : ∀ x y z, Below cmp x y → Below cmp y z → Below cmp x z

namespace ThreeWay

variable (h : ThreeWay cmp)

theorem less_iff (x y : X) :
    (cmp x y).map (fun diff => decide (diff < 0)) = some true ↔ Below cmp x y := by
  simp only [Option.map_eq_some_iff, decide_eq_true_iff, Below]

include h

theorem irrefl (x : X) : ¬ Below cmp x x := by
  intro hx
  obtain ⟨d, hd, hneg⟩ := hx
  rw [(h.zero_iff x x).mpr rfl] at hd
  cases hd
  exact absurd hneg (by omega)

theorem asymm (hxy : Below cmp x y) : ¬ Below cmp y x :=
  fun hyx => h.irrefl x (h.trans x y x hxy hyx)

theorem greater_iff (x y : X) :
    (cmp x y).map (fun diff => decide (diff > 0)) = some true ↔ Below cmp y x := by
  rw [← h.swap x y]
  simp only [Option.map_eq_some_iff, decide_eq_true_iff]

theorem lessOrEqual_iff (x y : X) :
    (cmp x y).map (fun diff => decide (diff ≤ 0)) = some true ↔ x = y ∨ Below cmp x y := by
  simp only [Option.map_eq_some_iff, decide_eq_true_iff]
  rw [← h.zero_iff]
  constructor
  · rintro ⟨d, hd, hle⟩
    rcases Int.lt_or_eq_of_le hle with hlt | heq
    · exact .inr ⟨d, hd, hlt⟩
    · exact .inl (heq ▸ hd)
  · rintro (hzero | ⟨d, hd, hlt⟩)
    · exact ⟨0, hzero, le_refl 0⟩
    · exact ⟨d, hd, Int.le_of_lt hlt⟩

theorem greaterOrEqual_iff (x y : X) :
    (cmp x y).map (fun diff => decide (diff ≥ 0)) = some true ↔ x = y ∨ Below cmp y x := by
  simp only [Option.map_eq_some_iff, decide_eq_true_iff]
  rw [← h.zero_iff, ← h.swap]
  constructor
  · rintro ⟨d, hd, hge⟩
    rcases Int.lt_or_eq_of_le hge with hlt | heq
    · exact .inr ⟨d, hd, hlt⟩
    · exact .inl (heq ▸ hd)
  · rintro (hzero | ⟨d, hd, hlt⟩)
    · exact ⟨0, hzero, le_refl 0⟩
    · exact ⟨d, hd, Int.le_of_lt hlt⟩

/-- "Not above" is transitive. -/
theorem notAbove_trans (hxy : x = y ∨ Below cmp x y) (hyz : y = z ∨ Below cmp y z) :
    x = z ∨ Below cmp x z := by
  rcases hxy with rfl | hxy
  · exact hyz
  · rcases hyz with rfl | hyz
    · exact .inr hxy
    · exact .inr (h.trans x y z hxy hyz)

theorem trans_notAbove (hxy : Below cmp x y) (hyz : y = z ∨ Below cmp y z) : Below cmp x z := by
  rcases hyz with rfl | hyz
  · exact hxy
  · exact h.trans x y z hxy hyz

theorem notAbove_trans_below (hxy : x = y ∨ Below cmp x y) (hyz : Below cmp y z) :
    Below cmp x z := by
  rcases hxy with rfl | hxy
  · exact hyz
  · exact h.trans x y z hxy hyz

end ThreeWay

end Inferno.Lib
