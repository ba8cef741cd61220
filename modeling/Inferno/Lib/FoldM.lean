/-
  Inferno.Lib.FoldM
  ─────────────────
  Loops that can fail: what one turn does, carried over a whole `foldlM` in `Option`.

    • `foldlM_invariant` — what every turn keeps, the loop keeps,
    • `foldlM_returns`   — when every turn returns, the loop does,
    • `foldlM_grows`     — when every turn only adds to the state, each element's turn
                           ran on a state between the first and the last,
    • `TakesOnce`        — a step that takes a list of things, each of which must be free,
    • `TakesOnce.foldlM` — a loop of such steps takes what they all take.
-/
import Mathlib.Data.List.Nodup

namespace Inferno.Lib

variable {S E : Type*} {f : S → E → Option S}

/-- A loop that returns has run its first turn, and then the rest. -/
theorem foldlM_cons_eq_some {e : E} {l : List E} {s s' : S} :
    (e :: l).foldlM f s = some s' ↔ ∃ s₁, f s e = some s₁ ∧ l.foldlM f s₁ = some s' := by
  rw [List.foldlM_cons]
  exact Option.bind_eq_some_iff

/-- **The invariant rule.** -/
theorem foldlM_invariant (Inv : S → Prop) (l : List E)
    (hstep : ∀ e ∈ l, ∀ s s', Inv s → f s e = some s' → Inv s') :
    ∀ {s s' : S}, Inv s → l.foldlM f s = some s' → Inv s' := by
  induction l with
  | nil =>
      intro s s' hs h
      cases h
      exact hs
  | cons e l ih =>
      intro s s' hs h
      obtain ⟨s₁, he, hl⟩ := foldlM_cons_eq_some.mp h
      have hs₁ := hstep e List.mem_cons_self s s₁ hs he
      exact ih (fun e he => hstep e (List.mem_cons_of_mem _ he)) hs₁ hl

/-- **The rule for loops that return**: every turn returns, and keeps the invariant. -/
theorem foldlM_returns (Inv : S → Prop) (l : List E)
    (hstep : ∀ e ∈ l, ∀ s, Inv s → ∃ s', f s e = some s' ∧ Inv s') :
    ∀ {s : S}, Inv s → ∃ s', l.foldlM f s = some s' ∧ Inv s' := by
  induction l with
  | nil =>
      intro s hs
      exact ⟨s, rfl, hs⟩
  | cons e l ih =>
      intro s hs
      obtain ⟨s₁, he, hs₁⟩ := hstep e List.mem_cons_self s hs
      obtain ⟨s', hl, hs'⟩ := ih (fun e he => hstep e (List.mem_cons_of_mem _ he)) hs₁
      exact ⟨s', foldlM_cons_eq_some.mpr ⟨s₁, he, hl⟩, hs'⟩

/-- **The growth rule**, for a preorder on the states. -/
theorem foldlM_grows (le : S → S → Prop) (hrefl : ∀ s, le s s)
    (htrans : ∀ a b c, le a b → le b c → le a c) (l : List E)
    (hstep : ∀ e ∈ l, ∀ s s', f s e = some s' → le s s') :
    ∀ {s s' : S}, l.foldlM f s = some s' →
      le s s' ∧ ∀ e ∈ l, ∃ s₁ s₂, le s s₁ ∧ f s₁ e = some s₂ ∧ le s₂ s' := by
  induction l with
  | nil =>
      intro s s' h
      cases h
      exact ⟨hrefl s, by simp⟩
  | cons e l ih =>
      intro s s' h
      obtain ⟨s₁, he, hl⟩ := foldlM_cons_eq_some.mp h
      have hse := hstep e List.mem_cons_self s s₁ he
      obtain ⟨hle, hmem⟩ := ih (fun e he => hstep e (List.mem_cons_of_mem _ he)) hl
      refine ⟨htrans _ _ _ hse hle, ?_⟩
      intro a ha
      rcases List.mem_cons.mp ha with rfl | ha
      · exact ⟨s, s₁, hrefl s, he, hle⟩
      · obtain ⟨t₁, t₂, h₁, h₂, h₃⟩ := hmem a ha
        exact ⟨t₁, t₂, htrans _ _ _ hse h₁, h₂, h₃⟩

/-! ## Taking things that must be free. -/

section

variable {A : Type*} (free : S → A → Prop)

/-- The step returns exactly where it takes nothing twice and nothing that is not free,
and then leaves free what it has not taken. -/
def TakesOnce (step : S → Option S) (taken : List A) : Prop :=
  ∀ s, ((∃ s', step s = some s') ↔ taken.Nodup ∧ ∀ a ∈ taken, free s a) ∧
    ∀ s', step s = some s' → ∀ a, free s' a ↔ free s a ∧ a ∉ taken

variable {free}

theorem TakesOnce.nil : TakesOnce free (fun s : S => some s) ([] : List A) := by
  intro s
  refine ⟨by simp, ?_⟩
  intro s' h a
  cases h
  simp

/-- One step after another. -/
theorem TakesOnce.bind {step step' : S → Option S} {taken taken' : List A}
    (h : TakesOnce free step taken) (h' : TakesOnce free step' taken') :
    TakesOnce free (fun s => (step s).bind step') (taken ++ taken') := by
  intro s
  constructor
  · constructor
    · -- the second step finds free what the first has not taken
      rintro ⟨s', hs'⟩
      obtain ⟨s₁, hs₁, hstep'⟩ := Option.bind_eq_some_iff.mp hs'
      obtain ⟨hnodup, hfree⟩ := (h s).1.mp ⟨s₁, hs₁⟩
      obtain ⟨hnodup', hfree'⟩ := (h' s₁).1.mp ⟨s', hstep'⟩
      have hleft := (h s).2 s₁ hs₁
      refine ⟨List.nodup_append'.mpr ⟨hnodup, hnodup', ?_⟩, ?_⟩
      · intro a ha ha'
        exact ((hleft a).mp (hfree' a ha')).2 ha
      · intro a ha
        rcases List.mem_append.mp ha with ha | ha
        · exact hfree a ha
        · exact ((hleft a).mp (hfree' a ha)).1
    · -- and back: both steps find what they take
      rintro ⟨hnodup, hfree⟩
      obtain ⟨hn, hn', hdisjoint⟩ := List.nodup_append'.mp hnodup
      obtain ⟨s₁, hs₁⟩ := (h s).1.mpr ⟨hn, fun a ha => hfree a (List.mem_append_left _ ha)⟩
      have hleft := (h s).2 s₁ hs₁
      obtain ⟨s', hs'⟩ := (h' s₁).1.mpr ⟨hn', fun a ha => (hleft a).mpr
        ⟨hfree a (List.mem_append_right _ ha), fun hmem => hdisjoint hmem ha⟩⟩
      exact ⟨s', Option.bind_eq_some_iff.mpr ⟨s₁, hs₁, hs'⟩⟩
  · intro s' hs' a
    obtain ⟨s₁, hs₁, hstep'⟩ := Option.bind_eq_some_iff.mp hs'
    rw [(h' s₁).2 s' hstep' a, (h s).2 s₁ hs₁ a, List.mem_append]
    constructor
    · rintro ⟨⟨hfree, hleft⟩, hright⟩
      exact ⟨hfree, fun hor => hor.elim hleft hright⟩
    · rintro ⟨hfree, hnot⟩
      exact ⟨⟨hfree, fun hl => hnot (Or.inl hl)⟩, fun hr => hnot (Or.inr hr)⟩

/-- **The rule for loops.** -/
theorem TakesOnce.foldlM {taken : E → List A} (l : List E)
    (h : ∀ e ∈ l, TakesOnce free (fun s => f s e) (taken e)) :
    TakesOnce free (fun s => l.foldlM f s) (l.flatMap taken) := by
  induction l with
  | nil => exact TakesOnce.nil
  | cons e l ih =>
      have hrest := ih fun g hg => h g (List.mem_cons_of_mem e hg)
      have hboth := (h e List.mem_cons_self).bind hrest
      rw [List.flatMap_cons]
      intro s
      have hrun : (e :: l).foldlM f s = (f s e).bind fun s => l.foldlM f s := List.foldlM_cons
      show ((∃ s', (e :: l).foldlM f s = some s') ↔ _) ∧ _
      rw [hrun]
      exact hboth s

end

end Inferno.Lib
