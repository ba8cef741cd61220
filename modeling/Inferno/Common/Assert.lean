/-
  Inferno.Common.Assert
  ─────────────────────
  The assertions of `common/`: a computation of type `Option` is `none` when an
  ASSERT, an `at()` or one of the "Solo" helpers would fire.

    • `ASSERT`     — the assertion itself,
    • `insertSolo` — insert into a set an element that must be new,
    • `eraseSolo`  — erase from a set an element that must be there.
-/
import Mathlib.Data.Finset.Basic
import Mathlib.Data.Option.Basic

namespace Inferno.Common

/-- `ASSERT(p)`. -/
def ASSERT (p : Prop) [Decidable p] : Option Unit :=
  if p then some () else none

section

variable {p : Prop} [Decidable p]

@[simp] theorem ASSERT_eq_some {u : Unit} : ASSERT p = some u ↔ p := by
  unfold ASSERT
  split <;> simp_all

theorem ASSERT_pos (h : p) : ASSERT p = some () := by
  simp [h]

/-- Code after an assertion runs exactly when the assertion holds. -/
@[simp] theorem ASSERT_bind_eq_some {α : Type} {f : Unit → Option α} {a : α} :
    (ASSERT p >>= f) = some a ↔ p ∧ f () = some a := by
  unfold ASSERT
  split <;> simp_all

end

/-- A loop that collects the results of a body that always returns. -/
theorem exists_mapM {α β : Type} (f : α → Option β) (l : List α)
    (h : ∀ a ∈ l, ∃ b, f a = some b) :
    ∃ bs, l.mapM f = some bs ∧ ∀ b, b ∈ bs ↔ ∃ a ∈ l, f a = some b := by
  induction l with
  | nil => exact ⟨[], rfl, by simp⟩
  | cons a l ih =>
      obtain ⟨b, hb⟩ := h a List.mem_cons_self
      obtain ⟨bs, hbs, hmem⟩ := ih (fun x hx => h x (List.mem_cons_of_mem a hx))
      refine ⟨b :: bs, ?_, ?_⟩
      · rw [List.mapM_cons, hb, hbs]
        rfl
      · intro c
        rw [List.mem_cons, hmem, List.exists_mem_cons_iff, hb, Option.some.injEq, eq_comm]

/-- The results of such a loop, place by place. -/
theorem getElem?_of_mapM {α β : Type} {f : α → Option β} {l : List α} {bs : List β}
    (h : l.mapM f = some bs) :
    bs.length = l.length ∧ ∀ (i : Nat) (a : α), l[i]? = some a → f a = bs[i]? := by
  induction l generalizing bs with
  | nil =>
      rw [← Option.some.inj h]
      simp
  | cons a l ih =>
      rw [List.mapM_cons] at h
      obtain ⟨b, hb, h⟩ := Option.bind_eq_some_iff.mp h
      obtain ⟨rest, hrest, h⟩ := Option.bind_eq_some_iff.mp h
      obtain ⟨hlen, hget⟩ := ih hrest
      rw [← Option.some.inj h]
      refine ⟨congrArg (· + 1) hlen, ?_⟩
      intro i c hc
      cases i with
      | zero =>
          rw [← Option.some.inj hc]
          exact hb
      | succ i => exact hget i c hc

/-- Such a loop has run its body for each element, and holds nothing else. -/
theorem mem_of_mapM {α β : Type} {f : α → Option β} {l : List α} {bs : List β}
    (h : l.mapM f = some bs) : ∀ b, b ∈ bs ↔ ∃ a ∈ l, f a = some b := by
  induction l generalizing bs with
  | nil =>
      rw [← Option.some.inj h]
      simp
  | cons a l ih =>
      rw [List.mapM_cons] at h
      obtain ⟨b, hb, h⟩ := Option.bind_eq_some_iff.mp h
      obtain ⟨rest, hrest, h⟩ := Option.bind_eq_some_iff.mp h
      intro c
      rw [← Option.some.inj h, List.mem_cons, ih hrest, List.exists_mem_cons_iff, hb,
        Option.some.injEq, eq_comm]

/-- None of its turns has failed. -/
theorem isSome_of_mapM {α β : Type} {f : α → Option β} {l : List α} {bs : List β}
    (h : l.mapM f = some bs) : ∀ a ∈ l, ∃ b, f a = some b := by
  induction l generalizing bs with
  | nil => simp
  | cons a l ih =>
      rw [List.mapM_cons] at h
      obtain ⟨b, hb, h⟩ := Option.bind_eq_some_iff.mp h
      obtain ⟨rest, hrest, _⟩ := Option.bind_eq_some_iff.mp h
      intro c hc
      rcases List.mem_cons.mp hc with rfl | hc
      · exact ⟨b, hb⟩
      · exact ih hrest c hc

/-- Such a loop keeps all the results, or returns none. -/
theorem mapM_eq_filterMap {α β : Type} (f : α → Option β) (l : List α) :
    l.mapM f = if ∀ a ∈ l, (f a).isSome then some (l.filterMap f) else none := by
  induction l with
  | nil => rfl
  | cons a l ih =>
      rw [List.mapM_cons, ih]
      cases ha : f a with
      | none => simp [ha]
      | some b =>
          by_cases hl : ∀ c ∈ l, (f c).isSome
          · rw [if_pos hl, if_pos (List.forall_mem_cons.mpr ⟨by rw [ha]; rfl, hl⟩),
              List.filterMap_cons_some ha]
            rfl
          · rw [if_neg hl, if_neg (fun h => hl (List.forall_mem_cons.mp h).2)]
            rfl

variable {α : Type*} [DecidableEq α]

/-- `InsertSolo` on a set. -/
def insertSolo (s : Finset α) (x : α) : Option (Finset α) :=
  if x ∈ s then none else some (insert x s)

/-- `EraseSolo` on a set. -/
def eraseSolo (s : Finset α) (x : α) : Option (Finset α) :=
  if x ∈ s then some (s.erase x) else none

end Inferno.Common
