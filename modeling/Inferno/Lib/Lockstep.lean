/-
  Inferno.Lib.Lockstep
  ────────────────────
  An index into a list that goes on only when the element of another walk is met.

    • `Aligned`      — what is left of the list lies, in order, in what is left of the walk,
    • `Aligned.next` — the element walked over is the one at the index exactly when the
                       list has it, and the walk goes on aligned.
-/
import Mathlib.Data.List.Nodup

namespace Inferno.Lib

variable {M : Type*} {sub rest : List M} {m : M} {j : Nat}

/-- The part of `sub` from `j` on lies in `rest` in order, `rest` has nothing twice, and
what it has of `sub` is in that part. -/
structure Aligned (sub : List M) (j : Nat) (rest : List M) : Prop where
  inOrder : (sub.drop j).Sublist rest
  nodup : rest.Nodup
  ahead : ∀ m ∈ rest, m ∈ sub → m ∈ sub.drop j

theorem Aligned.start {l : List M} (h : sub.Sublist l) (hl : l.Nodup) : Aligned sub 0 l where
  inOrder := h
  nodup := hl
  ahead := fun _ _ hm => hm

/-- The element at the index, when the walk meets one of the list. -/
theorem Aligned.drop_eq (h : Aligned sub j (m :: rest)) (hm : m ∈ sub) :
    sub.drop j = m :: sub.drop (j + 1) := by
  have hahead : m ∈ sub.drop j := h.ahead m List.mem_cons_self hm
  cases hdrop : sub.drop j with
  | nil =>
      rw [hdrop] at hahead
      cases hahead
  | cons a tail =>
      have htail : sub.drop (j + 1) = tail := by
        rw [← List.drop_drop, hdrop]
        rfl
      rw [hdrop] at hahead
      have horder := h.inOrder
      rw [hdrop] at horder
      -- were another element there, `m` would come after it, and so twice
      rcases List.mem_cons.mp hahead with hma | hmt
      · rw [hma, htail]
      · have hlater : m ∈ rest := by
          cases horder with
          | cons _ hsub => exact hsub.subset (List.mem_cons_of_mem a hmt)
          | cons_cons _ hsub => exact hsub.subset hmt
        exact absurd hlater (List.nodup_cons.mp h.nodup).1

theorem Aligned.getElem? (h : Aligned sub j (m :: rest)) : sub[j]? = some m ↔ m ∈ sub := by
  constructor
  · exact fun hj => List.mem_of_getElem? hj
  · intro hm
    have hget := congrArg (fun l => l[0]?) (h.drop_eq hm)
    simpa using hget

/-- Over an element of the list, the index goes on. -/
theorem Aligned.next_mem (h : Aligned sub j (m :: rest)) (hm : m ∈ sub) :
    Aligned sub (j + 1) rest where
  inOrder := by
    have horder := h.inOrder
    rw [h.drop_eq hm] at horder
    exact List.cons_sublist_cons.mp horder
  nodup := (List.nodup_cons.mp h.nodup).2
  ahead := by
    intro a ha hsub
    have hahead := h.ahead a (List.mem_cons_of_mem m ha) hsub
    rw [h.drop_eq hm] at hahead
    rcases List.mem_cons.mp hahead with rfl | htail
    · exact absurd ha (List.nodup_cons.mp h.nodup).1
    · exact htail

/-- Over another element, it stays. -/
theorem Aligned.next_not_mem (h : Aligned sub j (m :: rest)) (hm : m ∉ sub) :
    Aligned sub j rest where
  inOrder := by
    have horder := h.inOrder
    cases hdrop : sub.drop j with
    | nil => exact List.nil_sublist rest
    | cons a tail =>
        have ha : a ∈ sub := List.mem_of_mem_drop (hdrop ▸ List.mem_cons_self)
        rw [hdrop] at horder
        cases horder with
        | cons _ hsub => exact hsub
        | cons_cons _ hsub => exact absurd ha hm
  nodup := (List.nodup_cons.mp h.nodup).2
  ahead := fun a ha hsub => h.ahead a (List.mem_cons_of_mem m ha) hsub

end Inferno.Lib
