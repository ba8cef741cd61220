/-
  Inferno.UP.LongestInOrder
  ─────────────────────────
  What `MaximalIncreasingSubsequence` leaves in the set of patch indices.

    • `intTurns_eq_iff`   — the loop that reconstructs counts down in an `int`: it takes a
                            turn for each index up to 2^31 of them, and no further,
    • `maximalIncreasingSubsequence_spec` — the last indices of a longest increasing
                            subset, as many as there are turns,
    • `KeepsLongest`      — a longest increasing subset replaces the set,
    • `keepsLongest_iff`  — the sets for which it does.
-/
import Inferno.UP.OrderingPass

namespace Inferno.UP

open Inferno.Lib
open Inferno.Lib.IncreasingSubsequence (Increasing)

/-! ## §1. The turns of the loop. -/

theorem intTurns_le (L : Nat) : intTurns L ≤ L := by
  unfold intTurns
  rw [Int.bmod_def]
  split <;> omega

/-- The conversion of `L-1` to `int` keeps it below 2^31. -/
theorem intTurns_eq_iff (L : Nat) : intTurns L = L ↔ L ≤ 2 ^ 31 := by
  unfold intTurns
  rw [Int.bmod_def]
  split <;> omega

/-! ## §2. What is left. -/

/-- The members of a part of a set, in the order of the set. -/
theorem filter_mem_of_sublist {part X : List Nat} (h : part.Sublist X) (hX : X.Nodup) :
    X.filter (· ∈ part) = part := by
  induction h with
  | slnil => rfl
  | @cons part X x hsub ih =>
      obtain ⟨hx, hX⟩ := List.nodup_cons.mp hX
      have hnot : x ∉ part := fun hmem => hx (hsub.subset hmem)
      rw [List.filter_cons_of_neg (by simpa using hnot), ih hX]
  | @cons_cons part X x hsub ih =>
      obtain ⟨hx, hX⟩ := List.nodup_cons.mp hX
      rw [List.filter_cons_of_pos (by simp)]
      congr 1
      have hsame : X.filter (· ∈ x :: part) = X.filter (· ∈ part) := by
        refine List.filter_congr ?_
        intro y hy
        have hne : y ≠ x := fun heq => hx (heq ▸ hy)
        simp [hne]
      rw [hsame, ih hX]

/-- **The last indices of a longest increasing subset** are left, as many as the loop that
reconstructs it takes turns. -/
theorem maximalIncreasingSubsequence_spec (X : List Nat) (hX : X.Nodup) : ∃ longest,
    Increasing X longest ∧ (∀ part, Increasing X part → part.length ≤ longest.length)
      ∧ maximalIncreasingSubsequence X
        = some (longest.drop (longest.length - intTurns longest.length)) := by
  obtain ⟨inserted, longest, hrun, hinc, hlongest, rfl⟩ :=
    IncreasingSubsequence.maximalIncreasingSubsequence_spec intTurns intTurns_le noIndex X
  refine ⟨longest, hinc, hlongest, ?_⟩
  have hsub := (List.drop_sublist (longest.length - intTurns longest.length) longest).trans hinc.1
  have hset : X.filter (· ∈ longest.reverse.take (intTurns longest.length))
      = X.filter (· ∈ longest.drop (longest.length - intTurns longest.length)) := by
    rw [List.take_reverse]
    simp only [List.mem_reverse]
  unfold maximalIncreasingSubsequence
  rw [hrun]
  show some (X.filter _) = _
  rw [hset, filter_mem_of_sublist hsub hX]

/-- What is left increases, and is a part of the set. -/
theorem maximalIncreasingSubsequence_increasing (X : List Nat) (hX : X.Nodup) :
    ∃ kept, maximalIncreasingSubsequence X = some kept ∧ Increasing X kept := by
  obtain ⟨longest, hinc, _, hrun⟩ := maximalIncreasingSubsequence_spec X hX
  exact ⟨_, hrun, (List.drop_sublist _ _).trans hinc.1, hinc.2.sublist (List.drop_sublist _ _)⟩

/-! ## §3. When it is a longest one. -/

/-- **A longest increasing subset replaces the set**: the procedure returns, and no subset
whose indices increase in the order of the set has more members than what is left. -/
def KeepsLongest (X : List Nat) : Prop :=
  ∃ kept, maximalIncreasingSubsequence X = some kept ∧ Increasing X kept
    ∧ ∀ part, Increasing X part → part.length ≤ kept.length

/-- With more than 2^31 indices in order, some are lost. -/
theorem not_keepsLongest {X part : List Nat} (hX : X.Nodup) (hpart : Increasing X part)
    (hlong : 2 ^ 31 < part.length) : ¬ KeepsLongest X := by
  rintro ⟨kept, hkept, _, hmax⟩
  obtain ⟨longest, hinc, hlongest, hrun⟩ := maximalIncreasingSubsequence_spec X hX
  obtain rfl := Option.some.inj (hrun.symm.trans hkept)
  have hlen := hmax longest hinc
  rw [List.length_drop] at hlen
  have hle := intTurns_le longest.length
  have hturns : intTurns longest.length = longest.length := by omega
  have hbound := (intTurns_eq_iff longest.length).mp hturns
  have hpartLen := hlongest part hpart
  omega

/-- **A longest increasing subset is kept** exactly when it has at most 2^31 indices; in any
case the procedure returns, and what is left is a subset that increases. -/
theorem keepsLongest_iff (X : List Nat) (hX : X.Nodup) :
    (∃ kept, maximalIncreasingSubsequence X = some kept ∧ Increasing X kept) ∧
    (KeepsLongest X ↔ ∀ part, Increasing X part → part.length ≤ 2 ^ 31) := by
  refine ⟨maximalIncreasingSubsequence_increasing X hX, ?_, ?_⟩
  · intro hkeeps part hpart
    by_contra hlong
    exact not_keepsLongest hX hpart (Nat.lt_of_not_le hlong) hkeeps
  · intro hshort
    obtain ⟨longest, hinc, hlongest, hrun⟩ := maximalIncreasingSubsequence_spec X hX
    have hturns := (intTurns_eq_iff longest.length).mpr (hshort longest hinc)
    rw [hturns, Nat.sub_self, List.drop_zero] at hrun
    exact ⟨longest, hrun, hinc, hlongest⟩

theorem keepsLongest_iff_small : KeepsLongest [2, 0, 1] :=
  (keepsLongest_iff [2, 0, 1] (by decide)).2.mpr fun _ hpart =>
    hpart.1.length_le.trans (by decide)

/-- All of 2^31 + 1 indices are in order, and none is left. -/
theorem allInOrder_not_keepsLongest : ¬ KeepsLongest (List.range (2 ^ 31 + 1)) := by
  have hall : Increasing (List.range (2 ^ 31 + 1)) (List.range (2 ^ 31 + 1)) :=
    ⟨List.Sublist.refl _, List.pairwise_lt_range⟩
  refine not_keepsLongest List.nodup_range hall ?_
  rw [List.length_range]
  exact Nat.lt_succ_self _

example : maximalIncreasingSubsequence [3, 0, 2, 1, 4] = some [0, 1, 4] := by decide

end Inferno.UP
