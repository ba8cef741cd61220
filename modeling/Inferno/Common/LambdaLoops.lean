/-
  Inferno.Common.LambdaLoops
  ──────────────────────────
  `common/lambda_loops`: loops over every vector of indices.

    • `incrementIndices` — count up, the first index fastest,
    • `forPower`         — the vectors that `ForPower` calls its body with, in order,
    • `indicesValue`     — the number that a vector of indices counts,
    • `mem_forPower`     — every vector over the range is visited,
    • `getElem_forPower` — the `k`th one counts `k`.
-/
import Mathlib.Data.List.Basic
import Mathlib.Data.List.Range
import Mathlib.Tactic.Linarith
import Mathlib.Tactic.Ring

namespace Inferno.Common

/-! ## §1. Counting. -/

/-- `IncrementIndices`; `none` when it wrapped. -/
def incrementIndices (indexRange : Nat) : List Nat → Option (List Nat)
  | [] => none
  | i :: is =>
      if i + 1 = indexRange then (incrementIndices indexRange is).map (0 :: ·)
      else some ((i + 1) :: is)

/-- The number that a vector of indices counts. -/
def indicesValue (indexRange : Nat) : List Nat → Nat
  | [] => 0
  | i :: is => i + indexRange * indicesValue indexRange is

/-- Every index is in range. -/
def InRange (indexRange : Nat) (is : List Nat) : Prop := ∀ i ∈ is, i < indexRange

theorem indicesValue_lt {indexRange : Nat} {is : List Nat} (h : InRange indexRange is) :
    indicesValue indexRange is < indexRange ^ is.length := by
  induction is with
  | nil => exact Nat.one_pos
  | cons i is ih =>
      have hi := h i List.mem_cons_self
      have hlt := ih (fun j hj => h j (List.mem_cons_of_mem i hj))
      have hmul := Nat.mul_le_mul_left indexRange (Nat.succ_le_of_lt hlt)
      rw [List.length_cons, Nat.pow_succ, Nat.mul_comm]
      show i + indexRange * indicesValue indexRange is < indexRange * indexRange ^ is.length
      rw [Nat.succ_eq_add_one, Nat.mul_add, Nat.mul_one] at hmul
      omega

/-- Vectors in range that count one number are equal. -/
theorem indicesValue_injective {indexRange : Nat} {is : List Nat} :
    ∀ js : List Nat, InRange indexRange is → InRange indexRange js → is.length = js.length →
    indicesValue indexRange is = indicesValue indexRange js → is = js := by
  induction is with
  | nil =>
      intro js _ _ hlen _
      exact (List.length_eq_zero_iff.mp hlen.symm).symm
  | cons i is ih =>
      intro js his hjs hlen hval
      cases js with
      | nil => exact absurd hlen (by simp)
      | cons j js =>
          have hi := his i List.mem_cons_self
          have hj := hjs j List.mem_cons_self
          have hmod : i = j := by
            have h := congrArg (· % indexRange) hval
            simpa [indicesValue, Nat.add_mul_mod_self_left, Nat.mod_eq_of_lt hi,
              Nat.mod_eq_of_lt hj] using h
          subst hmod
          have hrest : indicesValue indexRange is = indicesValue indexRange js := by
            apply Nat.eq_of_mul_eq_mul_left (Nat.zero_lt_of_lt hi)
            exact Nat.add_left_cancel hval
          rw [ih js (fun k hk => his k (List.mem_cons_of_mem i hk))
            (fun k hk => hjs k (List.mem_cons_of_mem i hk)) (Nat.succ.inj hlen) hrest]

/-- **One increment**: it counts up by one, or wraps from the last number. -/
theorem incrementIndices_spec {indexRange : Nat} {is : List Nat} (h : InRange indexRange is) :
    match incrementIndices indexRange is with
    | some is' => InRange indexRange is' ∧ is'.length = is.length
        ∧ indicesValue indexRange is' = indicesValue indexRange is + 1
    | none => indicesValue indexRange is + 1 = indexRange ^ is.length := by
  -- on the indices, the fastest first
  induction is with
  | nil => rfl
  | cons i is ih =>
      have hi := h i List.mem_cons_self
      have ih := ih (fun j hj => h j (List.mem_cons_of_mem i hj))
      unfold incrementIndices
      by_cases hwrap : i + 1 = indexRange
      · -- carry into the next index
        rw [if_pos hwrap]
        cases hinc : incrementIndices indexRange is with
        | none =>
            rw [hinc] at ih
            dsimp only at ih ⊢
            show i + indexRange * indicesValue indexRange is + 1 = indexRange ^ (is.length + 1)
            rw [Nat.pow_succ, ← ih, ← hwrap]
            ring
        | some is' =>
            rw [hinc] at ih
            dsimp only [Option.map_some] at ih ⊢
            refine ⟨?_, ?_, ?_⟩
            · intro j hj
              rcases List.mem_cons.mp hj with rfl | hj
              · omega
              · exact ih.1 j hj
            · rw [List.length_cons, List.length_cons, ih.2.1]
            · show 0 + indexRange * indicesValue indexRange is' = i
                + indexRange * indicesValue indexRange is + 1
              rw [ih.2.2, ← hwrap]
              ring
      · rw [if_neg hwrap]
        dsimp only
        refine ⟨?_, rfl, ?_⟩
        · intro j hj
          rcases List.mem_cons.mp hj with rfl | hj
          · omega
          · exact h j (List.mem_cons_of_mem i hj)
        · show i + 1 + indexRange * indicesValue indexRange is = i
            + indexRange * indicesValue indexRange is + 1
          omega

/-! ## §2. `ForPower`. -/

/-- The `do … while( !IncrementIndices )` loop. -/
def indicesFrom (indexRange : Nat) : Nat → List Nat → List (List Nat)
  | 0, _ => []
  | fuel + 1, is => is ::
      match incrementIndices indexRange is with
      | none => []
      | some is' => indicesFrom indexRange fuel is'

/-- `ForPower`: the vectors it calls its body with.  There are a power of the range's
size of them. -/
def forPower {α : Type} (degree : Nat) (indexRange : List α) : List (List α) :=
  (indicesFrom indexRange.length (indexRange.length ^ degree) (List.replicate degree 0)).map
    (fun is => is.filterMap (indexRange[·]?))

/-- The loop visits every later number in turn. -/
theorem getElem_indicesFrom {indexRange degree : Nat} (fuel : Nat) : ∀ is : List Nat,
    InRange indexRange is → is.length = degree →
    indexRange ^ degree ≤ indicesValue indexRange is + fuel →
    (indicesFrom indexRange fuel is).length = indexRange ^ degree - indicesValue indexRange is
    ∧ ∀ k v, (indicesFrom indexRange fuel is)[k]? = some v →
        InRange indexRange v ∧ v.length = degree
          ∧ indicesValue indexRange v = indicesValue indexRange is + k := by
  -- on the fuel, which covers the numbers that are left
  induction fuel with
  | zero =>
      intro is _ _ hfuel
      refine ⟨?_, ?_⟩
      · show 0 = _
        omega
      · intro k v hv
        exact absurd hv (by simp [indicesFrom])
  | succ fuel ih =>
      intro is hin hlen hfuel
      have hstep := incrementIndices_spec hin
      have hlt := indicesValue_lt hin
      rw [hlen] at hlt
      unfold indicesFrom
      cases hinc : incrementIndices indexRange is with
      | none =>
          -- that was the last number
          rw [hinc, hlen] at hstep
          dsimp only at hstep ⊢
          refine ⟨?_, ?_⟩
          · show 1 = _
            omega
          · intro k v hv
            cases k with
            | zero =>
                obtain rfl : is = v := Option.some.inj hv
                exact ⟨hin, hlen, rfl⟩
            | succ k => exact absurd hv (by simp)
      | some is' =>
          rw [hinc] at hstep
          dsimp only at hstep ⊢
          -- the next number, and those after it
          obtain ⟨hin', hlen', hval'⟩ := hstep
          obtain ⟨hcount, hall⟩ := ih is' hin' (hlen'.trans hlen) (by omega)
          refine ⟨?_, ?_⟩
          · rw [List.length_cons, hcount]
            omega
          · intro k v hv
            cases k with
            | zero =>
                obtain rfl : is = v := Option.some.inj hv
                exact ⟨hin, hlen, rfl⟩
            | succ k =>
                obtain ⟨h1, h2, h3⟩ := hall k v hv
                exact ⟨h1, h2, by omega⟩

theorem inRange_replicate {indexRange degree : Nat} (h : 0 < indexRange) :
    InRange indexRange (List.replicate degree 0) := by
  intro i hi
  rw [(List.mem_replicate.mp hi).2]
  exact h

theorem indicesValue_replicate (indexRange degree : Nat) :
    indicesValue indexRange (List.replicate degree 0) = 0 := by
  induction degree with
  | zero => rfl
  | succ degree ih =>
      show 0 + indexRange * indicesValue indexRange (List.replicate degree 0) = 0
      rw [ih]
      omega

section

variable {α : Type} {indexRange : List α}

/-- The indices behind a vector of values. -/
theorem filterMap_getElem {is : List Nat} (h : InRange indexRange.length is) :
    (is.filterMap (indexRange[·]?)).length = is.length
      ∧ ∀ j : Nat, (is.filterMap (indexRange[·]?))[j]? = is[j]?.bind (indexRange[·]?) := by
  induction is with
  | nil => simp
  | cons i is ih =>
      have hi := h i List.mem_cons_self
      obtain ⟨hlen, hget⟩ := ih (fun j hj => h j (List.mem_cons_of_mem i hj))
      rw [List.filterMap_cons_some (List.getElem?_eq_getElem hi)]
      refine ⟨?_, ?_⟩
      · rw [List.length_cons, List.length_cons, hlen]
      · intro j
        cases j with
        | zero => simp [hi]
        | succ j => simpa using hget j

theorem length_forPower (degree : Nat) (h : 0 < indexRange.length) :
    (forPower degree indexRange).length = indexRange.length ^ degree := by
  unfold forPower
  rw [List.length_map, (getElem_indicesFrom _ _ (inRange_replicate h) List.length_replicate
    (by rw [indicesValue_replicate]; omega)).1, indicesValue_replicate]
  omega

/-- **The `k`th vector is that of the indices that count `k`.** -/
theorem getElem_forPower {degree k : Nat} {v : List α} (h : 0 < indexRange.length)
    (hv : (forPower degree indexRange)[k]? = some v) :
    ∃ is, InRange indexRange.length is ∧ is.length = degree
      ∧ indicesValue indexRange.length is = k ∧ is.filterMap (indexRange[·]?) = v := by
  unfold forPower at hv
  rw [List.getElem?_map] at hv
  obtain ⟨is, his, hmap⟩ := Option.map_eq_some_iff.mp hv
  obtain ⟨hin, hlen, hval⟩ := (getElem_indicesFrom _ _ (inRange_replicate h)
    List.length_replicate (by rw [indicesValue_replicate]; omega)).2 k is his
  rw [indicesValue_replicate, Nat.zero_add] at hval
  exact ⟨is, hin, hlen, hval, hmap⟩

/-- **Every vector over the range is visited.** -/
theorem mem_forPower [DecidableEq α] {degree : Nat} {v : List α} (h : 0 < indexRange.length) :
    v ∈ forPower degree indexRange ↔ v.length = degree ∧ ∀ x ∈ v, x ∈ indexRange := by
  constructor
  · intro hv
    obtain ⟨k, hk⟩ := List.getElem?_of_mem hv
    obtain ⟨is, hin, hlen, _, hmap⟩ := getElem_forPower h hk
    rw [← hmap]
    refine ⟨(filterMap_getElem hin).1.trans hlen, ?_⟩
    intro x hx
    obtain ⟨i, _, hi⟩ := List.mem_filterMap.mp hx
    exact List.mem_of_getElem? hi
  · intro hv
    obtain ⟨hlen, hmem⟩ := hv
    -- the vector of its places in the range counts some number
    have hplace : ∀ x ∈ v, indexRange.idxOf x < indexRange.length :=
      fun x hx => List.idxOf_lt_length_iff.mpr (hmem x hx)
    have hin : InRange indexRange.length (v.map indexRange.idxOf) := by
      intro i hi
      obtain ⟨x, hx, rfl⟩ := List.mem_map.mp hi
      exact hplace x hx
    have hmap : (v.map indexRange.idxOf).filterMap (indexRange[·]?) = v := by
      rw [List.filterMap_map]
      have hcongr : ∀ x ∈ v, ((indexRange[·]?) ∘ indexRange.idxOf) x = some x := by
        intro x hx
        show indexRange[indexRange.idxOf x]? = some x
        rw [List.getElem?_eq_getElem (hplace x hx), List.getElem_idxOf]
      rw [List.filterMap_congr hcongr, List.filterMap_some]
    have hval := indicesValue_lt hin
    rw [List.length_map, hlen] at hval
    have hk : indicesValue indexRange.length (v.map indexRange.idxOf)
        < (forPower degree indexRange).length := by
      rw [length_forPower degree h]
      exact hval
    obtain ⟨is, hin', hlen', hval', hmap'⟩ :=
      getElem_forPower h (List.getElem?_eq_getElem hk)
    have heq := indicesValue_injective _ hin' hin
      (by rw [hlen', List.length_map, hlen]) hval'
    rw [heq, hmap] at hmap'
    rw [hmap']
    exact List.getElem_mem hk

end

/-! ## §3. Over `bool`. -/

/-- `index_range_bool`. -/
def indexRangeBool : List Bool := [false, true]

/-- The number that a vector of `bool` counts: bit `j` is index `j`. -/
def bitsValue : List Bool → Nat
  | [] => 0
  | b :: bs => b.toNat + 2 * bitsValue bs

theorem mem_forPower_bool {degree : Nat} {v : List Bool} :
    v ∈ forPower degree indexRangeBool ↔ v.length = degree := by
  rw [mem_forPower (by decide)]
  constructor
  · exact fun h => h.1
  · intro h
    refine ⟨h, ?_⟩
    intro x _
    cases x <;> decide

theorem length_forPower_bool (degree : Nat) :
    (forPower degree indexRangeBool).length = 2 ^ degree :=
  length_forPower degree (by decide)

theorem indicesValue_bool {is : List Nat} (h : InRange 2 is) :
    indicesValue 2 is = bitsValue (is.filterMap (indexRangeBool[·]?)) := by
  induction is with
  | nil => rfl
  | cons i is ih =>
      have ih := ih (fun j hj => h j (List.mem_cons_of_mem i hj))
      have hi := h i List.mem_cons_self
      match i, hi with
      | 0, _ =>
          show 0 + 2 * indicesValue 2 is = 0 + 2 * bitsValue _
          rw [ih]
      | 1, _ =>
          show 1 + 2 * indicesValue 2 is = 1 + 2 * bitsValue _
          rw [ih]

/-- **The `k`th vector of `bool` has the bits of `k`.** -/
theorem getElem_forPower_bool {degree k : Nat} {v : List Bool}
    (hv : (forPower degree indexRangeBool)[k]? = some v) : v.length = degree ∧ bitsValue v = k := by
  obtain ⟨is, hin, hlen, hval, hmap⟩ := getElem_forPower (by decide) hv
  refine ⟨mem_forPower_bool.mp (List.mem_of_getElem? hv), ?_⟩
  rw [← hmap, ← indicesValue_bool hin]
  exact hval

theorem bitsValue_lt (v : List Bool) : bitsValue v < 2 ^ v.length := by
  induction v with
  | nil => exact Nat.one_pos
  | cons b v ih =>
      rw [List.length_cons, Nat.pow_succ]
      unfold bitsValue
      cases b <;> simp <;> omega

theorem bitsValue_injective {v : List Bool} : ∀ w : List Bool, v.length = w.length →
    bitsValue v = bitsValue w → v = w := by
  induction v with
  | nil =>
      intro w hlen _
      exact (List.length_eq_zero_iff.mp hlen.symm).symm
  | cons b v ih =>
      intro w hlen hval
      cases w with
      | nil => exact absurd hlen (by simp)
      | cons c w =>
          unfold bitsValue at hval
          have hbc : b = c := by
            cases b <;> cases c <;> simp at hval <;> first | rfl | omega
          subst hbc
          rw [ih w (Nat.succ.inj hlen) (by omega)]

/-- The vector that counts a number is at that place. -/
theorem forPower_bool_bitsValue (v : List Bool) :
    (forPower v.length indexRangeBool)[bitsValue v]? = some v := by
  have hk : bitsValue v < (forPower v.length indexRangeBool).length := by
    rw [length_forPower_bool]
    exact bitsValue_lt v
  rw [List.getElem?_eq_getElem hk]
  have hspec := getElem_forPower_bool (List.getElem?_eq_getElem hk)
  rw [bitsValue_injective v hspec.1 hspec.2]

theorem bitsValue_append (v w : List Bool) :
    bitsValue (v ++ w) = bitsValue v + 2 ^ v.length * bitsValue w := by
  induction v with
  | nil => simp [bitsValue]
  | cons b v ih =>
      show b.toNat + 2 * bitsValue (v ++ w)
        = b.toNat + 2 * bitsValue v + 2 ^ (v.length + 1) * bitsValue w
      rw [ih, Nat.pow_succ]
      ring

end Inferno.Common
