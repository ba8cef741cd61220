/-
  Inferno.Lib.IncreasingSubsequence
  ─────────────────────────────────
  A longest increasing subsequence by binary search over the ends of shorter ones.

    • `Search`    — the predecessor of each element, and the end of a subsequence of
                    each length found so far,
    • `step`      — one element: a binary search for the length it extends,
    • `maximalIncreasingSubsequence` — the loop, and the walk back from the longest end,
    • `Inv`       — the ends recorded are the least there are, by length,
    • `maximalIncreasingSubsequence_spec` — it returns, within the bounds of its arrays,
                    the last elements of a longest increasing subsequence: all of them,
                    when the walk back takes a turn for each.
-/
import Mathlib

namespace Inferno.Lib.IncreasingSubsequence

variable {K : Type} [LinearOrder K]

/-! ## §1. The algorithm. -/

/-- `v[i] = x`; `none` outside the array. -/
def store (v : List Nat) (i x : Nat) : Option (List Nat) :=
  if i < v.length then some (v.set i x) else none

/-- `P`, the predecessors; `M`, the ends by length; `L`, the longest length. -/
structure Search where
  P : List Nat
  M : List Nat
  L : Nat

/-- The binary search for the smallest length in `[lo, hi)` whose end is at least `x`. -/
def binarySearch (X : List K) (M : List Nat) (x : K) : Nat → Nat → Nat → Option Nat
  | 0, _, _ => none
  | fuel + 1, lo, hi =>
      if lo < hi then do
        let mid := lo + (hi - lo) / 2
        let k ← M[mid]?
        let y ← X[k]?
        if x ≤ y then binarySearch X M x fuel lo mid else binarySearch X M x fuel (mid + 1) hi
      else some lo

/-- One turn of the loop over the elements. -/
def step (X : List K) (s : Search) (i : Nat) : Option Search := do
  let x ← X[i]?
  let newL ← binarySearch X s.M x (s.L + 1) 1 (s.L + 1)
  let predecessor ← s.M[newL - 1]?
  let P ← store s.P i predecessor
  let M ← store s.M newL i
  some ⟨P, M, if s.L < newL then newL else s.L⟩

/-- The walk back over the predecessors, last element first. -/
def walkBack (X : List K) (P : List Nat) : Nat → Nat → Option (List K)
  | 0, _ => some []
  | n + 1, k => do
      let x ← X[k]?
      let k ← P[k]?
      let rest ← walkBack X P n k
      some (x :: rest)

/-- The arrays before the loop; `noIndex` is never used as an index. -/
def Search.start (n noIndex : Nat) : Search :=
  ⟨List.replicate n 0, noIndex :: List.replicate n 0, 0⟩

/-- The elements of a longest increasing subsequence, last first.  `turns` is how many
turns the walk back takes for a length. -/
def maximalIncreasingSubsequence (turns : Nat → Nat) (noIndex : Nat) (X : List K) :
    Option (List K) := do
  let s ← (List.range X.length).foldlM (step X) (.start X.length noIndex)
  let k ← s.M[s.L]?
  walkBack X s.P (turns s.L) k

/-! ## §2. Chains of predecessors. -/

/-- The predecessors from `k` are an increasing subsequence of length `n`. -/
inductive Chain (X : List K) (P : List Nat) : Nat → Nat → Prop where
  | one {k : Nat} {x : K} (hx : X[k]? = some x) (hk : k < P.length) : Chain X P 1 k
  | more {n k k' : Nat} {x x' : K} (hx : X[k]? = some x) (hk : P[k]? = some k') (hlt : k' < k)
      (hx' : X[k']? = some x') (hxx : x' < x) (h : Chain X P n k') : Chain X P (n + 1) k

variable {X : List K} {P P' : List Nat} {n k i : Nat}

theorem Chain.exists_get (h : Chain X P n k) : ∃ x, X[k]? = some x := by
  cases h with
  | one hx _ => exact ⟨_, hx⟩
  | more hx _ _ _ _ _ => exact ⟨_, hx⟩

/-- A chain reads the predecessors of its own elements only. -/
theorem Chain.congr (h : Chain X P n k) (hlen : P'.length = P.length)
    (heq : ∀ j ≤ k, P'[j]? = P[j]?) : Chain X P' n k := by
  induction h with
  | one hx hk => exact .one hx (hlen ▸ hk)
  | @more n k k' _ _ hx hk hlt hx' hxx _ ih =>
      have hk' : P'[k]? = some k' := (heq k (le_refl k)).trans hk
      exact .more hx hk' hlt hx' hxx (ih fun j hj => heq j (hj.trans hlt.le))

/-- **The walk back over a chain** gives its elements, the greatest first. -/
theorem Chain.walkBack (h : Chain X P n k) : ∃ x rest, X[k]? = some x
    ∧ walkBack X P n k = some (x :: rest) ∧ (x :: rest).length = n
    ∧ (x :: rest).Pairwise (· > ·) ∧ (x :: rest).reverse.Sublist (X.take (k + 1)) := by
  induction h with
  | @one k x hx hk =>
      refine ⟨x, [], hx, ?_, rfl, List.pairwise_singleton _ _, ?_⟩
      · simp [IncreasingSubsequence.walkBack, hx, hk]
      · exact List.singleton_sublist.mpr (List.mem_of_getElem? (by
          rw [List.getElem?_take_of_lt (Nat.lt_succ_self k), hx]))
  | @more n k k' x x' hx hk hlt hx' hxx _ ih =>
      obtain ⟨y, rest, hy, hwalk, hlen, hsorted, hsub⟩ := ih
      obtain rfl := Option.some.inj (hy.symm.trans hx')
      refine ⟨x, y :: rest, hx, ?_, by rw [List.length_cons, hlen], ?_, ?_⟩
      · simp [IncreasingSubsequence.walkBack, hx, hk, hwalk]
      · refine List.pairwise_cons.mpr ⟨?_, hsorted⟩
        intro z hz
        rcases List.mem_cons.mp hz with rfl | hz
        · exact hxx
        · exact lt_trans ((List.pairwise_cons.mp hsorted).1 z hz) hxx
      · -- the rest is among the elements before `x`
        rw [List.reverse_cons, List.take_add_one, hx]
        exact (hsub.trans (List.take_sublist_take_left hlt)).append (List.Sublist.refl _)

omit [LinearOrder K] in
/-- A walk back of fewer turns gives the first of the elements. -/
theorem walkBack_take (n : Nat) : ∀ {m k : Nat} {out : List K}, m ≤ n →
    walkBack X P n k = some out → walkBack X P m k = some (out.take m) := by
  induction n with
  | zero =>
      intro m k out hm _
      obtain rfl := Nat.le_zero.mp hm
      rfl
  | succ n ih =>
      intro m k out hm h
      cases m with
      | zero => rfl
      | succ m =>
          unfold walkBack at h ⊢
          cases hx : X[k]? with
          | none => simp [hx] at h
          | some x =>
              cases hk : P[k]? with
              | none => simp [hx, hk] at h
              | some k' =>
                  cases hrest : walkBack X P n k' with
                  | none => simp [hx, hk, hrest] at h
                  | some rest =>
                      have hout : x :: rest = out := by
                        simpa [hx, hk, hrest] using h
                      subst hout
                      simp [ih (Nat.le_of_succ_le_succ hm) hrest]

/-! ## §3. The loop. -/

/-- The element at the end recorded for a length. -/
def EndsAt (X : List K) (M : List Nat) (l : Nat) (y : K) : Prop :=
  ∃ k, M[l]? = some k ∧ X[k]? = some y

omit [LinearOrder K] in
theorem EndsAt.unique {M : List Nat} {l : Nat} {y y' : K} (h : EndsAt X M l y)
    (h' : EndsAt X M l y') : y = y' := by
  obtain ⟨k, hk, hy⟩ := h
  obtain ⟨k', hk', hy'⟩ := h'
  obtain rfl := Option.some.inj (hk.symm.trans hk')
  exact Option.some.inj (hy.symm.trans hy')

/-- **The invariant**: the ends recorded are those of chains, among the elements met; and
no increasing subsequence of the elements met ends before the end recorded for its length. -/
structure Inv (X : List K) (n : Nat) (s : Search) : Prop where
  lenP : s.P.length = X.length
  lenM : s.M.length = X.length + 1
  le : s.L ≤ n
  chain : ∀ l, 1 ≤ l → l ≤ s.L → ∃ k, s.M[l]? = some k ∧ k < n ∧ Chain X s.P l k
  least : ∀ (front : List K) (y : K), (front ++ [y]).Sublist (X.take n) →
    (front ++ [y]).Pairwise (· < ·) →
    front.length + 1 ≤ s.L ∧ ∃ e, EndsAt X s.M (front.length + 1) e ∧ e ≤ y

theorem inv_start (X : List K) (noIndex : Nat) : Inv X 0 (.start X.length noIndex) where
  lenP := List.length_replicate
  lenM := by simp [Search.start]
  le := le_refl 0
  chain := by
    intro l h₁ h₂
    exact absurd (h₁.trans h₂) (by simp [Search.start])
  least := by
    intro front y hsub _
    rw [List.take_zero, List.sublist_nil] at hsub
    exact absurd hsub (by simp)

variable {s : Search}

theorem Inv.exists_end (h : Inv X n s) {l : Nat} (hl : 1 ≤ l) (hlL : l ≤ s.L) :
    ∃ y, EndsAt X s.M l y := by
  obtain ⟨k, hk, _, hchain⟩ := h.chain l hl hlL
  obtain ⟨y, hy⟩ := hchain.exists_get
  exact ⟨y, k, hk, hy⟩

/-- The end of a longer subsequence is greater: without its last element it is one of the
shorter ones. -/
theorem Inv.end_lt (h : Inv X n s) {l : Nat} {y y' : K} (hl : 1 ≤ l) (hlL : l + 1 ≤ s.L)
    (hy : EndsAt X s.M l y) (hy' : EndsAt X s.M (l + 1) y') : y < y' := by
  obtain ⟨k, hk, hkn, hchain⟩ := h.chain (l + 1) (Nat.le_add_left 1 l) hlL
  obtain ⟨k₁, hk₁, hy'⟩ := hy'
  obtain rfl := Option.some.inj (hk.symm.trans hk₁)
  cases hchain with
  | one => exact absurd hl (by omega)
  | more hx _ hlt hx' hxx hshort =>
      obtain rfl := Option.some.inj (hx.symm.trans hy')
      obtain ⟨x₁, rest, hx₁, _, hlen, hsorted, hsub⟩ := hshort.walkBack
      obtain rfl := Option.some.inj (hx₁.symm.trans hx')
      rw [List.reverse_cons] at hsub
      have hincreasing : (rest.reverse ++ [x₁]).Pairwise (· < ·) := by
        rw [← List.reverse_cons]
        exact List.pairwise_reverse.mpr hsorted
      have htake := hsub.trans (List.take_sublist_take_left (l := X) (by omega : _ ≤ n))
      obtain ⟨_, e, he, hle⟩ := h.least rest.reverse x₁ htake hincreasing
      rw [List.length_reverse, ← List.length_cons (a := x₁), hlen] at he
      exact lt_of_le_of_lt ((hy.unique he).trans_le hle) hxx

theorem Inv.end_le (h : Inv X n s) {l l' : Nat} {y y' : K} (hl : 1 ≤ l) (hll : l ≤ l')
    (hlL : l' ≤ s.L) (hy : EndsAt X s.M l y) (hy' : EndsAt X s.M l' y') : y ≤ y' := by
  induction hll generalizing y' with
  | refl => exact (hy.unique hy').le
  | @step m hlm ih =>
      have hlm : l ≤ m := hlm
      obtain ⟨z, hz⟩ := h.exists_end (hl.trans hlm) (Nat.le_of_succ_le hlL)
      exact (ih (Nat.le_of_succ_le hlL) hz).trans (h.end_lt (hl.trans hlm) hlL hz hy').le

/-- The end recorded for the length below `l` is less than `x`. -/
def EndBelow (X : List K) (M : List Nat) (x : K) (l : Nat) : Prop :=
  l = 1 ∨ ∃ y, EndsAt X M (l - 1) y ∧ y < x

/-- The end recorded for the length `l`, if any, is at least `x`. -/
def EndAbove (X : List K) (s : Search) (x : K) (l : Nat) : Prop :=
  l = s.L + 1 ∨ ∃ y, EndsAt X s.M l y ∧ x ≤ y

/-- **The binary search** keeps that the end below its lower bound is less than `x`, and the
end at its upper bound is not. -/
theorem binarySearch_spec (h : Inv X n s) (x : K) (fuel : Nat) :
    ∀ {lo hi : Nat}, 1 ≤ lo → lo ≤ hi → hi ≤ s.L + 1 → hi - lo < fuel →
      EndBelow X s.M x lo → EndAbove X s x hi →
      ∃ l, binarySearch X s.M x fuel lo hi = some l ∧ lo ≤ l ∧ l ≤ hi ∧ EndBelow X s.M x l
        ∧ EndAbove X s x l := by
  induction fuel with
  | zero =>
      intro lo hi _ _ _ hfuel
      omega
  | succ fuel ih =>
      intro lo hi hlo hle hhi hfuel hbelow habove
      unfold binarySearch
      by_cases hlt : lo < hi
      · rw [if_pos hlt]
        -- the end in the middle is compared, and one half is left
        have hmid : lo ≤ lo + (hi - lo) / 2 ∧ lo + (hi - lo) / 2 < hi := by omega
        obtain ⟨y, hy⟩ := h.exists_end (l := lo + (hi - lo) / 2) (by omega) (by omega)
        have hend := hy
        obtain ⟨k, hk, hxk⟩ := hy
        simp only [hk, hxk, Option.bind_eq_bind, Option.bind_some]
        by_cases hxy : x ≤ y
        · rw [if_pos hxy]
          obtain ⟨l, hl, hlol, hlhi, hends⟩ :=
            ih hlo hmid.1 (by omega) (by omega) hbelow (.inr ⟨y, hend, hxy⟩)
          exact ⟨l, hl, hlol, by omega, hends⟩
        · rw [if_neg hxy]
          have hbelow' : EndBelow X s.M x (lo + (hi - lo) / 2 + 1) :=
            .inr ⟨y, hend, not_le.mp hxy⟩
          obtain ⟨l, hl, hlol, hlhi, hends⟩ :=
            ih (by omega) (by omega) hhi (by omega) hbelow' habove
          exact ⟨l, hl, by omega, hlhi, hends⟩
      · rw [if_neg hlt]
        obtain rfl : lo = hi := by omega
        exact ⟨lo, rfl, le_refl lo, le_refl lo, hbelow, habove⟩

/-! ## §4. One element more. -/

/-- A longest subsequence that `x` ends, among the elements met and `x`, has the length the
search found. -/
theorem Inv.length_le_of_search (h : Inv X n s) {x : K} {l : Nat} (hl : 1 ≤ l)
    (hlL : l ≤ s.L + 1) (habove : EndAbove X s x l) {front : List K}
    (hsub : front.Sublist (X.take n)) (hsorted : (front ++ [x]).Pairwise (· < ·)) :
    front.length + 1 ≤ l := by
  by_cases hnil : front = []
  · rw [hnil]
    exact hl
  · obtain ⟨shorter, z, rfl⟩ : ∃ shorter z, front = shorter ++ [z] :=
      ⟨_, _, (List.dropLast_append_getLast hnil).symm⟩
    obtain ⟨hfront, hlast, hlt⟩ := List.pairwise_append.mp hsorted
    obtain ⟨hlen, e, he, hez⟩ := h.least shorter z hsub hfront
    have hzx : z < x := hlt z (by simp) x (List.mem_singleton_self x)
    rw [List.length_append, List.length_singleton]
    by_contra hlong
    rcases habove with rfl | ⟨y, hy, hxy⟩
    · omega
    · -- the end for the length found would be below `x`
      have hye := h.end_le hl (by omega) hlen hy he
      exact absurd (hxy.trans (hye.trans hez)) (not_le.mpr hzx)

/-- The ends recorded stay the least, with `x` recorded for the length the search found. -/
theorem Inv.least_step (h : Inv X n s) {x : K} (hx : X[n]? = some x) {l : Nat} (hl : 1 ≤ l)
    (hlL : l ≤ s.L + 1) (hlM : l < s.M.length) (hbelow : EndBelow X s.M x l)
    (habove : EndAbove X s x l) {front : List K} {y : K}
    (hsub : (front ++ [y]).Sublist (X.take (n + 1)))
    (hsorted : (front ++ [y]).Pairwise (· < ·)) :
    front.length + 1 ≤ max s.L l
      ∧ ∃ e, EndsAt X (s.M.set l n) (front.length + 1) e ∧ e ≤ y := by
  have hat : EndsAt X (s.M.set l n) l x := ⟨n, List.getElem?_set_self hlM, hx⟩
  have hkeep : ∀ {m : Nat} {e : K}, m ≠ l → EndsAt X s.M m e → EndsAt X (s.M.set l n) m e := by
    rintro m e hm ⟨k, hk, he⟩
    exact ⟨k, by rw [List.getElem?_set_ne (Ne.symm hm), hk], he⟩
  rw [List.take_add_one, hx, List.sublist_append_iff] at hsub
  obtain ⟨old, new, hsplit, hold, hnew⟩ := hsub
  rcases List.sublist_singleton.mp hnew with rfl | rfl
  · -- a subsequence of the elements met before
    rw [List.append_nil] at hsplit
    subst hsplit
    obtain ⟨hlen, e, he, hey⟩ := h.least front y hold hsorted
    refine ⟨hlen.trans (le_max_left _ _), ?_⟩
    by_cases hml : front.length + 1 = l
    · rw [hml] at he ⊢
      refine ⟨x, hat, ?_⟩
      rcases habove with rfl | ⟨y', hy', hxy⟩
      · omega
      · exact (hxy.trans (hy'.unique he).le).trans hey
    · exact ⟨e, hkeep hml he, hey⟩
  · -- or the element ends it
    obtain ⟨rfl, heq⟩ := List.append_inj' hsplit rfl
    obtain rfl : y = x := List.head_eq_of_cons_eq heq
    have hlen := h.length_le_of_search hl hlL habove hold hsorted
    refine ⟨hlen.trans (le_max_right _ _), ?_⟩
    by_cases hml : front.length + 1 = l
    · exact ⟨y, hml ▸ hat, le_refl y⟩
    · rcases hbelow with rfl | ⟨z, hz, hzy⟩
      · omega
      · obtain ⟨e, he⟩ := h.exists_end (l := front.length + 1) (by omega) (by omega)
        refine ⟨e, hkeep hml he, ?_⟩
        exact (h.end_le (by omega) (by omega) (by omega) he hz).trans hzy.le

/-- **One turn** keeps the invariant, and stays within the arrays. -/
theorem step_spec (h : Inv X n s) (hn : n < X.length) :
    ∃ s', step X s n = some s' ∧ Inv X (n + 1) s' := by
  obtain ⟨x, hx⟩ : ∃ x, X[n]? = some x := ⟨_, List.getElem?_eq_getElem hn⟩
  obtain ⟨l, hsearch, hl, hlL, hbelow, habove⟩ := binarySearch_spec h x (s.L + 1) (le_refl 1)
    (Nat.le_add_left 1 s.L) (le_refl _) (by omega) (.inl rfl) (.inl rfl)
  have hle := h.le
  -- the place found is within the arrays
  have hpred : ∃ predecessor, s.M[l - 1]? = some predecessor :=
    ⟨_, List.getElem?_eq_getElem (by rw [h.lenM]; omega)⟩
  obtain ⟨predecessor, hpred⟩ := hpred
  have hP : n < s.P.length := h.lenP ▸ hn
  have hM : l < s.M.length := by rw [h.lenM]; omega
  refine ⟨_, by
    unfold step store
    simp only [hx, hsearch, hpred, if_pos hP, if_pos hM, Option.bind_eq_bind, Option.bind_some]
    rfl, ?_⟩
  -- the predecessors of the elements met stay as they are
  have hkeep : ∀ j < n, (s.P.set n predecessor)[j]? = s.P[j]? := by
    intro j hj
    exact List.getElem?_set_ne hj.ne'
  -- the element ends a subsequence of the length found, after the predecessor of one shorter
  have hnew : Chain X (s.P.set n predecessor) l n := by
    by_cases hl1 : l = 1
    · subst hl1
      exact .one hx (by rwa [List.length_set])
    · rcases hbelow with rfl | ⟨y, ⟨k, hk, hy⟩, hyx⟩
      · exact absurd rfl hl1
      · obtain ⟨k', hk', hkn, hchain⟩ := h.chain (l - 1) (by omega) (by omega)
        obtain rfl := Option.some.inj (hk.symm.trans hk')
        obtain rfl := Option.some.inj (hk.symm.trans hpred)
        obtain ⟨m, rfl⟩ : ∃ m, l = m + 1 := ⟨l - 1, by omega⟩
        refine .more hx (List.getElem?_set_self hP) hkn hy hyx ?_
        exact hchain.congr List.length_set fun j hj => hkeep j (by omega)
  have hmax : (if s.L < l then l else s.L) = max s.L l := by
    split <;> omega
  rw [hmax]
  refine ⟨by rw [List.length_set, h.lenP], by rw [List.length_set, h.lenM], ?_, ?_, ?_⟩
  · show max s.L l ≤ n + 1
    omega
  · -- the other lengths have the ends they had
    intro m hm hmL
    by_cases hml : m = l
    · subst hml
      exact ⟨n, List.getElem?_set_self hM, Nat.lt_succ_self n, hnew⟩
    · have hmL' : m ≤ s.L := by
        have hmL : m ≤ max s.L l := hmL
        omega
      obtain ⟨k, hk, hkn, hchain⟩ := h.chain m hm hmL'
      refine ⟨k, ?_, hkn.trans (Nat.lt_succ_self n), ?_⟩
      · rw [List.getElem?_set_ne (Ne.symm hml), hk]
      · exact hchain.congr List.length_set fun j hj => hkeep j (by omega)
  · intro front y hsub hsorted
    exact h.least_step hx hl hlL hM hbelow habove hsub hsorted

/-- **The whole loop.** -/
theorem loop_spec (X : List K) (noIndex : Nat) : ∀ n ≤ X.length, ∃ s,
    (List.range n).foldlM (step X) (.start X.length noIndex) = some s ∧ Inv X n s := by
  intro n
  induction n with
  | zero =>
      intro _
      exact ⟨_, rfl, inv_start X noIndex⟩
  | succ n ih =>
      intro hn
      obtain ⟨s, hs, hinv⟩ := ih (Nat.le_of_succ_le hn)
      obtain ⟨s', hs', hinv'⟩ := step_spec hinv hn
      refine ⟨s', ?_, hinv'⟩
      rw [List.range_succ, List.foldlM_append, hs]
      simp [hs']

/-! ## §5. The result. -/

/-- The increasing subsequences. -/
def Increasing (X part : List K) : Prop :=
  part.Sublist X ∧ part.Pairwise (· < ·)

/-- No increasing subsequence is longer than the longest length found. -/
theorem Inv.length_le (h : Inv X X.length s) {part : List K} (hpart : Increasing X part) :
    part.length ≤ s.L := by
  by_cases hnil : part = []
  · rw [hnil]
    exact Nat.zero_le _
  · obtain ⟨front, y, rfl⟩ : ∃ front y, part = front ++ [y] :=
      ⟨_, _, (List.dropLast_append_getLast hnil).symm⟩
    rw [List.length_append]
    exact (h.least front y (List.take_length ▸ hpart.1) hpart.2).1

/-- **The algorithm returns the last elements of a longest increasing subsequence**, last
element first: as many as the walk back takes turns. -/
theorem maximalIncreasingSubsequence_spec (turns : Nat → Nat) (hturns : ∀ L, turns L ≤ L)
    (noIndex : Nat) (X : List K) : ∃ out longest,
    maximalIncreasingSubsequence turns noIndex X = some out ∧ Increasing X longest
      ∧ (∀ part, Increasing X part → part.length ≤ longest.length)
      ∧ out = longest.reverse.take (turns longest.length) := by
  obtain ⟨s, hs, hinv⟩ := loop_spec X noIndex X.length (le_refl _)
  unfold maximalIncreasingSubsequence
  by_cases hL : s.L = 0
  · -- no element: the walk back takes no step
    have hM : 0 < s.M.length := by rw [hinv.lenM]; omega
    have hturn : turns 0 = 0 := Nat.le_zero.mp (hturns 0)
    refine ⟨[], [], ?_, ⟨List.nil_sublist X, List.Pairwise.nil⟩, ?_, by simp⟩
    · simp [hs, hL, hturn, List.getElem?_eq_getElem hM, walkBack]
    · intro part hpart
      rw [List.length_nil, ← hL]
      exact hinv.length_le hpart
  · obtain ⟨k, hk, _, hchain⟩ := hinv.chain s.L (by omega) (le_refl _)
    obtain ⟨x, rest, _, hwalk, hlen, hsorted, hsub⟩ := hchain.walkBack
    refine ⟨(x :: rest).take (turns s.L), (x :: rest).reverse, ?_, ⟨?_, ?_⟩, ?_, ?_⟩
    · simp [hs, hk, walkBack_take s.L (hturns s.L) hwalk]
    · exact hsub.trans (List.take_sublist _ _)
    · exact List.pairwise_reverse.mpr hsorted
    · intro part hpart
      rw [List.length_reverse, hlen]
      exact hinv.length_le hpart
    · rw [List.reverse_reverse, List.length_reverse, hlen]

end Inferno.Lib.IncreasingSubsequence
