/-
  Inferno.Lib.Comparator
  ──────────────────────
  Three-way comparisons with an integer answer, on a set of values.

    • `thenBy`          — `if( d ) return d; return e;`,
    • `Orders`          — the sign turns with the operands, and "not above" is transitive,
    • `Orders.lex`      — a second comparison inside the classes of a first,
    • `listCompare`     — sizes, then the first difference,
    • `multisetOf`      — the order in which a multiset of a comparison is walked,
    • `multisetCompare` — sizes, then the walks, compared lexicographically,
    • `mem_drop_take_findIdx` — a range of a sorted list.
-/
import Mathlib

namespace Inferno.Lib

variable {X Y : Type*}

/-! ## §1. One difference after another. -/

/-- The first difference if there is one, else the second. -/
def thenBy (d e : Int) : Int := if d ≠ 0 then d else e

@[simp] theorem thenBy_zero (e : Int) : thenBy 0 e = e := rfl

theorem thenBy_of_ne {d : Int} (h : d ≠ 0) (e : Int) : thenBy d e = d := if_pos h

@[simp] theorem thenBy_eq_zero {d e : Int} : thenBy d e = 0 ↔ d = 0 ∧ e = 0 := by
  unfold thenBy
  split <;> omega

theorem thenBy_neg {d e : Int} : thenBy d e < 0 ↔ d < 0 ∨ (d = 0 ∧ e < 0) := by
  unfold thenBy
  split <;> omega

theorem thenBy_pos {d e : Int} : 0 < thenBy d e ↔ 0 < d ∨ (d = 0 ∧ 0 < e) := by
  unfold thenBy
  split <;> omega

theorem thenBy_nonpos {d e : Int} : thenBy d e ≤ 0 ↔ d < 0 ∨ (d = 0 ∧ e ≤ 0) := by
  unfold thenBy
  split <;> omega

/-! ## §2. Orders. -/

/-- **`cmp` orders `S`**: it is a total preorder there, equivalence being zero. -/
structure Orders (S : Set X) (cmp : X → X → Int) : Prop where
  swap : ∀ x ∈ S, ∀ y ∈ S, (cmp x y < 0 ↔ 0 < cmp y x)
  trans : ∀ x ∈ S, ∀ y ∈ S, ∀ z ∈ S, cmp x y ≤ 0 → cmp y z ≤ 0 → cmp x z ≤ 0

namespace Orders

variable {S T : Set X} {cmp cmp' : X → X → Int}

theorem mono (h : Orders S cmp) (hTS : T ⊆ S) : Orders T cmp where
  swap x hx y hy := h.swap x (hTS hx) y (hTS hy)
  trans x hx y hy z hz := h.trans x (hTS hx) y (hTS hy) z (hTS hz)

theorem comap (h : Orders S cmp) (f : Y → X) :
    Orders (Set.preimage f S) (fun x y => cmp (f x) (f y)) where
  swap x hx y hy := h.swap (f x) hx (f y) hy
  trans x hx y hy z hz := h.trans (f x) hx (f y) hy (f z) hz

theorem congr (h : Orders S cmp) (heq : ∀ x ∈ S, ∀ y ∈ S, cmp' x y = cmp x y) :
    Orders S cmp' where
  swap x hx y hy := by
    rw [heq x hx y hy, heq y hy x hx]
    exact h.swap x hx y hy
  trans x hx y hy z hz := by
    rw [heq x hx y hy, heq y hy z hz, heq x hx z hz]
    exact h.trans x hx y hy z hz

variable (h : Orders S cmp)

include h

theorem refl {x : X} (hx : x ∈ S) : cmp x x = 0 := by
  have hswap := h.swap x hx x hx
  omega

theorem zero_symm {x y : X} (hx : x ∈ S) (hy : y ∈ S) (hxy : cmp x y = 0) : cmp y x = 0 := by
  have h1 := h.swap x hx y hy
  have h2 := h.swap y hy x hx
  omega

theorem zero_trans {x y z : X} (hx : x ∈ S) (hy : y ∈ S) (hz : z ∈ S) (hxy : cmp x y = 0)
    (hyz : cmp y z = 0) : cmp x z = 0 := by
  have h1 := h.trans x hx y hy z hz (by omega) (by omega)
  have hyx := h.zero_symm hx hy hxy
  have hzy := h.zero_symm hy hz hyz
  have h2 := h.trans z hz y hy x hx (by omega) (by omega)
  have h3 := h.swap z hz x hx
  have h4 := h.swap x hx z hz
  omega

theorem neg_trans {x y z : X} (hx : x ∈ S) (hy : y ∈ S) (hz : z ∈ S) (hxy : cmp x y < 0)
    (hyz : cmp y z ≤ 0) : cmp x z < 0 := by
  have h1 := h.trans x hx y hy z hz (by omega) hyz
  by_contra hxz
  -- `x` and `z` are equivalent, so `y` is not above `x`
  have hzx := h.zero_symm hx hz (by omega)
  have h2 := h.trans y hy z hz x hx hyz (by omega)
  have h3 := (h.swap x hx y hy).mp hxy
  omega

theorem trans_neg {x y z : X} (hx : x ∈ S) (hy : y ∈ S) (hz : z ∈ S) (hxy : cmp x y ≤ 0)
    (hyz : cmp y z < 0) : cmp x z < 0 := by
  have h1 := h.trans x hx y hy z hz hxy (by omega)
  by_contra hxz
  have hzx := h.zero_symm hx hz (by omega)
  have h2 := h.trans z hz x hx y hy (by omega) hxy
  have h3 := (h.swap y hy z hz).mp hyz
  omega

/-- Equivalent values compare alike. -/
theorem neg_congr_left {x x' y : X} (hx : x ∈ S) (hx' : x' ∈ S) (hy : y ∈ S)
    (hzero : cmp x x' = 0) : cmp x y < 0 ↔ cmp x' y < 0 := by
  have hzero' := h.zero_symm hx hx' hzero
  constructor
  · intro hlt
    exact h.trans_neg hx' hx hy (by omega) hlt
  · intro hlt
    exact h.trans_neg hx hx' hy (by omega) hlt

theorem neg_congr_right {x y y' : X} (hx : x ∈ S) (hy : y ∈ S) (hy' : y' ∈ S)
    (hzero : cmp y y' = 0) : cmp x y < 0 ↔ cmp x y' < 0 := by
  have hzero' := h.zero_symm hy hy' hzero
  constructor
  · intro hlt
    exact h.neg_trans hx hy hy' hlt (by omega)
  · intro hlt
    exact h.neg_trans hx hy' hy hlt (by omega)

theorem thenBy_swap {x y : X} (hx : x ∈ S) (hy : y ∈ S) {d e : Int}
    (hde : cmp x y = 0 → (d < 0 ↔ 0 < e)) :
    thenBy (cmp x y) d < 0 ↔ 0 < thenBy (cmp y x) e := by
  have h1 := h.swap x hx y hy
  have h2 := h.swap y hy x hx
  rw [thenBy_neg, thenBy_pos]
  omega

theorem thenBy_trans {x y z : X} (hx : x ∈ S) (hy : y ∈ S) (hz : z ∈ S) {d e f : Int}
    (hdef : cmp x y = 0 → cmp y z = 0 → d ≤ 0 → e ≤ 0 → f ≤ 0)
    (hxy : thenBy (cmp x y) d ≤ 0) (hyz : thenBy (cmp y z) e ≤ 0) :
    thenBy (cmp x z) f ≤ 0 := by
  rw [thenBy_nonpos] at hxy hyz ⊢
  rcases hxy with hxy | hxy
  · exact Or.inl (h.neg_trans hx hy hz hxy (by omega))
  · rcases hyz with hyz | hyz
    · exact Or.inl (h.trans_neg hx hy hz (by omega) hyz)
    · exact Or.inr ⟨h.zero_trans hx hy hz hxy.1 hyz.1, hdef hxy.1 hyz.1 hxy.2 hyz.2⟩

/-- **A second comparison, inside the classes of the first.** -/
theorem lex (h' : ∀ x ∈ S, Orders {y | y ∈ S ∧ cmp x y = 0} cmp') :
    Orders S (fun x y => thenBy (cmp x y) (cmp' x y)) where
  swap x hx y hy := by
    apply h.thenBy_swap hx hy
    intro hzero
    exact (h' x hx).swap x ⟨hx, h.refl hx⟩ y ⟨hy, hzero⟩
  trans x hx y hy z hz := by
    apply h.thenBy_trans hx hy hz
    intro hxy hyz
    exact (h' x hx).trans x ⟨hx, h.refl hx⟩ y ⟨hy, hxy⟩ z
      ⟨hz, h.zero_trans hx hy hz hxy hyz⟩

end Orders

/-! ## §3. Linear orders. -/

/-- The comparison of a linear order. -/
def linearCompare [LinearOrder X] (x y : X) : Int := if x = y then 0 else if x < y then -1 else 1

section

variable [LinearOrder X]

@[simp] theorem linearCompare_eq_zero {x y : X} : linearCompare x y = 0 ↔ x = y := by
  unfold linearCompare
  split
  · simp_all
  · split <;> simp_all

@[simp] theorem linearCompare_neg {x y : X} : linearCompare x y < 0 ↔ x < y := by
  unfold linearCompare
  split
  · simp_all
  · split <;> simp_all

@[simp] theorem linearCompare_pos {x y : X} : 0 < linearCompare x y ↔ y < x := by
  unfold linearCompare
  split
  next heq => simp [heq]
  next hne =>
    split
    next hlt => simp [hlt.le]
    next hle => simpa using lt_of_le_of_ne (not_lt.mp hle) (Ne.symm hne)

theorem linearCompare_nonpos {x y : X} : linearCompare x y ≤ 0 ↔ x ≤ y := by
  rw [← Int.not_lt, linearCompare_pos, not_lt]

theorem orders_linearCompare : Orders Set.univ (@linearCompare X _) where
  swap x _ y _ := by rw [linearCompare_neg, linearCompare_pos]
  trans x _ y _ z _ hxy hyz := by
    rw [linearCompare_nonpos] at hxy hyz ⊢
    exact le_trans hxy hyz

end

/-- The difference of two numbers. -/
theorem orders_sub : Orders Set.univ (fun x y : Int => x - y) where
  swap x _ y _ := by omega
  trans x _ y _ z _ hxy hyz := by omega

/-! ## §4. Lists. -/

section

variable {cmp cmp' : X → X → Int}

/-- The first difference of two lists, of the same length. -/
def firstDifference (cmp : X → X → Int) : List X → List X → Int
  | a :: l, b :: r => thenBy (cmp a b) (firstDifference cmp l r)
  | _, _ => 0

/-- Sizes, then elements. -/
def listCompare (cmp : X → X → Int) (l r : List X) : Int :=
  thenBy ((l.length : Int) - r.length) (firstDifference cmp l r)

theorem firstDifference_congr {l : List X} : ∀ {r : List X},
    (∀ a ∈ l, ∀ b ∈ r, cmp a b = cmp' a b) → firstDifference cmp l r = firstDifference cmp' l r := by
  induction l with
  | nil => exact fun _ => rfl
  | cons a l ih =>
      intro r heq
      cases r with
      | nil => rfl
      | cons b r =>
          rw [firstDifference, firstDifference, heq a List.mem_cons_self b List.mem_cons_self,
            ih (fun x hx y hy => heq x (List.mem_cons_of_mem a hx) y (List.mem_cons_of_mem b hy))]

theorem firstDifference_eq_zero {l : List X} : ∀ {r : List X}, l.length = r.length →
    (firstDifference cmp l r = 0 ↔ List.Forall₂ (fun a b => cmp a b = 0) l r) := by
  induction l with
  | nil =>
      intro r hlen
      have hr := List.eq_nil_of_length_eq_zero hlen.symm
      rw [hr]
      exact iff_of_true rfl List.Forall₂.nil
  | cons a l ih =>
      intro r hlen
      cases r with
      | nil => exact absurd hlen (by simp)
      | cons b r =>
          rw [firstDifference, thenBy_eq_zero, List.forall₂_cons, ih (by simpa using hlen)]

theorem listCompare_eq_zero {l r : List X} :
    listCompare cmp l r = 0 ↔ List.Forall₂ (fun a b => cmp a b = 0) l r := by
  unfold listCompare
  rw [thenBy_eq_zero]
  constructor
  · intro h
    exact (firstDifference_eq_zero (by omega)).mp h.2
  · intro h
    have hlen := h.length_eq
    exact ⟨by omega, (firstDifference_eq_zero hlen).mpr h⟩

variable {S : Set X} (h : Orders S cmp)

include h

theorem firstDifference_swap {l : List X} : ∀ {r : List X}, (∀ x ∈ l, x ∈ S) → (∀ x ∈ r, x ∈ S) →
    (firstDifference cmp l r < 0 ↔ 0 < firstDifference cmp r l) := by
  induction l with
  | nil =>
      intro r _ _
      cases r with
      | nil => exact Iff.rfl
      | cons b r => exact Iff.rfl
  | cons a l ih =>
      intro r hl hr
      cases r with
      | nil => exact Iff.rfl
      | cons b r =>
          rw [List.forall_mem_cons] at hl hr
          rw [firstDifference, firstDifference]
          exact h.thenBy_swap hl.1 hr.1 (fun _ => ih hl.2 hr.2)

theorem firstDifference_trans {l : List X} : ∀ {m r : List X}, l.length = m.length →
    m.length = r.length → (∀ x ∈ l, x ∈ S) → (∀ x ∈ m, x ∈ S) → (∀ x ∈ r, x ∈ S) →
    firstDifference cmp l m ≤ 0 → firstDifference cmp m r ≤ 0 → firstDifference cmp l r ≤ 0 := by
  induction l with
  | nil =>
      intro m r _ _ _ _ _ _ _
      exact Int.le_refl 0
  | cons a l ih =>
      intro m r hlm hmr hl hm hr
      cases m with
      | nil => exact absurd hlm (by simp)
      | cons b m =>
          cases r with
          | nil => exact absurd hmr (by simp)
          | cons c r =>
              rw [List.forall_mem_cons] at hl hm hr
              rw [firstDifference, firstDifference, firstDifference]
              apply h.thenBy_trans hl.1 hm.1 hr.1
              intro _ _
              exact ih (by simpa using hlm) (by simpa using hmr) hl.2 hm.2 hr.2

/-- **Lists over an ordered set** are ordered. -/
theorem orders_listCompare : Orders {l : List X | ∀ x ∈ l, x ∈ S} (listCompare cmp) := by
  have hlength : Orders {l : List X | ∀ x ∈ l, x ∈ S}
      (fun l r => (l.length : Int) - r.length) :=
    (orders_sub.comap (fun l : List X => (l.length : Int))).mono (fun _ _ => Set.mem_univ _)
  apply hlength.lex
  intro l _
  constructor
  · intro m hm r hr
    exact firstDifference_swap h hm.1 hr.1
  · intro m hm r hr s hs
    have h1 := hm.2
    have h2 := hr.2
    have h3 := hs.2
    exact firstDifference_trans h (by omega) (by omega) hm.1 hr.1 hs.1

end

/-! ## §5. Multisets. -/

section

variable (cmp : X → X → Int)

/-- `insert` of a multiset: after the elements that are not above. -/
def insertUpper (x : X) : List X → List X
  | [] => [x]
  | y :: ys => if cmp x y < 0 then x :: y :: ys else y :: insertUpper x ys

/-- The elements of a container, inserted one by one. -/
def multisetOf (l : List X) : List X := l.foldl (fun ordering x => insertUpper cmp x ordering) []

/-- `lexicographical_compare`. -/
def lexicographicalLess : List X → List X → Bool
  | [], [] => false
  | [], _ :: _ => true
  | _ :: _, [] => false
  | a :: l, b :: r =>
      if cmp a b < 0 then true else if cmp b a < 0 then false else lexicographicalLess l r

/-- Both ways: whether left is the lesser, less whether right is. -/
def lexicographicalCompare (l r : List X) : Int :=
  (lexicographicalLess cmp l r).toInt - (lexicographicalLess cmp r l).toInt

/-- Sizes, then the walks of the two multisets. -/
def multisetCompare (l r : List X) : Int :=
  thenBy ((l.length : Int) - r.length)
    (lexicographicalCompare cmp (multisetOf cmp l) (multisetOf cmp r))

end

section

variable {cmp cmp' : X → X → Int}

theorem insertUpper_perm (x : X) (l : List X) : (insertUpper cmp x l).Perm (x :: l) := by
  induction l with
  | nil => rfl
  | cons y ys ih =>
      unfold insertUpper
      split
      · rfl
      · exact (ih.cons y).trans (List.Perm.swap x y ys)

theorem foldl_insertUpper_perm (l : List X) : ∀ ordering : List X,
    (l.foldl (fun ordering x => insertUpper cmp x ordering) ordering).Perm (l ++ ordering) := by
  induction l with
  | nil => exact fun _ => List.Perm.refl _
  | cons x l ih =>
      intro ordering
      rw [List.foldl_cons]
      exact (ih _).trans (((insertUpper_perm x ordering).append_left l).trans List.perm_middle)

/-- A multiset holds the elements of the container. -/
theorem multisetOf_perm (l : List X) : (multisetOf cmp l).Perm l := by
  have h : (multisetOf cmp l).Perm (l ++ []) := foldl_insertUpper_perm l []
  rwa [List.append_nil] at h

theorem mem_multisetOf {l : List X} {x : X} : x ∈ multisetOf cmp l ↔ x ∈ l :=
  (multisetOf_perm l).mem_iff

theorem insertUpper_congr (x : X) {l : List X} (heq : ∀ y ∈ l, cmp x y = cmp' x y) :
    insertUpper cmp x l = insertUpper cmp' x l := by
  induction l with
  | nil => rfl
  | cons y ys ih =>
      rw [List.forall_mem_cons] at heq
      rw [insertUpper, insertUpper, heq.1, ih heq.2]

theorem multisetOf_congr {l : List X} (heq : ∀ x ∈ l, ∀ y ∈ l, cmp x y = cmp' x y) :
    multisetOf cmp l = multisetOf cmp' l := by
  unfold multisetOf
  have hfold : ∀ (rest ordering : List X), (∀ x ∈ rest, x ∈ l) → (∀ x ∈ ordering, x ∈ l) →
      rest.foldl (fun ordering x => insertUpper cmp x ordering) ordering
        = rest.foldl (fun ordering x => insertUpper cmp' x ordering) ordering := by
    intro rest
    induction rest with
    | nil => exact fun _ _ _ => rfl
    | cons x rest ih =>
        intro ordering hrest hordering
        rw [List.forall_mem_cons] at hrest
        rw [List.foldl_cons, List.foldl_cons,
          insertUpper_congr x (fun y hy => heq x hrest.1 y (hordering y hy))]
        apply ih _ hrest.2
        intro y hy
        rcases List.mem_cons.mp ((insertUpper_perm x ordering).mem_iff.mp hy) with hyx | hy
        · exact hyx ▸ hrest.1
        · exact hordering y hy
  exact hfold l [] (fun _ hx => hx) (fun _ hx => absurd hx List.not_mem_nil)

theorem lexicographicalLess_congr {l : List X} : ∀ {r : List X},
    (∀ a ∈ l, ∀ b ∈ r, cmp a b = cmp' a b ∧ cmp b a = cmp' b a) →
    lexicographicalLess cmp l r = lexicographicalLess cmp' l r := by
  induction l with
  | nil =>
      intro r _
      cases r <;> rfl
  | cons a l ih =>
      intro r heq
      cases r with
      | nil => rfl
      | cons b r =>
          have hab := heq a List.mem_cons_self b List.mem_cons_self
          rw [lexicographicalLess, lexicographicalLess, hab.1, hab.2,
            ih (fun x hx y hy => heq x (List.mem_cons_of_mem a hx) y (List.mem_cons_of_mem b hy))]

theorem multisetCompare_congr {l r : List X}
    (heq : ∀ x, x ∈ l ∨ x ∈ r → ∀ y, y ∈ l ∨ y ∈ r → cmp x y = cmp' x y) :
    multisetCompare cmp l r = multisetCompare cmp' l r := by
  have hl : multisetOf cmp l = multisetOf cmp' l :=
    multisetOf_congr (fun x hx y hy => heq x (Or.inl hx) y (Or.inl hy))
  have hr : multisetOf cmp r = multisetOf cmp' r :=
    multisetOf_congr (fun x hx y hy => heq x (Or.inr hx) y (Or.inr hy))
  have hlr : lexicographicalLess cmp (multisetOf cmp' l) (multisetOf cmp' r)
      = lexicographicalLess cmp' (multisetOf cmp' l) (multisetOf cmp' r) := by
    apply lexicographicalLess_congr
    intro a ha b hb
    rw [mem_multisetOf] at ha hb
    exact ⟨heq a (Or.inl ha) b (Or.inr hb), heq b (Or.inr hb) a (Or.inl ha)⟩
  have hrl : lexicographicalLess cmp (multisetOf cmp' r) (multisetOf cmp' l)
      = lexicographicalLess cmp' (multisetOf cmp' r) (multisetOf cmp' l) := by
    apply lexicographicalLess_congr
    intro a ha b hb
    rw [mem_multisetOf] at ha hb
    exact ⟨heq a (Or.inr ha) b (Or.inl hb), heq b (Or.inl hb) a (Or.inr ha)⟩
  unfold multisetCompare lexicographicalCompare
  rw [hl, hr, hlr, hrl]

variable {S : Set X} (h : Orders S cmp)

theorem rel_of_forall₂ {R : X → Y → Prop} {l : List X} {r : List Y} (hall : List.Forall₂ R l r) :
    Multiset.Rel R (l : Multiset X) (r : Multiset Y) := by
  induction hall with
  | nil => exact Multiset.Rel.zero
  | cons hab _ ih => exact Multiset.Rel.cons hab ih

include h

/-- A multiset of an order is walked in its order. -/
theorem multisetOf_sorted {l : List X} (hl : ∀ x ∈ l, x ∈ S) :
    (multisetOf cmp l).Pairwise (fun x y => cmp x y ≤ 0) := by
  have hinsert : ∀ x ∈ S, ∀ ordering : List X, (∀ y ∈ ordering, y ∈ S) →
      ordering.Pairwise (fun x y => cmp x y ≤ 0) →
      (insertUpper cmp x ordering).Pairwise (fun x y => cmp x y ≤ 0) := by
    intro x hx ordering
    induction ordering with
    | nil => exact fun _ _ => List.pairwise_singleton _ x
    | cons y ys ih =>
        intro hS hsorted
        rw [List.forall_mem_cons] at hS
        have hys := List.pairwise_cons.mp hsorted
        unfold insertUpper
        split
        next hlt =>
          -- before the first larger one: smaller than all from there on
          refine List.pairwise_cons.mpr ⟨?_, hsorted⟩
          intro z hz
          rcases List.mem_cons.mp hz with hzy | hz
          · rw [hzy]
            exact Int.le_of_lt hlt
          · exact h.trans x hx y hS.1 z (hS.2 z hz) (Int.le_of_lt hlt) (hys.1 z hz)
        next hle =>
          refine List.pairwise_cons.mpr ⟨?_, ih hS.2 hys.2⟩
          intro z hz
          rcases List.mem_cons.mp ((insertUpper_perm x ys).mem_iff.mp hz) with hzx | hz
          · -- further down: not less than this one
            have hswap := h.swap x hx y hS.1
            have hswap' := h.swap y hS.1 x hx
            rw [hzx]
            omega
          · exact hys.1 z hz
  -- so each insertion keeps the order
  have hfold : ∀ (rest ordering : List X), (∀ x ∈ rest, x ∈ S) → (∀ x ∈ ordering, x ∈ S) →
      ordering.Pairwise (fun x y => cmp x y ≤ 0) →
      (rest.foldl (fun ordering x => insertUpper cmp x ordering) ordering).Pairwise
        (fun x y => cmp x y ≤ 0) := by
    intro rest
    induction rest with
    | nil => exact fun _ _ _ hsorted => hsorted
    | cons x rest ih =>
        intro ordering hrest hordering hsorted
        rw [List.forall_mem_cons] at hrest
        rw [List.foldl_cons]
        refine ih _ hrest.2 ?_ (hinsert x hrest.1 ordering hordering hsorted)
        intro y hy
        rcases List.mem_cons.mp ((insertUpper_perm x ordering).mem_iff.mp hy) with hyx | hy
        · exact hyx ▸ hrest.1
        · exact hordering y hy
  exact hfold l [] hl (fun _ hx => absurd hx List.not_mem_nil) List.Pairwise.nil

/-- On lists of one length, lexicographic is by the first difference. -/
theorem lexicographicalLess_iff {l : List X} : ∀ {r : List X}, l.length = r.length →
    (∀ x ∈ l, x ∈ S) → (∀ x ∈ r, x ∈ S) →
    (lexicographicalLess cmp l r = true ↔ firstDifference cmp l r < 0) := by
  induction l with
  | nil =>
      intro r hlen _ _
      have hr := List.eq_nil_of_length_eq_zero hlen.symm
      rw [hr]
      exact iff_of_false (by simp [lexicographicalLess]) (by simp [firstDifference])
  | cons a l ih =>
      intro r hlen hl hr
      cases r with
      | nil => exact absurd hlen (by simp)
      | cons b r =>
          rw [List.forall_mem_cons] at hl hr
          have ih := @ih r (by simpa using hlen) hl.2 hr.2
          have hswap := h.swap b hr.1 a hl.1
          rw [lexicographicalLess, firstDifference, thenBy_neg, ← ih]
          split
          next hlt => exact iff_of_true rfl (Or.inl hlt)
          next hle =>
            split
            next hgt => exact iff_of_false (by simp) (by omega)
            next hge =>
              have hzero : cmp a b = 0 := by omega
              simp [hzero]

/-- The answer is positive when the left list is the lesser one. -/
theorem lexicographicalCompare_sign {l r : List X} (hlen : l.length = r.length)
    (hl : ∀ x ∈ l, x ∈ S) (hr : ∀ x ∈ r, x ∈ S) :
    (lexicographicalCompare cmp l r < 0 ↔ firstDifference cmp r l < 0)
      ∧ (0 < lexicographicalCompare cmp l r ↔ 0 < firstDifference cmp r l) := by
  have hlr := lexicographicalLess_iff h hlen hl hr
  have hrl := lexicographicalLess_iff h hlen.symm hr hl
  rw [firstDifference_swap h hl hr] at hlr
  have htoInt (b : Bool) : b.toInt = if b = true then 1 else 0 := by cases b <;> rfl
  unfold lexicographicalCompare
  rw [htoInt, htoInt]
  simp only [hlr, hrl]
  split <;> split <;> omega

/-- **Collections over an ordered set** are ordered. -/
theorem orders_multisetCompare : Orders {l : List X | ∀ x ∈ l, x ∈ S} (multisetCompare cmp) := by
  -- first the lengths, and where they are equal the elements in order
  have hlength : Orders {l : List X | ∀ x ∈ l, x ∈ S}
      (fun l r => (l.length : Int) - r.length) :=
    (orders_sub.comap (fun l : List X => (l.length : Int))).mono (fun _ _ => Set.mem_univ _)
  have hsame (l r : List X) (hlen : (l.length : Int) - r.length = 0) :
      (multisetOf cmp l).length = (multisetOf cmp r).length := by
    rw [(multisetOf_perm l).length_eq, (multisetOf_perm r).length_eq]
    omega
  have hwalk {l : List X} (hl : ∀ x ∈ l, x ∈ S) : ∀ x ∈ multisetOf cmp l, x ∈ S :=
    fun x hx => hl x (mem_multisetOf.mp hx)
  apply hlength.lex
  intro l _
  constructor
  · intro m hm r hr
    have h1 := hm.2
    have h2 := hr.2
    -- at one length the sign is that of the first difference
    rw [(lexicographicalCompare_sign h (hsame m r (by omega)) (hwalk hm.1) (hwalk hr.1)).1,
      (lexicographicalCompare_sign h (hsame r m (by omega)) (hwalk hr.1) (hwalk hm.1)).2]
    exact firstDifference_swap h (hwalk hr.1) (hwalk hm.1)
  · intro m hm r hr s hs
    have h1 := hm.2
    have h2 := hr.2
    have h3 := hs.2
    have hmr := (lexicographicalCompare_sign h (hsame m r (by omega)) (hwalk hm.1) (hwalk hr.1)).2
    have hrs := (lexicographicalCompare_sign h (hsame r s (by omega)) (hwalk hr.1) (hwalk hs.1)).2
    have hms := (lexicographicalCompare_sign h (hsame m s (by omega)) (hwalk hm.1) (hwalk hs.1)).2
    have htrans := firstDifference_trans h (hsame s r (by omega)) (hsame r m (by omega))
      (hwalk hs.1) (hwalk hr.1) (hwalk hm.1)
    intro hle hle'
    have hle'' := htrans (by omega) (by omega)
    omega

/-- Sorted lists that match one to one match in order. -/
theorem forall₂_of_sorted {l : List X} : ∀ {r : List X}, (∀ x ∈ l, x ∈ S) → (∀ x ∈ r, x ∈ S) →
    l.Pairwise (fun x y => cmp x y ≤ 0) → r.Pairwise (fun x y => cmp x y ≤ 0) →
    Multiset.Rel (fun x y => cmp x y = 0) (l : Multiset X) (r : Multiset X) →
    List.Forall₂ (fun x y => cmp x y = 0) l r := by
  -- on the first list; the heads are the least of both
  induction l with
  | nil =>
      intro r _ _ _ _ hrel
      have hr := Multiset.rel_zero_left.mp hrel
      rw [(Multiset.coe_eq_zero r).mp hr]
      exact List.Forall₂.nil
  | cons a l ih =>
      intro r hl hr hsl hsr hrel
      rw [← Multiset.cons_coe, Multiset.rel_cons_left] at hrel
      obtain ⟨b', bs', hab', hrel', heq⟩ := hrel
      cases r with
      | nil => exact absurd heq.symm (Multiset.cons_ne_zero)
      | cons b r =>
          rw [List.forall_mem_cons] at hl hr
          rw [List.pairwise_cons] at hsl hsr
          rw [← Multiset.cons_coe, Multiset.cons_eq_cons] at heq
          rcases heq with heq | heq
          · -- the match of the head is the head
            rw [← heq.1] at hab'
            rw [← heq.2] at hrel'
            exact List.Forall₂.cons hab' (ih hl.2 hr.2 hsl.2 hsr.2 hrel')
          · -- the match of the head stands later: the heads tie with it all the same
            obtain ⟨_, cs, hbs, hbs'⟩ := heq
            have hb'mem : b' ∈ r := by
              have hmem : b' ∈ (r : Multiset X) := hbs ▸ Multiset.mem_cons_self b' cs
              exact Multiset.mem_coe.mp hmem
            have hb' := hr.2 b' hb'mem
            rw [hbs', Multiset.rel_cons_right] at hrel'
            obtain ⟨c, as', hcb, hrest, has⟩ := hrel'
            have hcmem : c ∈ l := by
              have hmem : c ∈ (l : Multiset X) := has ▸ Multiset.mem_cons_self c as'
              exact Multiset.mem_coe.mp hmem
            have hc := hl.2 c hcmem
            -- `b ≤ b' = a ≤ c = b`
            have hbb' := hsr.1 b' hb'mem
            have hac := hsl.1 c hcmem
            have hb'a := h.zero_symm hl.1 hb' hab'
            have hba := h.trans b hr.1 b' hb' a hl.1 hbb' (by omega)
            have hab := h.trans a hl.1 c hc b hr.1 hac (by omega)
            have hswap := h.swap a hl.1 b hr.1
            have hzero : cmp a b = 0 := by omega
            have hca := h.zero_trans hc hr.1 hl.1 hcb (h.zero_symm hl.1 hr.1 hzero)
            have hcb' := h.zero_trans hc hl.1 hb' hca hab'
            refine List.Forall₂.cons hzero (ih hl.2 hr.2 hsl.2 hsr.2 ?_)
            rw [has, hbs]
            exact Multiset.Rel.cons hcb' hrest

/-- **Collections are equivalent when they are equal as multisets.** -/
theorem multisetCompare_eq_zero {l r : List X} (hl : ∀ x ∈ l, x ∈ S) (hr : ∀ x ∈ r, x ∈ S) :
    multisetCompare cmp l r = 0
      ↔ Multiset.Rel (fun x y => cmp x y = 0) (l : Multiset X) (r : Multiset X) := by
  have hzero : multisetCompare cmp l r = 0
      ↔ List.Forall₂ (fun x y => cmp x y = 0) (multisetOf cmp l) (multisetOf cmp r) := by
    have hlenl : (multisetOf cmp l).length = l.length := (multisetOf_perm l).length_eq
    have hlenr : (multisetOf cmp r).length = r.length := (multisetOf_perm r).length_eq
    have hwl : ∀ x ∈ multisetOf cmp l, x ∈ S := fun x hx => hl x (mem_multisetOf.mp hx)
    have hwr : ∀ x ∈ multisetOf cmp r, x ∈ S := fun x hx => hr x (mem_multisetOf.mp hx)
    unfold multisetCompare
    rw [thenBy_eq_zero, ← listCompare_eq_zero, listCompare, thenBy_eq_zero, hlenl, hlenr]
    refine and_congr_right (fun hlen => ?_)
    have hsign := lexicographicalCompare_sign h
      (show (multisetOf cmp l).length = (multisetOf cmp r).length by omega) hwl hwr
    have hswap := firstDifference_swap h hwl hwr
    have hswap' := firstDifference_swap h hwr hwl
    omega
  have hcoel : (multisetOf cmp l : Multiset X) = l := Multiset.coe_eq_coe.mpr (multisetOf_perm l)
  have hcoer : (multisetOf cmp r : Multiset X) = r := Multiset.coe_eq_coe.mpr (multisetOf_perm r)
  rw [hzero, ← hcoel, ← hcoer]
  constructor
  · exact rel_of_forall₂
  · exact forall₂_of_sorted h (fun x hx => hl x (mem_multisetOf.mp hx))
      (fun x hx => hr x (mem_multisetOf.mp hx)) (multisetOf_sorted h hl) (multisetOf_sorted h hr)

end

/-! ## §6. Ranges of a sorted list. -/

theorem findIdx_congr {p q : X → Bool} {ns : List X} (heq : ∀ n ∈ ns, p n = q n) :
    ns.findIdx p = ns.findIdx q := by
  induction ns with
  | nil => rfl
  | cons x ns ih =>
      rw [List.forall_mem_cons] at heq
      rw [List.findIdx_cons, List.findIdx_cons, heq.1, ih heq.2]

/-- What stops later is found later. -/
theorem findIdx_le_findIdx {p q : X → Bool} {ns : List X}
    (himp : ∀ n ∈ ns, q n = true → p n = true) : ns.findIdx p ≤ ns.findIdx q := by
  induction ns with
  | nil => exact Nat.le_refl 0
  | cons x ns ih =>
      rw [List.forall_mem_cons] at himp
      rw [List.findIdx_cons, List.findIdx_cons]
      cases hpv : p x with
      | true => exact Nat.zero_le _
      | false =>
          cases hqv : q x with
          | true => exact absurd (himp.1 hqv) (by rw [hpv]; simp)
          | false => exact Nat.succ_le_succ (ih himp.2)

/-- **From the first `p` to the first `q`**, of a list along which both stay true. -/
theorem mem_drop_take_findIdx {p q : X → Bool} {ns : List X}
    (hp : ns.Pairwise (fun l r => p l = true → p r = true))
    (hq : ns.Pairwise (fun l r => q l = true → q r = true)) (n : X) :
    n ∈ (ns.take (ns.findIdx q)).drop (ns.findIdx p) ↔ n ∈ ns ∧ p n = true ∧ q n = false := by
  -- on the list; `x` decides whether anything is taken, or dropped
  induction ns with
  | nil => simp
  | cons x ns ih =>
      have hpx := (List.pairwise_cons.mp hp).1
      have hqx := (List.pairwise_cons.mp hq).1
      have ih := ih (List.pairwise_cons.mp hp).2 (List.pairwise_cons.mp hq).2
      rw [List.findIdx_cons, List.findIdx_cons, List.mem_cons]
      cases hqv : q x with
      | true =>
          -- nothing is taken
          show n ∈ List.drop _ [] ↔ _
          rw [List.drop_nil]
          refine iff_of_false List.not_mem_nil ?_
          intro hn
          have hqn : q n = true := by
            rcases hn.1 with hnx | hmem
            · rw [hnx, hqv]
            · exact hqx n hmem hqv
          rw [hqn] at hn
          exact absurd hn.2.2 (by simp)
      | false =>
          cases hpv : p x with
          | true =>
              -- nothing is dropped
              have hzero : ns.findIdx p = 0 := by
                cases ns with
                | nil => rfl
                | cons y ns =>
                    rw [List.findIdx_cons, hpx y List.mem_cons_self hpv]
                    rfl
              rw [hzero, List.drop_zero] at ih
              show n ∈ x :: ns.take _ ↔ _
              rw [List.mem_cons, ih]
              constructor
              · intro hn
                rcases hn with hnx | hn
                · exact ⟨Or.inl hnx, by rw [hnx, hpv], by rw [hnx, hqv]⟩
                · exact ⟨Or.inr hn.1, hn.2⟩
              · intro hn
                exact hn.1.imp id (fun hmem => ⟨hmem, hn.2⟩)
          -- `x` is dropped
          | false =>
              show n ∈ (ns.take _).drop _ ↔ _
              rw [ih]
              constructor
              · exact fun hn => ⟨Or.inr hn.1, hn.2⟩
              · intro hn
                refine ⟨hn.1.resolve_left ?_, hn.2⟩
                intro hnx
                rw [hnx, hpv] at hn
                exact absurd hn.2.1 (by simp)

end Inferno.Lib
