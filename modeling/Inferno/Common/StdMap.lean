/-
  Inferno.Common.StdMap
  ─────────────────────
  `std::map`, as the finite partial function it holds, and the walk of a `std::set`.

    • `inOrder` — the elements of a set, as a range-for visits them,
    • `StdMap`  — a lookup function that carries its finite set of keys,
    • the operations the repository uses on maps, the "Solo" ones with their
      assertions as `none`,
    • a lookup lemma for each operation, and extensionality by lookups.
-/
import Inferno.Common.Assert
import Mathlib.Data.Finset.Card
import Mathlib.Data.Finset.Sort

namespace Inferno.Common

/-! ## §1. Walking a set. -/

section

variable {α : Type} [LinearOrder α]

/-- The elements of a `std::set` in iterator order: `Finset.sort`, by insertion, so
that the kernel can run it. -/
def inOrder (s : Finset α) : List α :=
  Quot.liftOn s.val (List.insertionSort (· ≤ ·)) (fun l l' h => by
    rw [← List.mergeSort_eq_insertionSort, ← List.mergeSort_eq_insertionSort]
    exact congrArg (fun m : Multiset α => m.sort) (Quot.sound h))

theorem inOrder_eq_sort (s : Finset α) : inOrder s = s.sort := by
  obtain ⟨m, hm⟩ := s
  induction m using Quot.ind with
  | mk l => exact (List.mergeSort_eq_insertionSort (· ≤ ·) l).symm

@[simp] theorem mem_inOrder {s : Finset α} {x : α} : x ∈ inOrder s ↔ x ∈ s := by
  rw [inOrder_eq_sort, Finset.mem_sort]

theorem inOrder_nodup (s : Finset α) : (inOrder s).Nodup := by
  rw [inOrder_eq_sort]
  exact s.sort_nodup (· ≤ ·)

theorem inOrder_pairwise (s : Finset α) : (inOrder s).Pairwise (· ≤ ·) := by
  rw [inOrder_eq_sort]
  exact s.pairwise_sort (· ≤ ·)

end

/-! ## §2. Finite maps. -/

/-- A finite map, with its keys. -/
structure StdMap (K V : Type) where
  lookup : K → Option V
  keys : Finset K
  mem_keys : ∀ x, x ∈ keys ↔ (lookup x).isSome

namespace StdMap

variable {K V : Type}

theorem ext_lookup {a b : StdMap K V} (h : ∀ x, a.lookup x = b.lookup x) : a = b := by
  have hl : a.lookup = b.lookup := funext h
  have hk : a.keys = b.keys := by
    ext x
    rw [a.mem_keys, b.mem_keys, h x]
  cases a
  cases b
  simp only at hl hk
  subst hl
  subst hk
  rfl

theorem lookup_eq_none {a : StdMap K V} {x : K} :
    a.lookup x = none ↔ x ∉ a.keys := by
  rw [a.mem_keys, Option.not_isSome_iff_eq_none]

/-- The empty map. -/
def empty : StdMap K V := ⟨fun _ => none, ∅, by simp⟩

@[simp] theorem lookup_empty (x : K) : (empty : StdMap K V).lookup x = none := rfl

variable [DecidableEq K]

/-- `m[x] = v`. -/
def set (a : StdMap K V) (x : K) (v : V) : StdMap K V where
  lookup y := if y = x then some v else a.lookup y
  keys := insert x a.keys
  mem_keys y := by
    rw [Finset.mem_insert, a.mem_keys]
    by_cases h : y = x <;> simp [h]

/-- `m.insert( make_pair(x, v) )`: an existing entry stays. -/
def insertNew (a : StdMap K V) (x : K) (v : V) : StdMap K V :=
  if x ∈ a.keys then a else a.set x v

/-- `m.erase(x)`. -/
def erase (a : StdMap K V) (x : K) : StdMap K V where
  lookup y := if y = x then none else a.lookup y
  keys := a.keys.erase x
  mem_keys y := by
    rw [Finset.mem_erase, a.mem_keys]
    by_cases h : y = x <;> simp [h]

/-- `EraseSolo(m, x)`. -/
def eraseSolo (a : StdMap K V) (x : K) : Option (StdMap K V) :=
  if x ∈ a.keys then some (a.erase x) else none

/-- `DifferenceOf(a, b)`: drop the keys of `b`. -/
def difference (a b : StdMap K V) : StdMap K V where
  lookup x := if x ∈ b.keys then none else a.lookup x
  keys := a.keys \ b.keys
  mem_keys x := by
    rw [Finset.mem_sdiff, a.mem_keys]
    by_cases h : x ∈ b.keys <;> simp [h]

/-- `DifferenceOfSolo(a, b)`: all the keys of `b` must be there. -/
def differenceOfSolo (a b : StdMap K V) : Option (StdMap K V) := do
  let result := a.difference b
  ASSERT (result.keys.card + b.keys.card = a.keys.card)
  some result

/-- The part of a map on the keys `xs`. -/
def restrict (a : StdMap K V) (xs : Finset K) : StdMap K V where
  lookup x := if x ∈ xs then a.lookup x else none
  keys := a.keys ∩ xs
  mem_keys x := by
    rw [Finset.mem_inter, a.mem_keys]
    by_cases h : x ∈ xs <;> simp [h]

/-- `UnionOfSolo` of two maps with disjoint keys. -/
def merge (a b : StdMap K V) : StdMap K V where
  lookup x := (a.lookup x).or (b.lookup x)
  keys := a.keys ∪ b.keys
  mem_keys x := by
    rw [Finset.mem_union, a.mem_keys, b.mem_keys]
    cases a.lookup x <;> simp

@[simp] theorem lookup_set (a : StdMap K V) (x : K) (v : V) (y : K) :
    (a.set x v).lookup y = if y = x then some v else a.lookup y := rfl

@[simp] theorem lookup_erase (a : StdMap K V) (x y : K) :
    (a.erase x).lookup y = if y = x then none else a.lookup y := rfl

@[simp] theorem keys_set (a : StdMap K V) (x : K) (v : V) :
    (a.set x v).keys = insert x a.keys := rfl

theorem mem_keys_set_self (a : StdMap K V) (x : K) (v : V) : x ∈ (a.set x v).keys :=
  Finset.mem_insert_self x a.keys

@[simp] theorem lookup_difference (a b : StdMap K V) (x : K) :
    (a.difference b).lookup x = if x ∈ b.keys then none else a.lookup x := rfl

@[simp] theorem lookup_restrict (a : StdMap K V) (xs : Finset K) (x : K) :
    (a.restrict xs).lookup x = if x ∈ xs then a.lookup x else none := rfl

@[simp] theorem lookup_merge (a b : StdMap K V) (x : K) :
    (a.merge b).lookup x = (a.lookup x).or (b.lookup x) := rfl

@[simp] theorem keys_erase (a : StdMap K V) (x : K) : (a.erase x).keys = a.keys.erase x := rfl

theorem insertNew_of_notMem {a : StdMap K V} {x : K} (v : V) (h : x ∉ a.keys) :
    a.insertNew x v = a.set x v := if_neg h

theorem eraseSolo_of_mem {a : StdMap K V} {x : K} (h : x ∈ a.keys) :
    a.eraseSolo x = some (a.erase x) := if_pos h

omit [DecidableEq K] in
theorem mem_keys_of_lookup {a : StdMap K V} {x : K} {v : V} (h : a.lookup x = some v) :
    x ∈ a.keys := by
  rw [a.mem_keys, h]
  rfl

omit [DecidableEq K] in
theorem exists_of_mem_keys {a : StdMap K V} {x : K} (h : x ∈ a.keys) :
    ∃ v, a.lookup x = some v :=
  Option.isSome_iff_exists.mp ((a.mem_keys x).mp h)

theorem eraseSolo_set (a : StdMap K V) (x : K) (v : V) :
    (a.set x v).eraseSolo x = some (a.erase x) := by
  have hx : x ∈ (a.set x v).keys := Finset.mem_insert_self x a.keys
  rw [eraseSolo, if_pos hx]
  congr 1
  apply ext_lookup
  intro y
  by_cases h : y = x <;> simp [h]

/-- Two maps that agree off `x` are equal once `x` is set. -/
theorem set_congr {a b : StdMap K V} {x : K} (v : V)
    (h : ∀ y, y ≠ x → a.lookup y = b.lookup y) : a.set x v = b.set x v := by
  apply ext_lookup
  intro y
  by_cases hy : y = x
  · simp [hy]
  · simp [hy, h y hy]

/-- **A loop of `m[f(p)] = g(p)`**: the last of the elements with a key decides. -/
theorem lookup_foldl_set {β : Type} (f : β → K) (g : β → V) (l : List β) :
    ∀ (m : StdMap K V) (x : K),
      (x ∉ l.map f → (l.foldl (fun m p => m.set (f p) (g p)) m).lookup x = m.lookup x)
      ∧ (x ∈ l.map f → ∃ p ∈ l, f p = x
          ∧ (l.foldl (fun m p => m.set (f p) (g p)) m).lookup x = some (g p)) := by
  induction l with
  | nil => simp
  | cons p l ih =>
      intro m x
      obtain ⟨hout, hin⟩ := ih (m.set (f p) (g p)) x
      rw [List.foldl_cons, List.map_cons, List.mem_cons, not_or]
      refine ⟨?_, ?_⟩
      · intro hx
        rw [hout hx.2, lookup_set, if_neg hx.1]
      · intro hx
        by_cases hmem : x ∈ l.map f
        · obtain ⟨q, hq, hfq, hlookup⟩ := hin hmem
          exact ⟨q, List.mem_cons_of_mem p hq, hfq, hlookup⟩
        · have hxp : x = f p := hx.resolve_right hmem
          refine ⟨p, List.mem_cons_self, hxp.symm, ?_⟩
          rw [hout hmem, lookup_set, if_pos hxp]

/-- **A loop of `m[f(p)].insert(p)`**: an entry collects the elements with its key. -/
theorem lookup_foldl_insert {β : Type} [DecidableEq β] (f : β → K) (l : List β) :
    ∀ (m : StdMap K (Finset β)) (x : K),
      (x ∉ l.map f → (l.foldl (fun m p =>
          m.set (f p) (insert p ((m.lookup (f p)).getD ∅))) m).lookup x = m.lookup x)
      ∧ (x ∈ l.map f → ∃ s, (l.foldl (fun m p =>
          m.set (f p) (insert p ((m.lookup (f p)).getD ∅))) m).lookup x = some s
          ∧ (m.lookup x).getD ∅ ⊆ s ∧ ∀ p ∈ l, f p = x → p ∈ s) := by
  induction l with
  | nil => simp
  | cons p l ih =>
      intro m x
      -- the loop goes on with the entry of the first element set
      obtain ⟨hout, hin⟩ := ih (m.set (f p) (insert p ((m.lookup (f p)).getD ∅))) x
      rw [List.foldl_cons, List.map_cons, List.mem_cons, not_or]
      refine ⟨?_, ?_⟩
      · intro hx
        rw [hout hx.2, lookup_set, if_neg hx.1]
      · intro hx
        -- the first element is in the entry before the rest of the loop
        have hfirst : f p = x → p ∈ ((m.set (f p)
            (insert p ((m.lookup (f p)).getD ∅))).lookup x).getD ∅ := by
          intro hpx
          rw [lookup_set, if_pos hpx.symm]
          exact Finset.mem_insert_self _ _
        have hentry : (m.lookup x).getD ∅ ⊆ ((m.set (f p)
            (insert p ((m.lookup (f p)).getD ∅))).lookup x).getD ∅ := by
          rw [lookup_set]
          split
          next hxp =>
            rw [hxp]
            exact Finset.subset_insert _ _
          next => exact Finset.Subset.refl _
        -- the rest of the loop adds to the entry, or leaves it as the first step made it
        by_cases hmem : x ∈ l.map f
        · obtain ⟨s, hs, hsub, hall⟩ := hin hmem
          refine ⟨s, hs, hentry.trans hsub, ?_⟩
          intro q hq hqx
          rcases List.mem_cons.mp hq with rfl | hq
          · exact hsub (hfirst hqx)
          · exact hall q hq hqx
        · have hxp : x = f p := hx.resolve_right hmem
          refine ⟨_, by rw [hout hmem, lookup_set, if_pos hxp], ?_, ?_⟩
          · rw [hxp]
            exact Finset.subset_insert _ _
          · intro q hq hqx
            rcases List.mem_cons.mp hq with rfl | hq
            · exact Finset.mem_insert_self _ _
            · exact absurd (List.mem_map.mpr ⟨q, hq, hqx⟩) hmem

theorem differenceOfSolo_eq {a b : StdMap K V} (h : b.keys ⊆ a.keys) :
    a.differenceOfSolo b = some (a.difference b) := by
  simp only [differenceOfSolo, ASSERT_bind_eq_some, and_true]
  exact Finset.card_sdiff_add_card_eq_card h

end StdMap

end Inferno.Common
