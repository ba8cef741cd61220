/-
  Inferno.SYM.LeafDatabase
  ────────────────────────
  The least databases: trees of one node each.

    • `leafDatabase`      — tree `l` is the link `l` to the node `l`,
    • `overArchetypes`    — a database under other archetypes,
    • `leaves_below`      — its links compare by their trees.
-/
import Inferno.DB.DFTotal
import Mathlib

namespace Inferno.SYM

open Inferno.Common
open Inferno.DB
open Inferno.Lib

/-! ## §1. Trees of one node each. -/

/-- `n` trees, each one leaf: tree `l` is the link `l` to the node `l`. -/
def leafTrees (n : Nat) : XTrees Nat Nat Unit where
  childOf l := if l < n then some l else none
  itemise _ := []
  mmaxNode := n
  offEndNode := n + 1
  isSubcategory _ _ := false
  itemiseAs _ _ := []
  itemiseAs_sub := by simp

theorem leafTrees_not_place {n y node i k x : Nat} {item : Item Nat} :
    ¬ (leafTrees n).Place y node i item k x := by
  intro h
  exact absurd h.item_mem (by simp [leafTrees])

theorem mem_leafOrdinals (n : Nat) (o : Int) :
    o ∈ (Finset.range n).image (fun l : Nat => (l : Int))
      ↔ (if 0 ≤ o ∧ o < n then some o.toNat else none).isSome := by
  rw [Finset.mem_image]
  by_cases ho : 0 ≤ o ∧ o < n
  · simp only [ho, and_self, if_true, Option.isSome_some, iff_true]
    exact ⟨o.toNat, by rw [Finset.mem_range]; omega, by omega⟩
  · simp only [ho, if_false, Option.isSome_none, Bool.false_eq_true, iff_false]
    intro h
    obtain ⟨l, hl, rfl⟩ := h
    rw [Finset.mem_range] at hl
    omega

theorem leafRow_eq {n : Nat} {o : Int} (ho : 0 ≤ o ∧ o < n) :
    (if o.toNat < n then generateRow o.toNat (o.toNat : Int) rootCoreInfo else none)
      = generateRow o.toNat o (rootCoreInfo (L := Nat) (N := Nat)) := by
  rw [if_pos (by omega), Int.toNat_of_nonneg ho.1]

theorem leafOrdinal_lookup {n x : Nat} (hx : x < n) :
    (if 0 ≤ (x : Int) ∧ (x : Int) < n then some (x : Int).toNat else none) = some x := by
  rw [if_pos (by omega), Int.toNat_natCast]

theorem leaf_incoming (n node x : Nat) :
    (∃ xs : Finset Nat, (if node < n then some {node} else none) = some xs ∧ x ∈ xs)
      ↔ x ∈ Finset.range n ∧ (leafTrees n).childOf x = some node := by
  by_cases hn : node < n <;> simp [hn, leafTrees] <;> omega

/-- The database of those trees. -/
def leafDatabase (n : Nat) : XTreeDatabase Nat Nat Unit where
  toXTrees := leafTrees n
  treesByOrdinal :=
    { lookup := fun o => if 0 ≤ o ∧ o < n then some o.toNat else none
      keys := (Finset.range n).image (fun l : Nat => (l : Int))
      mem_keys := mem_leafOrdinals n }
  rows :=
    { lookup := fun l => if l < n then generateRow l l rootCoreInfo else none
      keys := Finset.range n
      mem_keys := by
        intro l
        rw [Finset.mem_range]
        by_cases hl : l < n
        · simp only [hl, if_true, true_iff]
          rfl
        · simp [hl] }
  incomingXLinks :=
    { lookup := fun node => if node < n then some {node} else none
      keys := Finset.range n
      mem_keys := by
        intro node
        rw [Finset.mem_range]
        by_cases hn : node < n <;> simp [hn] }
  row_root := by
    intro o x h
    dsimp only at h ⊢
    by_cases ho : 0 ≤ o ∧ o < n
    · rw [if_pos ho, Option.some.injEq] at h
      subst h
      exact leafRow_eq ho
    · rw [if_neg ho] at h
      cases h
  row_child := by
    intro y _ node i item k x h
    exact absurd h leafTrees_not_place
  row_only := by
    intro x hx
    rw [Finset.mem_range] at hx
    exact Or.inl ⟨x, leafOrdinal_lookup hx⟩
  row_nonnull := by
    intro x hx
    rw [Finset.mem_range] at hx
    simp [leafTrees, hx]
  container_nonnull := by
    intro y _ node _ item hitem
    simp [leafTrees] at hitem
  incoming := leaf_incoming n
  rule217 := by
    intro y _ z _ node i item k x h
    exact absurd h leafTrees_not_place
  acyclic := by
    refine ⟨id, ?_⟩
    intro y _ node i item k x h
    exact absurd h leafTrees_not_place

/-! ## §2. Other archetypes. -/

section

variable {L N A B : Type}

/-- The trees, with archetypes that stand for others. -/
def XTrees.overArchetypes (f : A → B) (t : XTrees L N B) : XTrees L N A where
  childOf := t.childOf
  itemise := t.itemise
  mmaxNode := t.mmaxNode
  offEndNode := t.offEndNode
  isSubcategory a := t.isSubcategory (f a)
  itemiseAs a := t.itemiseAs (f a)
  itemiseAs_sub a := t.itemiseAs_sub (f a)

theorem place_overArchetypes {f : A → B} {t : XTrees L N B} {y x : L} {node : N} {i k : Nat}
    {item : Item L} : (XTrees.overArchetypes f t).Place y node i item k x
      ↔ t.Place y node i item k x :=
  ⟨fun h => ⟨h.1, h.2, h.3, h.4⟩, fun h => ⟨h.1, h.2, h.3, h.4⟩⟩

/-- The database, with archetypes that stand for others. -/
def overArchetypes (f : A → B) (db : XTreeDatabase L N B) : XTreeDatabase L N A where
  toXTrees := XTrees.overArchetypes f db.toXTrees
  treesByOrdinal := db.treesByOrdinal
  rows := db.rows
  incomingXLinks := db.incomingXLinks
  row_root := db.row_root
  row_child y hy node i item k x h := db.row_child y hy node i item k x (place_overArchetypes.mp h)
  row_only x hx := by
    rcases db.row_only x hx with ho | ⟨y, hy, node, i, item, k, h⟩
    · exact .inl ho
    · exact .inr ⟨y, hy, node, i, item, k, place_overArchetypes.mpr h⟩
  row_nonnull := db.row_nonnull
  container_nonnull := db.container_nonnull
  incoming := db.incoming
  rule217 y hy z hz node i item k x h := db.rule217 y hy z hz node i item k x
    (place_overArchetypes.mp h)
  acyclic := by
    obtain ⟨depth, hdepth⟩ := db.acyclic
    exact ⟨depth, fun y hy node i item k x h => hdepth y hy node i item k x
      (place_overArchetypes.mp h)⟩

end

/-- Trees of one node, under any archetypes: no node is in a category. -/
def leaves (A : Type) (n : Nat) : XTreeDatabase Nat Nat A :=
  overArchetypes (fun _ => ()) (leafDatabase n)

variable {A : Type}

theorem leaves_position {n l : Nat} (h : l < n) :
    Position (leaves A n) l [toLex ((l : Int), -1)] := by
  refine .root ?_
  show (if (0 : Int) ≤ l ∧ (l : Int) < n then some (l : Int).toNat else none) = some l
  rw [if_pos (by omega), Int.toNat_natCast]

/-- The links compare by their trees. -/
theorem leaves_below {n i j : Nat} (hi : i < n) (hj : j < n) :
    Below (DepthFirstRelation.compare3Way (leaves A n)) (.link i) (.link j) ↔ i < j := by
  obtain ⟨d, hd, hlt, _⟩ := DepthFirstRelation.compare3Way_total
    (leaves_position (A := A) hi) (leaves_position hj)
  have hpaths : [toLex ((i : Int), (-1 : Int))] < [toLex ((j : Int), (-1 : Int))] ↔ i < j := by
    rw [List.cons_lt_cons_iff, Prod.Lex.toLex_lt_toLex]
    simp
  rw [← hpaths, ← hlt]
  unfold Below
  rw [hd]
  simp

end Inferno.SYM
