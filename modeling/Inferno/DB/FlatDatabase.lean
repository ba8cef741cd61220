/-
  Inferno.DB.FlatDatabase
  ───────────────────────
  The databases of one tree of height one, for concrete inputs.

    • `Layout`        — the items of the root's node, which has a child at each link
                        from 1 to `count`,
    • `flatTrees`     — the tree: link 0 to the node 0, link `l` to the leaf `l`,
    • `flatDatabase`  — its database,
    • `withArchetypes` — a database under other archetypes.
-/
import Inferno.DB.XTreeDatabase
import Mathlib.Data.List.Range

namespace Inferno.DB

open Inferno.Common

/-! ## §1. Layouts. -/

/-- The items of a node whose links are 1 to `count`, in order. -/
structure Layout where
  items : List (Item Nat)
  count : Nat
  links_eq : items.flatMap Item.links = List.range' 1 count

namespace Layout

/-- The links of the items, each with what the walker says of it. -/
def entries (lay : Layout) : List (Nat × CoreInfo Nat Nat) :=
  lay.items.zipIdx.flatMap (fun item =>
    item.1.links.zipIdx.map (fun x => (x.1, visitInfo 0 item.2 item.1 x.2)))

theorem mem_entries {lay : Layout} {x : Nat} {core : CoreInfo Nat Nat} :
    (x, core) ∈ lay.entries ↔ ∃ item i k, (item, i) ∈ lay.items.zipIdx
      ∧ (x, k) ∈ item.links.zipIdx ∧ core = visitInfo 0 i item k := by
  unfold entries
  simp only [List.mem_flatMap, List.mem_map, Prod.exists, Prod.mk.injEq]
  constructor
  · intro h
    obtain ⟨item, i, hitem, z, k, hlink, rfl, rfl⟩ := h
    exact ⟨item, i, k, hitem, hlink, rfl⟩
  · intro h
    obtain ⟨item, i, k, hitem, hlink, rfl⟩ := h
    exact ⟨item, i, hitem, x, k, hlink, rfl, rfl⟩

/-- The entries are for the links 1 to `count`, one each. -/
theorem entries_fst (lay : Layout) : lay.entries.map Prod.fst = List.range' 1 lay.count := by
  have hinner : ∀ (items : List (Item Nat)) (n : Nat),
      ((items.zipIdx n).flatMap (fun item =>
        item.1.links.zipIdx.map (fun x => (x.1, visitInfo (L := Nat) 0 item.2 item.1 x.2)))).map
          Prod.fst = items.flatMap Item.links := by
    intro items
    induction items with
    | nil => intro n; rfl
    | cons item items ih =>
        intro n
        rw [List.zipIdx_cons, List.flatMap_cons, List.map_append, ih, List.flatMap_cons,
          List.map_map]
        congr 1
        show item.links.zipIdx.map Prod.fst = item.links
        exact List.zipIdx_map_fst 0 item.links
  exact (hinner lay.items 0).trans lay.links_eq

/-- The entry of a link. -/
def find (lay : Layout) (x : Nat) : Option (CoreInfo Nat Nat) :=
  lay.entries.lookup x

theorem find_eq_some_iff {lay : Layout} {x : Nat} {core : CoreInfo Nat Nat} :
    lay.find x = some core ↔ (x, core) ∈ lay.entries := by
  have hnodup : (lay.entries.map Prod.fst).Nodup := by
    rw [entries_fst]
    exact List.nodup_range'
  unfold find
  generalize lay.entries = es at hnodup
  induction es with
  | nil => simp
  | cons e es ih =>
      obtain ⟨z, c⟩ := e
      rw [List.map_cons, List.nodup_cons] at hnodup
      have hrest := ih hnodup.2
      by_cases hz : x = z
      · subst hz
        have habsent : (x, core) ∉ es :=
          fun h => hnodup.1 (List.mem_map.mpr ⟨_, h, rfl⟩)
        simp [habsent, eq_comm]
      · have hne : (x == z) = false := by simp [hz]
        simp [List.lookup_cons, hne, hz, hrest]

theorem mem_fst_iff {lay : Layout} {x : Nat} :
    (lay.find x).isSome ↔ 1 ≤ x ∧ x ≤ lay.count := by
  have hmem : (∃ core, (x, core) ∈ lay.entries) ↔ x ∈ lay.entries.map Prod.fst := by
    simp
  rw [Option.isSome_iff_exists]
  simp only [find_eq_some_iff]
  rw [hmem, entries_fst, List.mem_range'_1]
  omega

end Layout

/-! ## §2. The tree. -/

/-- The trees of a root, link 0, to the node 0 with the items of the layout; a node has
the number of its link. -/
def flatTrees (lay : Layout) : XTrees Nat Nat Unit where
  childOf l := if l ≤ lay.count then some l else none
  itemise node := if node = 0 then lay.items else []
  mmaxNode := lay.count + 1
  offEndNode := lay.count + 2
  isSubcategory _ node := decide (node = 0)
  itemiseAs _ node := if node = 0 then lay.items else []
  itemiseAs_sub := by
    intro _ node _ item hitem
    exact hitem

theorem flatTrees_place {lay : Layout} {y node i k x : Nat} {item : Item Nat}
    (h : (flatTrees lay).Place y node i item k x) :
    y = 0 ∧ node = 0 ∧ lay.find x = some (visitInfo 0 i item k) ∧ 1 ≤ x ∧ x ≤ lay.count := by
  have hchild := h.child
  have hitem := h.item_mem
  simp only [flatTrees] at hchild hitem
  split at hchild
  next =>
    rw [Option.some.injEq] at hchild
    split at hitem
    next hnode =>
      have hfind : lay.find x = some (visitInfo 0 i item k) :=
        Layout.find_eq_some_iff.mpr (Layout.mem_entries.mpr ⟨item, i, k, hitem, h.link_mem, rfl⟩)
      have hrange := Layout.mem_fst_iff.mp (Option.isSome_iff_exists.mpr ⟨_, hfind⟩)
      exact ⟨hchild.trans hnode, hnode, hfind, hrange.1, hrange.2⟩
    next => simp at hitem
  next => cases hchild

/-- The row of a link. -/
def flatRow (lay : Layout) (l : Nat) : Option (Row Nat Nat) :=
  if l = 0 then generateRow 0 0 rootCoreInfo else (lay.find l).bind (generateRow l 0)

/-! ## §3. The database. -/

/-- The database of that tree. -/
def flatDatabase (lay : Layout) : XTreeDatabase Nat Nat Unit where
  toXTrees := flatTrees lay
  treesByOrdinal := StdMap.empty.set 0 0
  rows :=
    { lookup := flatRow lay
      keys := Finset.range (lay.count + 1)
      mem_keys := by
        intro l
        rw [Finset.mem_range, Nat.lt_succ_iff]
        unfold flatRow
        by_cases hl : l = 0
        · simp [hl, generateRow, rootCoreInfo]
        · rw [if_neg hl]
          have hfind : (lay.find l).isSome ↔ 1 ≤ l ∧ l ≤ lay.count := Layout.mem_fst_iff
          cases hcore : lay.find l with
          | none =>
              rw [hcore] at hfind
              simp at hfind ⊢
              omega
          | some core =>
              obtain ⟨item, i, k, _, _, rfl⟩ :=
                Layout.mem_entries.mp (Layout.find_eq_some_iff.mp hcore)
              rw [hcore] at hfind
              have hrange := hfind.mp rfl
              simp [hrange.2, generateRow_visitInfo_isSome] }
  incomingXLinks :=
    { lookup := fun node => if node ≤ lay.count then some {node} else none
      keys := Finset.range (lay.count + 1)
      mem_keys := by
        intro node
        rw [Finset.mem_range, Nat.lt_succ_iff]
        by_cases hn : node ≤ lay.count <;> simp [hn] }
  row_root := by
    intro o x h
    rw [StdMap.lookup_set] at h
    split at h
    next ho =>
      cases h
      rw [ho]
      rfl
    next => simp [StdMap.lookup_empty] at h
  row_child := by
    intro y _ node i item k x h
    obtain ⟨_, rfl, hfind, hpos, _⟩ := flatTrees_place h
    show flatRow lay x = _
    unfold flatRow
    rw [if_neg (by omega), hfind]
    rfl
  row_only := by
    intro x hx
    rw [Finset.mem_range, Nat.lt_succ_iff] at hx
    by_cases hx0 : x = 0
    · exact Or.inl ⟨0, by simp [hx0, StdMap.lookup_set]⟩
    · have hsome := Layout.mem_fst_iff.mpr ⟨Nat.one_le_iff_ne_zero.mpr hx0, hx⟩
      obtain ⟨core, hcore⟩ := Option.isSome_iff_exists.mp hsome
      obtain ⟨item, i, k, hitem, hlink, _⟩ :=
        Layout.mem_entries.mp (Layout.find_eq_some_iff.mp hcore)
      exact Or.inr ⟨0, by simp, 0, i, item, k, by simp [flatTrees], by simpa [flatTrees] using hitem,
        hlink, by simp [flatTrees, hx]⟩
  row_nonnull := by
    intro x hx
    rw [Finset.mem_range, Nat.lt_succ_iff] at hx
    simp [flatTrees, hx]
  container_nonnull := by
    intro y _ node _ item hitem x hx _
    simp only [flatTrees] at hitem
    split at hitem
    next =>
      have hmem : x ∈ List.range' 1 lay.count := by
        rw [← lay.links_eq]
        exact List.mem_flatMap.mpr ⟨item, hitem, hx⟩
      rw [List.mem_range'_1] at hmem
      simp [flatTrees, (by omega : x ≤ lay.count)]
    next => cases hitem
  incoming := by
    intro node x
    by_cases hn : node ≤ lay.count <;> simp [hn, flatTrees] <;> omega
  rule217 := by
    intro y _ z _ node i item k x h hz
    obtain ⟨hy, hnode, _⟩ := flatTrees_place h
    simp only [flatTrees] at hz
    split at hz
    next =>
      rw [Option.some.injEq] at hz
      omega
    next => cases hz
  acyclic := by
    refine ⟨id, ?_⟩
    intro y _ node i item k x h
    obtain ⟨hy, _, _, hx, _⟩ := flatTrees_place h
    show y < x
    omega

/-! ## §4. Archetypes. -/

/-- The same trees under other archetypes. -/
def XTrees.withArchetypes {L N A B : Type} (t : XTrees L N A) (isSubcategory : B → N → Bool)
    (itemiseAs : B → N → List (Item L))
    (itemiseAs_sub : ∀ archetypeNode node, isSubcategory archetypeNode node = true →
      ∀ item ∈ itemiseAs archetypeNode node, item ∈ t.itemise node) : XTrees L N B where
  childOf := t.childOf
  itemise := t.itemise
  mmaxNode := t.mmaxNode
  offEndNode := t.offEndNode
  isSubcategory := isSubcategory
  itemiseAs := itemiseAs
  itemiseAs_sub := itemiseAs_sub

section

variable {L N A B : Type} {t : XTrees L N A} {isSubcategory : B → N → Bool}
  {itemiseAs : B → N → List (Item L)} {itemiseAs_sub : ∀ archetypeNode node,
    isSubcategory archetypeNode node = true →
      ∀ item ∈ itemiseAs archetypeNode node, item ∈ t.itemise node}
  {y x : L} {node : N} {i k : Nat} {item : Item L}

/-- The places are the same. -/
theorem place_withArchetypes :
    (t.withArchetypes isSubcategory itemiseAs itemiseAs_sub).Place y node i item k x
      ↔ t.Place y node i item k x := by
  constructor
  · intro h
    exact ⟨h.child, h.item_mem, h.link_mem, h.nonnull⟩
  · intro h
    exact ⟨h.child, h.item_mem, h.link_mem, h.nonnull⟩

end

/-- The database of the same trees under other archetypes. -/
def XTreeDatabase.withArchetypes {L N A B : Type} (db : XTreeDatabase L N A)
    (isSubcategory : B → N → Bool) (itemiseAs : B → N → List (Item L))
    (itemiseAs_sub : ∀ archetypeNode node, isSubcategory archetypeNode node = true →
      ∀ item ∈ itemiseAs archetypeNode node, item ∈ db.itemise node) : XTreeDatabase L N B where
  toXTrees := db.toXTrees.withArchetypes isSubcategory itemiseAs itemiseAs_sub
  treesByOrdinal := db.treesByOrdinal
  rows := db.rows
  incomingXLinks := db.incomingXLinks
  row_root := db.row_root
  row_child y hy node i item k x h :=
    db.row_child y hy node i item k x (place_withArchetypes.mp h)
  row_only := by
    intro x hx
    rcases db.row_only x hx with h | ⟨y, hy, node, i, item, k, h⟩
    · exact Or.inl h
    · exact Or.inr ⟨y, hy, node, i, item, k, place_withArchetypes.mpr h⟩
  row_nonnull := db.row_nonnull
  container_nonnull := db.container_nonnull
  incoming := db.incoming
  rule217 y hy z hz node i item k x h :=
    db.rule217 y hy z hz node i item k x (place_withArchetypes.mp h)
  acyclic := by
    obtain ⟨depth, h⟩ := db.acyclic
    exact ⟨depth, fun y hy node i item k x hplace =>
      h y hy node i item k x (place_withArchetypes.mp hplace)⟩

/-- The flat database under three archetypes: 0 of every node, 1 of the root's, with its
items, and 2 of the leaves. -/
def classedDatabase (lay : Layout) : XTreeDatabase Nat Nat Nat :=
  (flatDatabase lay).withArchetypes
    (fun archetypeNode node => archetypeNode == 0 || archetypeNode == if node = 0 then 1 else 2)
    (fun archetypeNode node => if archetypeNode = 1 ∧ node = 0 then lay.items else [])
    (by
      intro archetypeNode node _ item hitem
      show item ∈ if node = 0 then lay.items else []
      by_cases hnode : node = 0
      · rw [if_pos hnode]
        by_cases harchetype : archetypeNode = 1
        · simpa [hnode, harchetype] using hitem
        · simp [harchetype] at hitem
      · simp [hnode] at hitem)

end Inferno.DB
