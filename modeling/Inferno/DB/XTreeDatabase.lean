/-
  Inferno.DB.XTreeDatabase
  ────────────────────────
  The trees of the database, and the tables the queries read about them.

    • `XLink`, `Item`       — a link is the address of a `TreePtr` inside a node's
                              itemisation, or one of the two magic links,
    • `CoreInfo`, `Row`     — what the walker tells `LinkTable` about a link, and
                              the row `GenerateRow` makes of it,
    • `XTreeDatabase`       — trees and tables; the fields below the tables say
                              that the rows are those of the links in the trees,
    • where a link sits     — a link has one place, and its row tells which.
-/
import Inferno.Common.StdMap
import Mathlib.Data.List.Nodup
import Mathlib.Data.List.NodupEquivFin

namespace Inferno.DB

open Inferno.Common

/-! ## §1. Links and itemisations. -/

/-- `VN::XLink`, over the addresses `L` of the `TreePtr`s in nodes; `XLink()` is
`none` of an `Option`. -/
inductive XLink (L : Type) where
  | link (l : L)
  | MMAX
  | OffEnd
deriving DecidableEq

/-- `Itemiser::Element`. -/
inductive Item (L : Type) where
  | singular (l : L)
  | sequence (ls : List L)
  | collection (ls : List L)
deriving DecidableEq

/-- The `TreePtr`s of an item. -/
def Item.links {L : Type} : Item L → List L
  | .singular l => [l]
  | .sequence ls => ls
  | .collection ls => ls

/-! ## §2. Rows. -/

/-- `DBCommon::Context`. -/
inductive Context where
  | root
  | singular
  | inSequence
  | inCollection
  | unknown
deriving DecidableEq

/-- `DBCommon::CoreInfo`.  A container is given by its contents, and the iterator
on it by the container ordinal. -/
structure CoreInfo (L N : Type) where
  parentNode : Option N
  itemOrdinal : Int
  contextType : Context
  pContainer : List L
  containerOrdinal : Int

/-- `LinkTable::Row`. -/
structure Row (L N : Type) extends CoreInfo L N where
  containerFront : Option (XLink L) := none
  containerBack : Option (XLink L) := none
  sequencePredecessor : Option (XLink L) := none
  sequenceSuccessor : Option (XLink L) := none
  treeOrdinal : Int := -1

/-- `DBCommon::root_core_info`. -/
def rootCoreInfo {L N : Type} : CoreInfo L N :=
  ⟨none, -1, .root, [], -1⟩

/-- What `VisitSingular`, `VisitSequence` and `VisitCollection` say of the link at
place `k` of item `i` of `node`. -/
def visitInfo {L N : Type} (node : N) (i : Nat) (item : Item L) (k : Nat) : CoreInfo L N :=
  match item with
  | .singular _ => ⟨some node, i, .singular, [], -1⟩
  | .sequence ls => ⟨some node, i, .inSequence, ls, k⟩
  | .collection ls => ⟨some node, i, .inCollection, ls, k⟩

/-- `LinkTable::GenerateRow`; `none` is its `ASSERTFAIL`. -/
def generateRow {L N : Type} (xlink : L) (treeOrdinal : Int) (coreInfo : CoreInfo L N) :
    Option (Row L N) :=
  let row : Row L N := { coreInfo with }
  match coreInfo.contextType with
  | .root => some { row with
      treeOrdinal := treeOrdinal
      containerFront := some (.link xlink)
      containerBack := some (.link xlink) }
  | .singular => some { row with
      containerFront := some (.link xlink)
      containerBack := some (.link xlink) }
  | .inSequence =>
      let k := coreInfo.containerOrdinal.toNat
      some { row with
        containerFront := coreInfo.pContainer.head?.map XLink.link
        containerBack := coreInfo.pContainer.getLast?.map XLink.link
        sequencePredecessor :=
          if k = 0 then some .OffEnd else coreInfo.pContainer[k - 1]?.map XLink.link
        sequenceSuccessor := some ((coreInfo.pContainer[k + 1]?.map XLink.link).getD .OffEnd) }
  | .inCollection => some { row with
      containerFront := coreInfo.pContainer.head?.map XLink.link
      containerBack := coreInfo.pContainer.getLast?.map XLink.link }
  | .unknown => none

/-! ## §3. The trees. -/

/-- The tree nodes `N` and their links, as the heap holds them.  Archetypes are `A`;
an archetype itemises a node of its subcategory by its own members, which are
members of the node. -/
structure XTrees (L N A : Type) where
  /-- `TreePtr::get`, `none` for a null pointer. -/
  childOf : L → Option N
  itemise : N → List (Item L)
  mmaxNode : N
  offEndNode : N
  isSubcategory : A → N → Bool
  itemiseAs : A → N → List (Item L)
  itemiseAs_sub : ∀ a node, isSubcategory a node = true →
    ∀ item ∈ itemiseAs a node, item ∈ itemise node

namespace XTrees

variable {L N A : Type}

/-- `XLink::GetChildTreePtr`. -/
def getChildTreePtr (t : XTrees L N A) : XLink L → Option N
  | .link l => t.childOf l
  | .MMAX => some t.mmaxNode
  | .OffEnd => some t.offEndNode

/-- **The place of a link**: `x` is a non-null link at place `k` of item `i` of
`node`, the child of `y`. -/
structure Place (t : XTrees L N A) (y : L) (node : N) (i : Nat) (item : Item L) (k : Nat)
    (x : L) : Prop where
  child : t.childOf y = some node
  item_mem : (item, i) ∈ (t.itemise node).zipIdx
  link_mem : (x, k) ∈ item.links.zipIdx
  nonnull : (t.childOf x).isSome

end XTrees

/-! ## §4. The database. -/

/-- **`XTreeDatabase`**: the trees, the link table and the node table. -/
structure XTreeDatabase (L N A : Type) extends XTrees L N A where
  /-- `GetRootXLink`. -/
  treesByOrdinal : StdMap Int L
  rows : StdMap L (Row L N)
  /-- `NodeTable`'s rows: the incoming links of each node. -/
  incomingXLinks : StdMap N (Finset L)
  row_root : ∀ o x, treesByOrdinal.lookup o = some x →
    rows.lookup x = generateRow x o rootCoreInfo
  row_child : ∀ y ∈ rows.keys, ∀ node i item k x, toXTrees.Place y node i item k x →
    rows.lookup x = generateRow x 0 (visitInfo node i item k)
  /-- No other link has a row. -/
  row_only : ∀ x ∈ rows.keys, (∃ o, treesByOrdinal.lookup o = some x)
    ∨ ∃ y ∈ rows.keys, ∃ node i item k, toXTrees.Place y node i item k x
  row_nonnull : ∀ x ∈ rows.keys, (childOf x).isSome
  /-- Only singular links may be null. -/
  container_nonnull : ∀ y ∈ rows.keys, ∀ node ∈ childOf y, ∀ item ∈ itemise node,
    ∀ x ∈ item.links, item ≠ .singular x → (childOf x).isSome
  incoming : ∀ node x, (∃ xs, incomingXLinks.lookup node = some xs ∧ x ∈ xs)
    ↔ x ∈ rows.keys ∧ childOf x = some node
  /-- Rule #217: several incoming links only at a leaf. -/
  rule217 : ∀ y ∈ rows.keys, ∀ z ∈ rows.keys, ∀ node i item k x,
    toXTrees.Place y node i item k x → childOf z = some node → z = y
  acyclic : ∃ depth : L → Nat, ∀ y ∈ rows.keys, ∀ node i item k x,
    toXTrees.Place y node i item k x → depth y < depth x

namespace XTreeDatabase

variable {L N A : Type}

/-- `HasRow`; the magic links have none. -/
def hasRow (db : XTreeDatabase L N A) : XLink L → Bool
  | .link l => (db.rows.lookup l).isSome
  | _ => false

/-- `GetRow`. -/
def getRow (db : XTreeDatabase L N A) : XLink L → Option (Row L N)
  | .link l => db.rows.lookup l
  | _ => none

/-- `TryGetParentXLink`; the inner `none` is `XLink()`. -/
def tryGetParentXLink [LinearOrder L] (db : XTreeDatabase L N A) (xlink : XLink L) :
    Option (Option (XLink L)) := do
  let row ← db.getRow xlink
  match row.parentNode with
  | none => some none
  | some parentNode => do
      let ps ← db.incomingXLinks.lookup parentNode
      match inOrder ps with
      | [] => some none
      | [p] => some (some (.link p))
      | _ => none

end XTreeDatabase

/-! ## §5. Where a link sits. -/

section

variable {L N A : Type} {x : L} {o : Int} {core : CoreInfo L N} {row : Row L N}

/-- A row extends the core info it was generated from. -/
theorem generateRow_core (h : generateRow x o core = some row) : row.toCoreInfo = core := by
  unfold generateRow at h
  cases hc : core.contextType <;> simp only [hc] at h <;> cases h <;> simp

theorem generateRow_visitInfo_isSome (node : N) (i : Nat) (item : Item L) (k : Nat) :
    (generateRow x o (visitInfo node i item k)).isSome := by
  cases item <;> rfl

namespace XTreeDatabase

variable {db : XTreeDatabase L N A} {y y' : L} {node node' : N} {i i' : Nat}
  {item item' : Item L} {k k' : Nat}

theorem item_getElem (h : db.Place y node i item k x) : (db.itemise node)[i]? = some item :=
  List.mem_zipIdx_iff_getElem?.mp h.item_mem

theorem link_getElem (h : db.Place y node i item k x) : item.links[k]? = some x :=
  List.mem_zipIdx_iff_getElem?.mp h.link_mem

/-- A link that has a place has the row for it. -/
theorem exists_row (hy : y ∈ db.rows.keys) (h : db.Place y node i item k x) :
    ∃ row, db.rows.lookup x = some row ∧ row.toCoreInfo = visitInfo node i item k
      ∧ generateRow x 0 (visitInfo node i item k) = some row := by
  obtain ⟨row, hrow⟩ := Option.isSome_iff_exists.mp
    (generateRow_visitInfo_isSome (x := x) (o := 0) node i item k)
  exact ⟨row, by rw [db.row_child y hy node i item k x h, hrow], generateRow_core hrow, hrow⟩

/-- **A link has one place.** -/
theorem place_unique (hy : y ∈ db.rows.keys) (hy' : y' ∈ db.rows.keys)
    (h : db.Place y node i item k x) (h' : db.Place y' node' i' item' k' x) :
    y = y' ∧ node = node' ∧ i = i' ∧ item = item' ∧ k = k' := by
  obtain ⟨row, hrow, hcore, _⟩ := exists_row hy h
  obtain ⟨row', hrow', hcore', _⟩ := exists_row hy' h'
  have heq : visitInfo node i item k = visitInfo node' i' item' k' := by
    rw [← hcore, ← hcore', Option.some.inj (hrow.symm.trans hrow')]
  have hnode : node = node' := by
    have hp := congrArg CoreInfo.parentNode heq
    cases item <;> cases item' <;> simpa [visitInfo] using hp
  have hi : i = i' := by
    have ho := congrArg CoreInfo.itemOrdinal heq
    cases item <;> cases item' <;> simpa [visitInfo, Int.ofNat_inj] using ho
  subst hnode
  subst hi
  have hitem : item = item' :=
    Option.some.inj ((item_getElem h).symm.trans (item_getElem h'))
  subst hitem
  have hk : k = k' := by
    have ho := congrArg CoreInfo.containerOrdinal heq
    have hl := link_getElem h
    have hl' := link_getElem h'
    cases item with
    | singular l =>
        -- a singular item has the one place
        have hzero : ∀ j, [l][j]? = some x → j = 0 := by
          intro j hj
          have hlt := (List.getElem?_eq_some_iff.mp hj).1
          simpa using hlt
        rw [hzero k hl, hzero k' hl']
    | sequence ls => simpa [visitInfo, Int.ofNat_inj] using ho
    | collection ls => simpa [visitInfo, Int.ofNat_inj] using ho
  exact ⟨db.rule217 y' hy' y hy node i item k x ⟨h'.child, h.item_mem, h.link_mem, h.nonnull⟩
    h.child, rfl, rfl, rfl, hk⟩

/-! ## §6. The rows of a container. -/

/-- No row has `OffEnd` for its container's front. -/
theorem containerFront_ne_offEnd {row : Row L N} (hrow : db.rows.lookup x = some row) :
    row.containerFront ≠ some .OffEnd := by
  rcases db.row_only x (StdMap.mem_keys_of_lookup hrow) with
    ⟨o, ho⟩ | ⟨y', hy', node', i', item', k', hp⟩
  · have hgen := db.row_root o x ho
    rw [hrow] at hgen
    cases hgen
    simp
  · have hgen := db.row_child y' hy' node' i' item' k' x hp
    rw [hrow] at hgen
    cases item' <;> cases hgen <;> simp [visitInfo]

/-- `item` is the container, a sequence or a collection, at item `i` of the child
`node` of `y`. -/
structure ContainerAt (db : XTreeDatabase L N A) (y : L) (node : N) (i : Nat) (item : Item L) :
    Prop where
  row : y ∈ db.rows.keys
  child : db.childOf y = some node
  item_mem : (item, i) ∈ (db.itemise node).zipIdx
  notSingular : ∀ l, item ≠ .singular l

section Container

variable (hc : db.ContainerAt y node i item)

include hc

theorem ContainerAt.place {k : Nat} (hk : item.links[k]? = some x) :
    db.Place y node i item k x := by
  refine ⟨hc.child, hc.item_mem, List.mem_zipIdx_iff_getElem?.mpr hk, ?_⟩
  have hitem : item ∈ db.itemise node :=
    List.mem_of_getElem? (List.mem_zipIdx_iff_getElem?.mp hc.item_mem)
  exact db.container_nonnull y hc.row node (by simp [hc.child]) _ hitem x
    (List.mem_of_getElem? hk) (hc.notSingular x)

theorem ContainerAt.nodup : item.links.Nodup := by
  rw [List.nodup_iff_getElem?_ne_getElem?]
  intro k k' hlt hlen heq
  obtain ⟨z, hk⟩ : ∃ z, item.links[k]? = some z := Option.isSome_iff_exists.mp (by simp; omega)
  have hsame := (place_unique hc.row hc.row (hc.place hk) (hc.place (heq ▸ hk))).2.2.2.2
  omega

/-- The front of the container, in the row of its `k`th element. -/
theorem ContainerAt.row_front {k : Nat} (hk : item.links[k]? = some x) :
    ∃ row, db.rows.lookup x = some row
      ∧ row.containerFront = item.links.head?.map XLink.link := by
  have hrow := db.row_child y hc.row node i item k x (hc.place hk)
  cases item with
  | singular l => exact absurd rfl (hc.notSingular l)
  | sequence ls => exact ⟨_, hrow, rfl⟩
  | collection ls => exact ⟨_, hrow, rfl⟩

/-- **Being in a non-empty container is having its front**, for every link of the
database. -/
theorem ContainerAt.containerFront_iff {f : L} (hf : item.links.head? = some f) :
    (∃ row, db.rows.lookup x = some row ∧ row.containerFront = some (.link f))
      ↔ x ∈ item.links := by
  have hf0 : item.links[0]? = some f := by rw [← List.head?_eq_getElem?, hf]
  constructor
  · rintro ⟨row, hrow, hfront⟩
    -- a link that is its own front is the front
    have hself : x = f → x ∈ item.links := by
      intro hxf
      rw [hxf]
      exact List.mem_of_getElem? hf0
    rcases db.row_only x (StdMap.mem_keys_of_lookup hrow) with
      ⟨o, ho⟩ | ⟨y', hy', node', i', item', k', hp⟩
    · have hgen := db.row_root o x ho
      rw [hrow] at hgen
      cases hgen
      exact hself (by simpa using hfront)
    · have hgen := db.row_child y' hy' node' i' item' k' x hp
      rw [hrow] at hgen
      -- the front of a container is its first element, whose place is unique
      have hsame : item'.links.head? = some f → x ∈ item.links := by
        intro hhead
        have hplace : db.Place y' node' i' item' 0 f := by
          refine ⟨hp.child, hp.item_mem, ?_, (hc.place hf0).nonnull⟩
          rw [List.mem_zipIdx_iff_getElem?]
          simpa [List.head?_eq_getElem?] using hhead
        have hitem := (place_unique hy' hc.row hplace (hc.place hf0)).2.2.2.1
        exact hitem ▸ List.mem_of_getElem? (link_getElem hp)
      cases item' with
      | singular l =>
          cases hgen
          exact hself (by simpa [visitInfo] using hfront)
      | sequence ls =>
          cases hgen
          exact hsame (by simpa [visitInfo, Item.links] using hfront)
      | collection ls =>
          cases hgen
          exact hsame (by simpa [visitInfo, Item.links] using hfront)
  · intro hx
    obtain ⟨k, hk⟩ := List.mem_iff_getElem?.mp hx
    obtain ⟨row, hrow, hfront⟩ := hc.row_front hk
    exact ⟨row, hrow, by rw [hfront, hf]; rfl⟩

end Container

/-! ## §7. The rows of a sequence. -/

/-- `xs` is the sequence at item `i` of the child `node` of `y`. -/
structure SequenceAt (db : XTreeDatabase L N A) (y : L) (node : N) (i : Nat) (xs : List L) :
    Prop where
  row : y ∈ db.rows.keys
  child : db.childOf y = some node
  item : (.sequence xs, i) ∈ (db.itemise node).zipIdx

section Sequence

variable {xs : List L} (hs : db.SequenceAt y node i xs)

include hs

theorem SequenceAt.containerAt : db.ContainerAt y node i (.sequence xs) :=
  ⟨hs.row, hs.child, hs.item, by simp⟩

theorem SequenceAt.place {k : Nat} (hk : xs[k]? = some x) :
    db.Place y node i (.sequence xs) k x :=
  hs.containerAt.place hk

/-- The row of the `k`th element. -/
theorem SequenceAt.row_at {k : Nat} (hk : xs[k]? = some x) :
    ∃ row, db.rows.lookup x = some row ∧ row.parentNode = some node ∧ row.itemOrdinal = i
      ∧ row.containerOrdinal = k ∧ row.containerFront = xs.head?.map XLink.link
      ∧ row.containerBack = xs.getLast?.map XLink.link
      ∧ row.sequenceSuccessor = some ((xs[k + 1]?.map XLink.link).getD .OffEnd) := by
  refine ⟨_, db.row_child y hs.row node i _ k x (hs.place hk), rfl, rfl, rfl, rfl, rfl, ?_⟩
  simp [visitInfo]

/-- The iterator in the row of the `k`th element. -/
theorem SequenceAt.row_container {k : Nat} (hk : xs[k]? = some x) :
    ∃ row, db.rows.lookup x = some row ∧ row.contextType = .inSequence ∧ row.pContainer = xs
      ∧ row.containerOrdinal = k :=
  ⟨_, db.row_child y hs.row node i _ k x (hs.place hk), rfl, rfl, rfl⟩

theorem SequenceAt.nodup : xs.Nodup :=
  hs.containerAt.nodup

theorem SequenceAt.containerFront_iff {f : L} (hf : xs.head? = some f) :
    (∃ row, db.rows.lookup x = some row ∧ row.containerFront = some (.link f)) ↔ x ∈ xs :=
  hs.containerAt.containerFront_iff hf

end Sequence

end XTreeDatabase

end

end Inferno.DB
