/-
  Inferno.DB.TreeZone
  ───────────────────
  Zones of the trees of the database, and what moves them.

    • `TreeZone`       — a base link and the terminus links where the zone ends,
    • `duplicate`      — a free zone with copies of the zone's nodes,
    • `getRow`, `getNodeRow` — what the tables tell of the trees as they stand,
    • `buildTree`, `teardownTree` — the principal mutators.

  The tables are given by a walk of the trees that are not torn down.
-/
import Inferno.DB.FreeZone

namespace Inferno.DB

open Inferno.Common Update

/-! ## §1. Tree zones. -/

/-- `TreeZone`. -/
structure TreeZone where
  base : Nat
  terminii : List Nat
  ordinal : Int
deriving DecidableEq

namespace TreeZone

/-- The constructor `TreeZone(base, terminii, ordinal)`. -/
def make (base : Nat) (terminii : List Nat) (ordinal : Int) : Update TreeZone := do
  assert (← getChild base).isSome
  return ⟨base, terminii, ordinal⟩

/-- `IsEmpty`. -/
def isEmpty (z : TreeZone) : Bool :=
  z.terminii = [z.base]

end TreeZone

/-! ## §2. Duplication. -/

/-- The mode of a terminus of an item. -/
def Item.mode {L : Type} : Item L → Mode
  | .singular _ => .singular
  | _ => .container

/-- The members of the destination node that stand for the links of one item: the
terminii met become placeholders with a mutator, and `worker` copies the rest. -/
def Duplicate.links (terminii : List Nat) (worker : Nat → Update (Nat × List (Nat × Mutator)))
    (dest i : Nat) (mode : Mode) : List Nat → Update (List Nat × List (Nat × Mutator))
  | [] => return ([], [])
  | x :: xs => do
      let some child ← getChild x | failure
      let (slot, found) ← (if x ∈ terminii then do
          let slot ← newLink none
          return (slot, [(x, ⟨mode, dest, i, slot⟩)])
        else do
          let (destElt, found) ← worker child
          return (← newLink (some destElt), found) : Update (Nat × List (Nat × Mutator)))
      let (slots, rest) ← Duplicate.links terminii worker dest i mode xs
      return (slot :: slots, found ++ rest)

/-- The loop over the items. -/
def Duplicate.items (terminii : List Nat) (worker : Nat → Update (Nat × List (Nat × Mutator)))
    (dest : Nat) : Nat → List (Item Nat) → Update (List (Item Nat) × List (Nat × Mutator))
  | _, [] => return ([], [])
  | i, item :: rest => do
      let (slots, found) ← Duplicate.links terminii worker dest i item.mode item.links
      let destItem ← match item, slots with
        | .singular _, [slot] => pure (Item.singular slot)
        | .singular _, _ => failure
        | .sequence _, slots => pure (Item.sequence slots)
        | .collection _, slots => pure (Item.collection slots)
      let (items, found') ← Duplicate.items terminii worker dest (i + 1) rest
      return (destItem :: items, found ++ found')

/-- `Duplicate::DuplicateSubtreeWorker`; a specific identifier is its own duplicate. -/
def Duplicate.subtreeWorker (terminii : List Nat) : Nat → Nat →
    Update (Nat × List (Nat × Mutator))
  | 0, _ => failure
  | fuel + 1, source => do
      let record ← getNode source
      if record.kind = .identifier then
        return (source, [])
      let dest ← newNode { record with items := [], identifier_items := fun _ => rfl }
      let (items, found) ←
        Duplicate.items terminii (Duplicate.subtreeWorker terminii fuel) dest 0 record.items
      setItems dest items
      return (dest, found)

/-- `TreeZone::Duplicate`.  No path is longer than there are links. -/
def TreeZone.duplicate (z : TreeZone) : Update FreeZone := do
  if z.isEmpty then
    FreeZone.createEmpty
  else do
    assert (z.base ∉ z.terminii)
    let some sourceBase ← getChild z.base | failure
    let (newBase, found) ← Duplicate.subtreeWorker z.terminii (← get).nextLink sourceBase
    let some freeZoneTerminii := z.terminii.mapM fun t => (found.find? (·.1 = t)).map (·.2)
      | failure
    FreeZone.make (some newBase) freeZoneTerminii

/-! ## §3. The tables. -/

/-- The walk of a tree: its links, and what the walker tells of them. -/
def TreeHeap.walkTree (h : TreeHeap) : Nat → Nat → CoreInfo Nat Nat →
    List (Nat × CoreInfo Nat Nat)
  | 0, _, _ => []
  | fuel + 1, x, info =>
      match h.childOf x with
      | none => []
      | some node => (x, info) :: (h.nodeAt node).items.zipIdx.flatMap fun p =>
          p.1.links.zipIdx.flatMap fun q => h.walkTree fuel q.1 (visitInfo node p.2 p.1 q.2)

/-- The links of the trees in the tables. -/
def TreeHeap.domain (h : TreeHeap) : List (Nat × CoreInfo Nat Nat) :=
  (inOrder h.treesByOrdinal.keys).flatMap fun o =>
    match h.treesByOrdinal.lookup o with
    | some tree => if o ∈ h.deferredTreeOrdinals then []
        else h.walkTree h.nextLink tree.root rootCoreInfo
    | none => []

/-- `LinkTable::GetRow`. -/
def getRow (x : Nat) : Update (CoreInfo Nat Nat) := do
  let some row := (← get).domain.find? (·.1 = x) | failure
  return row.2

/-- `NodeTable::GetRow(node).incoming_xlinks`. -/
def getIncomingXLinks (node : Nat) : Update (List Nat) := do
  let h ← get
  let xlinks := (h.domain.filter fun row => h.childOf row.1 = some node).map (·.1)
  assert (xlinks ≠ [])
  return xlinks

/-! ## §4. The principal mutators. -/

/-- `AllocateTree`. -/
def allocateTree : Update Int := do
  let h ← get
  match h.freeTreeOrdinals with
  | [] => do
      set { h with nextTreeOrdinal := h.nextTreeOrdinal + 1 }
      return h.nextTreeOrdinal
  | assigned :: rest => do
      set { h with freeTreeOrdinals := rest }
      return assigned

/-- `GetRootXLink`. -/
def getRootXLink (ordinal : Int) : Update Nat := do
  let some tree := (← get).treesByOrdinal.lookup ordinal | failure
  return tree.root

/-- `GetMainTreeOrdinal`. -/
def getMainTreeOrdinal : Update Int := do
  return (← get).mainTreeOrdinal

/-- `BuildTree`. -/
def buildTree (type : TreeType) (freeZone : FreeZone) : Update Int := do
  let ordinal ← allocateTree
  let node ← freeZone.getBaseNode
  assert node.isSome
  let root ← newLink node
  let h ← get
  set { h with
    treesByOrdinal := h.treesByOrdinal.set ordinal ⟨root, type⟩
    mainTreeOrdinal := if type = TreeType.main then ordinal else h.mainTreeOrdinal }
  return ordinal

/-- `TeardownTree`. -/
def teardownTree (ordinal : Int) (deferFreeingNodes : Bool) : Update Unit := do
  let h ← get
  assert (ordinal ∈ h.treesByOrdinal.keys)
  if deferFreeingNodes then
    set { h with deferredTreeOrdinals := h.deferredTreeOrdinals ++ [ordinal] }
  else
    set { h with
      treesByOrdinal := h.treesByOrdinal.erase ordinal
      freeTreeOrdinals := h.freeTreeOrdinals ++ [ordinal] }

/-- `CreateTreeMutator`. -/
def createTreeMutator (x : Nat) : Update Mutator := do
  let row ← getRow x
  assert (← getChild x).isSome
  match row.contextType with
  | .root => return ⟨.root, 0, 0, x⟩
  | .singular => return ⟨.singular, row.parentNode.getD 0, row.itemOrdinal.toNat, x⟩
  | .inSequence => return ⟨.container, row.parentNode.getD 0, row.itemOrdinal.toNat, x⟩
  | .inCollection => return ⟨.container, row.parentNode.getD 0, row.itemOrdinal.toNat, x⟩
  | .unknown => failure

/-- `CreateTreeMutator` for each terminus. -/
def createTreeMutators : List Nat → Update (List Mutator)
  | [] => return []
  | x :: xs => do
      let m ← createTreeMutator x
      return m :: (← createTreeMutators xs)

/-- `Mutator::SwapParents`, but for the exchange of the mutators themselves. -/
def Mutator.swapParents (l r : Mutator) : Update Unit := do
  let childR ← r.getChildTreePtr
  let childL ← l.getChildTreePtr
  let _ ← l.exchangeChild childR
  let _ ← r.exchangeChild childL

end Inferno.DB
