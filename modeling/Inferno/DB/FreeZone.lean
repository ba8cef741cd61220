/-
  Inferno.DB.FreeZone
  ───────────────────
  Tree nodes in memory, and the zones that are in no tree yet.

    • `TreeHeap`   — the nodes and the `TreePtr`s, by their addresses, and the trees,
    • `Update`     — computations on them; an assertion ends one without a result,
    • `Mutator`    — a place in a parent node where a child can be exchanged,
    • `FreeZone`   — a base and the places where the zone ends,
    • `mergeTerminus` — another zone goes in at such a place,
    • `mergeAll`     — a zone for each of them.

  Collections are lists (`USE_LIST_FOR_COLLECTION`), so exchanging an element leaves
  its `TreePtr` where it is.
-/
import Inferno.Helpers.SimpleCompare

namespace Inferno.DB

open Inferno.Common Inferno.Helpers

/-! ## §1. Memory. -/

/-- What the passes ask about the type of a node. -/
inductive NodeKind where
  | plain
  | subContainer
  | scaffold
  | identifier
deriving DecidableEq

/-- A node: its type, its data and its itemisation.  A `SubContainer` is given by its
contents, a `Scaffold` by its `child_ptrs`; a specific identifier has no members. -/
structure NodeRecord where
  kind : NodeKind
  /-- `type_index( typeid(node) )`. -/
  typeIndex : Nat
  value : LocalValue
  items : List (Item Nat)
  identifier_value : kind = .identifier ↔ ∃ name role, value = .identifier name role
  identifier_items : kind = .identifier → items = []

/-- `DBCommon::TreeType`. -/
inductive TreeType where
  | main
  | domainExtension
  | update
deriving DecidableEq

/-- `DBCommon::TreeRecord`; the root is given by the address of `tp_root_node`. -/
structure TreeRecord where
  root : Nat
  type : TreeType
deriving DecidableEq

/-- **The memory**: what the `TreePtr` at an address points to, the node at an address,
and `trees_by_ordinal` with its ordinals. -/
structure TreeHeap where
  childOf : Nat → Option Nat
  nodeAt : Nat → NodeRecord
  nextLink : Nat
  nextNode : Nat
  treesByOrdinal : StdMap Int TreeRecord
  nextTreeOrdinal : Int
  freeTreeOrdinals : List Int
  deferredTreeOrdinals : List Int
  mainTreeOrdinal : Int

/-- A computation on the memory. -/
abbrev Update := StateT TreeHeap Option

namespace Update

/-- `ASSERT(p)`. -/
def assert (p : Prop) [Decidable p] : Update Unit :=
  if p then pure () else failure

/-- `TreePtr::get`. -/
def getChild (x : Nat) : Update (Option Nat) := do
  return (← get).childOf x

/-- `*tpi = child`. -/
def setChild (x : Nat) (child : Option Nat) : Update Unit :=
  modify fun h => { h with childOf := Function.update h.childOf x child }

def getNode (n : Nat) : Update NodeRecord := do
  return (← get).nodeAt n

/-- A `TreePtr` for a new node or a new list element. -/
def newLink (child : Option Nat) : Update Nat := do
  let h ← get
  set { h with
    childOf := Function.update h.childOf h.nextLink child
    nextLink := h.nextLink + 1 }
  return h.nextLink

def newNode (record : NodeRecord) : Update Nat := do
  let h ← get
  set { h with
    nodeAt := Function.update h.nodeAt h.nextNode record
    nextNode := h.nextNode + 1 }
  return h.nextNode

/-- The members of a node that has some. -/
def setItems (n : Nat) (items : List (Item Nat)) : Update Unit := do
  let h ← get
  if hk : (h.nodeAt n).kind = .identifier then failure
  else
    let record : NodeRecord :=
      { h.nodeAt n with items := items, identifier_items := fun h => absurd h hk }
    set { h with nodeAt := Function.update h.nodeAt n record }

end Update

open Update

/-! ## §2. Mutators. -/

/-- `Mutator::Mode`. -/
inductive Mode where
  | null
  | root
  | singular
  | container
deriving DecidableEq

/-- `Mutator`: the address is that of `tpi_root_node`, `parent_singular` or
`*container_iterator`, and `parent_container` is given by its item of the parent. -/
structure Mutator where
  mode : Mode
  parentNode : Nat
  item : Nat
  slot : Nat
deriving DecidableEq

namespace Mutator

/-- `Mutator()`. -/
def null : Mutator := ⟨.null, 0, 0, 0⟩

/-- `GetTreePtrInterface`. -/
def getTreePtrInterface (m : Mutator) : Update Nat := do
  assert (m.mode ≠ .null)
  return m.slot

/-- `GetXLink`. -/
def getXLink (m : Mutator) : Update Nat :=
  m.getTreePtrInterface

/-- `GetChildTreePtr`. -/
def getChildTreePtr (m : Mutator) : Update (Option Nat) := do
  getChild (← m.getTreePtrInterface)

/-- `CanAcceptContainer`. -/
def canAcceptContainer (m : Mutator) : Bool :=
  m.mode = .container

end Mutator

/-- `dynamic_cast<ContainerInterface *>`. -/
def isContainerInterface : Option Nat → Update Bool
  | none => return false
  | some n => return (← getNode n).kind = .subContainer

/-- `Mutator::ExchangeChild`. -/
def Mutator.exchangeChild (m : Mutator) (freeChild : Option Nat) : Update (Option Nat) := do
  assert ((← isContainerInterface freeChild) = false)
  let oldChild ← m.getChildTreePtr
  setChild m.slot freeChild
  return oldChild

/-- `Mutator::FindMatchingTerminus`, and what `ExchangeContainer` does to the terminus
it finds. -/
def Mutator.moveMatchingTerminus (container placeholder : Nat) (parent : Mutator) (itNew : Nat)
    (candidates : List Mutator) : Update (List Mutator) := do
  let isMatch := fun c : Mutator => c.mode = .container ∧ c.parentNode = container
    ∧ c.item = 0 ∧ c.slot = placeholder
  assert ((candidates.filter isMatch).length = 1)
  return candidates.map fun c =>
    if isMatch c then { parent with mode := .container, slot := itNew } else c

/-- The loop of `ExchangeContainer`: a new element in the parent container for each
element of the free one; a placeholder takes its terminus with it. -/
def Mutator.insertElements (parent : Mutator) (container : Nat) :
    List Nat → List Mutator → Update (List Nat × List Mutator)
  | [], terminii => return ([], terminii)
  | x :: xs, terminii => do
      let child ← getChild x
      let itNew ← newLink child
      let terminii ← match child with
        | some _ => pure terminii
        | none => Mutator.moveMatchingTerminus container x parent itNew terminii
      let (new, terminii) ← Mutator.insertElements parent container xs terminii
      return (itNew :: new, terminii)

/-- The links of a container with the one at `slot` replaced. -/
def Item.replace (slot : Nat) (new : List Nat) : Item Nat → Option (Item Nat)
  | .singular _ => none
  | .sequence ls => if slot ∈ ls then
      some (.sequence (ls.takeWhile (· ≠ slot) ++ new ++ (ls.dropWhile (· ≠ slot)).drop 1))
    else none
  | .collection ls => if slot ∈ ls then
      some (.collection (ls.takeWhile (· ≠ slot) ++ new ++ (ls.dropWhile (· ≠ slot)).drop 1))
    else none

/-- `Mutator::ExchangeContainer`: the free zone's terminii as they are after it. -/
def Mutator.exchangeContainer (m : Mutator) (freeChildContainer : Nat)
    (freeZoneTerminii : List Mutator) : Update (List Mutator) := do
  assert (m.mode = .container)
  let elements := (← getNode freeChildContainer).items.flatMap Item.links
  let (new, terminii) ← m.insertElements freeChildContainer elements freeZoneTerminii
  let items := (← getNode m.parentNode).items
  let some replaced := items[m.item]?.bind (Item.replace m.slot new) | failure
  setItems m.parentNode (items.set m.item replaced)
  return terminii

/-! ## §3. Free zones. -/

/-- `FreeZone`. -/
structure FreeZone where
  base : Option Nat
  terminii : List Mutator
deriving DecidableEq

namespace FreeZone

/-- The assertions on the terminii of a new zone. -/
def checkTerminii : List Mutator → Update Unit
  | [] => return ()
  | t :: ts => do
      assert ((← t.getChildTreePtr) = none)
      checkTerminii ts

/-- The constructor `FreeZone(base, terminii)`. -/
def make (base : Option Nat) (terminii : List Mutator) : Update FreeZone := do
  checkTerminii terminii
  assert (terminii.map Mutator.slot).Nodup
  return ⟨base, terminii⟩

/-- `CreateEmpty`: no base, and one null terminus. -/
def createEmpty : Update FreeZone :=
  make none [Mutator.null]

/-- `IsEmpty`. -/
def isEmpty (z : FreeZone) : Update Bool := do
  match z.base with
  | some _ => return false
  | none => do
      assert (z.terminii.length = 1)
      assert (∀ t ∈ z.terminii, t.mode = .null)
      return true

/-- `TryGetContainerBase`. -/
def tryGetContainerBase (z : FreeZone) : Update (Option Nat) := do
  if ← isContainerInterface z.base then return z.base else return none

/-- `AddTerminus`. -/
def addTerminus (z : FreeZone) (terminus : Mutator) : Update FreeZone := do
  assert z.base.isSome
  return { z with terminii := z.terminii ++ [terminus] }

/-- `GetBaseNode`. -/
def getBaseNode (z : FreeZone) : Update (Option Nat) := do
  assert ((← z.isEmpty) = false)
  return z.base

/-- `*resulting_xlink`, if it is asked for. -/
def resultingXLink (asked : Bool) (t : Mutator) : Update (Option Nat) := do
  if asked then return some (← t.getXLink) else return none

/-- `MergeTerminus` at the terminus with index `i`: the zone, the new iterator, and
`*resulting_xlink`, which only some callers ask for. -/
def mergeTerminus (z : FreeZone) (i : Nat) (childZone : FreeZone) (asked : Bool) :
    Update (FreeZone × Nat × Option Nat) := do
  let some t := z.terminii[i]? | failure
  if ← childZone.isEmpty then
    return (z, i + 1, ← resultingXLink asked t)
  let splice := fun (base : Option Nat) (terminii : List Mutator) =>
    (⟨base, z.terminii.take i ++ terminii ++ z.terminii.drop (i + 1)⟩ : FreeZone)
  if ← z.isEmpty then
    return (splice childZone.base childZone.terminii, i + childZone.terminii.length, none)
  match ← childZone.tryGetContainerBase with
  | some childBaseContainer => do
      assert t.canAcceptContainer
      let terminii ← t.exchangeContainer childBaseContainer childZone.terminii
      return (splice z.base terminii, i + terminii.length, none)
  | none => do
      let _ ← t.exchangeChild childZone.base
      let xlink ← resultingXLink asked t
      return (splice z.base childZone.terminii, i + childZone.terminii.length, xlink)

/-- The loop of `MergeAll`: the zone, and the iterator after the last merge. -/
def mergeAllLoop : FreeZone → Nat → List FreeZone → Update (FreeZone × Nat)
  | z, i, [] => return (z, i)
  | z, i, childZone :: rest => do
      assert (i < z.terminii.length)
      let (z, i, _) ← z.mergeTerminus i childZone false
      mergeAllLoop z i rest

/-- `MergeAll`. -/
def mergeAll (z : FreeZone) (childZones : List FreeZone) : Update FreeZone := do
  if ← z.isEmpty then
    -- `SoloElementOf`
    match childZones with
    | [childZone] => return childZone
    | _ => failure
  else do
    assert (z.terminii.length = childZones.length)
    let (z, i) ← mergeAllLoop z 0 childZones
    assert (i = z.terminii.length)
    assert (z.terminii.length = 0)
    return z

end FreeZone

end Inferno.DB
