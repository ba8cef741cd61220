/-
  Inferno.UP.Passes
  ─────────────────
  The passes that act patch by patch.

    • `setTreeOrdinals`, `protectDEPass`, `emptyZonePass` — before the boundaries,
    • `mergeSubcontainerBasePass`, `mergeFreesPass` — free patches into free patches,
    • `chooseCopiesPass`, `copyingPass` — which zones are copied, and the copies,
    • `gapFindingPass`           — an empty free patch between zones that do not touch,
    • `getTreePatchAssignments`  — the originators of tree patches,
    • `transformToSingleFreeZone` — a layout as one free zone.
-/
import Inferno.DB.DFOrder
import Inferno.UP.Patches

namespace Inferno.DB

open Inferno.Common

/-- The loop of `GetTreeOrdinalFor`. -/
def XTreeDatabase.treeOrdinalLoop {L N A : Type} [LinearOrder L] (db : XTreeDatabase L N A) :
    Nat → XLink L → Option Int
  | 0, _ => none
  | fuel + 1, xlink => do
      match ← db.tryGetParentXLink xlink with
      | some next => treeOrdinalLoop db fuel next
      | none => do
          let row ← db.getRow xlink
          ASSERT (row.contextType = .root)
          some row.treeOrdinal

/-- `GetTreeOrdinalFor`. -/
def XTreeDatabase.getTreeOrdinalFor {L N A : Type} [LinearOrder L] (db : XTreeDatabase L N A)
    (x : L) : Option Int :=
  treeOrdinalLoop db (db.rows.keys.card + 1) (.link x)

/-- `GetTreeType`. -/
def getTreeType (ordinal : Int) : Update TreeType := do
  let some tree := (← get).treesByOrdinal.lookup ordinal | failure
  return tree.type

/-- An `Option` as a computation on the memory. -/
def Update.ofOption {α : Type} : Option α → Update α
  | some a => pure a
  | none => failure

end Inferno.DB

namespace Inferno.UP

open Inferno.Common Inferno.DB Update

variable {P A : Type} [LinearOrder P]

/-- A computation that adds to the assignments. -/
abbrev Assigning (P : Type) := StateT (ReplaceAssignments P) Update

/-! ## §1. Miscellaneous passes. -/

/-- `SetTreeOrdinals::Run`. -/
def setTreeOrdinals (db : XTreeDatabase Nat Nat A) (layout : Patch P) : Update (Patch P) :=
  layout.walkTreesOut fun patch => match patch with
    | .tree ptr zone intent originators children => do
        let ordinal ← ofOption (db.getTreeOrdinalFor zone.base)
        return .tree ptr { zone with ordinal := ordinal } intent originators children
    | patch => pure patch

/-- `ProtectDEPass::Run`. -/
def protectDEPass (layout : Patch P) : Update (Patch P) :=
  layout.walkTreesOut fun patch => match patch with
    | .tree ptr zone intent originators children => do
        match ← getTreeType zone.ordinal with
        | .domainExtension => return .tree ptr zone .copyable originators children
        | .main => return .tree ptr zone intent originators children
        | .update => failure
    | patch => pure patch

/-- `EmptyZonePass::Run`. -/
def emptyZonePass (layout : Patch P) : Update (Patch P) :=
  layout.walkTreesOut fun patch => match patch with
    | .tree ptr zone intent originators children =>
        if zone.isEmpty then
          match children with
          | [child] => return (child.addOriginators originators).withPtr ptr
          | _ => failure
        else return .tree ptr zone intent originators children
    | patch => pure patch

/-! ## §2. Merge passes. -/

/-- `assignments->insert( make_pair(plink, xlink) )` for each originator. -/
def assignAll (originators : Originators P) (xlink : Nat) (assignments : ReplaceAssignments P) :
    ReplaceAssignments P :=
  (inOrder originators).foldl (fun a plink => a.insertNew plink xlink) assignments

/-- The assertion that no assignment goes to a scaffold node. -/
def assertNoScaffold (xlink : Nat) : Update Unit := do
  match ← getChild xlink with
  | some node => assert ((← getNode node).kind ≠ .scaffold)
  | none => failure

/-- The loop of `FreeZoneMergeImpl::Run` over the terminii and children of one patch. -/
def mergeLoop (policy : FreeZone → FreeZone → Update Bool) (assign : Bool) :
    FreeZone → Nat → List (Patch P) → Assigning P (FreeZone × List (Patch P))
  | zone, i, [] => do
      assert (i = zone.terminii.length)
      return (zone, [])
  | zone, i, .tree ptr childZone intent originators children :: rest => do
      assert (i < zone.terminii.length)
      let (zone, rest) ← mergeLoop policy assign zone (i + 1) rest
      return (zone, .tree ptr childZone intent originators children :: rest)
  | zone, i, .free ptr childZone originators children :: rest => do
      let some t := zone.terminii[i]? | failure
      if ← policy zone childZone then do
        if (← childZone.tryGetContainerBase).isSome then
          assert t.canAcceptContainer
        let (zone, i, xlink) ← zone.mergeTerminus i childZone true
        if assign then
          let some xlink := xlink | failure
          if originators ≠ ∅ then
            assertNoScaffold xlink
          modify (assignAll originators xlink)
        let (zone, rest) ← mergeLoop policy assign zone i rest
        return (zone, children ++ rest)
      else do
        let (zone, rest) ← mergeLoop policy assign zone (i + 1) rest
        return (zone, .free ptr childZone originators children :: rest)

/-- `FreeZoneMergeImpl::Run`. -/
def freeZoneMergeImpl (policy : FreeZone → FreeZone → Update Bool) (assign : Bool)
    (layout : Patch P) : Assigning P (Patch P) :=
  layout.walkFreesOut fun patch => match patch with
    | .free ptr zone originators children => do
        let (zone, children) ← mergeLoop policy assign zone 0 children
        return .free ptr zone originators children
    | patch => pure patch

/-- `FreeZoneMergeImpl::Check` at the children of a free patch. -/
def checkFreeChildren (policy : FreeZone → FreeZone → Update Bool) (zone : FreeZone) :
    List (Patch P) → Update Unit
  | [] => return ()
  | .tree .. :: rest => checkFreeChildren policy zone rest
  | .free _ childZone _ _ :: rest => do
      assert ((← policy childZone zone) = false)
      checkFreeChildren policy zone rest

/-- `FreeZoneMergeImpl::Check`, over the patches. -/
def freeZoneMergeCheck (policy : FreeZone → FreeZone → Update Bool) :
    List (Patch P) → Update Unit
  | [] => return ()
  | .tree .. :: rest => freeZoneMergeCheck policy rest
  | .free _ zone _ children :: rest => do
      checkFreeChildren policy zone children
      freeZoneMergeCheck policy rest

/-- `MergeFreesPass::Run`. -/
def mergeFreesPass (layout : Patch P) : Assigning P (Patch P) :=
  freeZoneMergeImpl (fun _ _ => return true) true layout

/-- `MergeSubcontainerBasePass::Run`, without assignments. -/
def mergeSubcontainerBasePass (layout : Patch P) : Update (Patch P) := do
  let (layout, _) ← freeZoneMergeImpl
    (fun _ childZone => return (← childZone.tryGetContainerBase).isSome) false layout .empty
  return layout

/-! ## §3. Copy passes. -/

/-- `TreePatch::DuplicateToFree`. -/
def duplicateToFree (ptr : Nat) (zone : TreeZone) (originators : Originators P)
    (children : List (Patch P)) : Update (Patch P) := do
  let freeZone ← zone.duplicate
  assert (freeZone.terminii.length = children.length)
  return .free ptr freeZone originators children

/-- `CopyingPass::Run`. -/
def copyingPass (layout : Patch P) : Update (Patch P) :=
  layout.walkTreesOut fun patch => match patch with
    | .tree ptr zone intent originators children =>
        if intent = .copyable then duplicateToFree ptr zone originators children
        else return .tree ptr zone intent originators children
    | patch => pure patch

/-- `DuplicateAllPass::Run`. -/
def duplicateAllPass (layout : Patch P) : Update (Patch P) :=
  layout.walkTreesOut fun patch => match patch with
    | .tree ptr zone _ originators children => duplicateToFree ptr zone originators children
    | patch => pure patch

/-- `DuplicateAllPass::Check`, over the patches. -/
def duplicateAllCheck : List (Patch P) → Update Unit
  | [] => return ()
  | patch :: rest => do
      assert (patch.treeZone? = none)
      duplicateAllCheck rest

/-- The out-of-order patches in wind-out order, by their pointers, with their bases; the
in-order bases must be distinct. -/
def outOfOrderPatches : List (Patch P) → Finset Nat → Option (List (Nat × Nat) × Finset Nat)
  | [], inOrderBases => some ([], inOrderBases)
  | .tree ptr zone intent _ _ :: rest, inOrderBases =>
      match intent with
      | .default => do
          let inOrderBases ← insertSolo inOrderBases zone.base
          outOfOrderPatches rest inOrderBases
      | .moveable => do
          let (records, inOrderBases) ← outOfOrderPatches rest inOrderBases
          some ((ptr, zone.base) :: records, inOrderBases)
      | .copyable => outOfOrderPatches rest inOrderBases
  | .free .. :: rest, inOrderBases => outOfOrderPatches rest inOrderBases

/-- `(*patch_ptr)->SetIntent(intent)`. -/
def setIntentAt (ptr : Nat) (intent : Intent) (layout : Patch P) : Option (Patch P) := do
  let patch ← layout.deref ptr
  let patch ← patch.setIntent intent
  Patch.assign ptr patch layout

/-- The last loop of `ChooseCopiesPass::Run`, with the multiset of out-of-order bases. -/
def chooseCopiesLoop (inOrderBases : Finset Nat) :
    List (Nat × Nat) → Multiset Nat → Patch P → Option (Patch P)
  | [], _, layout => some layout
  | (ptr, base) :: rest, outOfOrderBases, layout => do
      ASSERT (1 ≤ outOfOrderBases.count base)
      if 2 ≤ outOfOrderBases.count base ∨ base ∈ inOrderBases then do
        let layout ← setIntentAt ptr .copyable layout
        chooseCopiesLoop inOrderBases rest (outOfOrderBases.erase base) layout
      else chooseCopiesLoop inOrderBases rest outOfOrderBases layout

/-- `ChooseCopiesPass::Run`. -/
def chooseCopiesPass (layout : Patch P) : Option (Patch P) := do
  let (records, inOrderBases) ← outOfOrderPatches layout.windOut ∅
  chooseCopiesLoop inOrderBases records (Multiset.ofList (records.map (·.2))) layout

/-! ## §4. Gaps. -/

/-- The loop of `GapFindingPass::CheckPatch` over terminii and children; `ptr` is the
address of the next new list element. -/
def gapLoop : List Nat → List (Patch P) → Nat → Update (List (Patch P))
  | _, [], _ => return []
  | terminus :: terminii, .tree ptr zone .default originators children :: rest, next => do
      let patch := Patch.tree ptr zone .default originators children
      if zone.base ≠ terminus then do
        let emptyZone ← FreeZone.createEmpty
        let rest ← gapLoop terminii rest (next + 1)
        return .free ptr emptyZone ∅ [patch.withPtr next] :: rest
      else do
        let rest ← gapLoop terminii rest next
        return patch :: rest
  | _ :: terminii, child :: rest, next => do
      let rest ← gapLoop terminii rest next
      return child :: rest
  | [], _ :: _, _ => failure

/-- `GapFindingPass::Run`. -/
def gapFindingPass (layout : Patch P) : Update (Patch P) :=
  layout.walkTreesOut fun patch => match patch with
    | .tree ptr zone .default originators children => do
        let children ← gapLoop zone.terminii children layout.freshPtr
        return .tree ptr zone .default originators children
    | patch => pure patch

/-! ## §5. Assignments of tree patches. -/

/-- `GetTreePatchAssignmentsPass::Run`: the loop over the patches in wind-in order. -/
def getTreePatchAssignmentsLoop : List (Patch P) → Originators P → Assigning P Unit
  | [], originators => assert (originators = ∅)
  | .tree _ zone _ patchOriginators _ :: rest, originators => do
      let originators := originators ∪ patchOriginators
      if zone.isEmpty then
        getTreePatchAssignmentsLoop rest originators
      else do
        if originators ≠ ∅ then
          assertNoScaffold zone.base
        modify (assignAll originators zone.base)
        getTreePatchAssignmentsLoop rest ∅
  | .free .. :: rest, originators => getTreePatchAssignmentsLoop rest originators

/-- `GetTreePatchAssignmentsPass::Run`. -/
def getTreePatchAssignments (layout : Patch P) : Assigning P Unit :=
  getTreePatchAssignmentsLoop layout.windIn ∅

/-! ## §6. One free zone. -/

/-- `TreeUpdater::TransformToSingleFreeZone`. -/
def transformToSingleFreeZone (layout : Patch P) : Update FreeZone := do
  let layout ← duplicateAllPass layout
  duplicateAllCheck layout.windOut
  let (layout, _) ← freeZoneMergeImpl (fun _ _ => return true) false layout .empty
  freeZoneMergeCheck (fun _ _ => return true) layout.windOut
  match layout with
  | .free _ zone _ children => do
      assert (children.length = 0)
      assert (zone.terminii.length = 0)
      return zone
  | .tree .. => failure

end Inferno.UP
