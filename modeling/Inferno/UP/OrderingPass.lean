/-
  Inferno.UP.OrderingPass
  ───────────────────────
  The pass that finds the tree patches whose zones are out of order.

    • `Intents`        — the pass only changes intents; they are kept by the address of
                         the patch,
    • `findOutOfOrderTreePatches` — the bases below a link in depth-first order, without
                         duplicates, without ancestors, and of these a longest run in the
                         order of the layout,
    • `settle`         — out-of-order patches give way to their descendants,
    • `orderingPass`   — `OrderingPass::Run`; the fuel is the number of patches.
-/
import Inferno.DB.Descent
import Inferno.Lib.IncreasingSubsequence
import Inferno.UP.Patches

namespace Inferno.UP

open Inferno.Common Inferno.DB Inferno.Lib

variable {P A : Type}

/-! ## §1. Intents. -/

/-- The intents of the tree patches, by their addresses. -/
abbrev Intents := Nat → Intent

namespace Patch

/-- `GetIntent`, of the patch at an address. -/
def intents (layout : Patch P) : Intents := fun ptr =>
  match layout.windIn.find? (·.ptr = ptr) with
  | some (.tree _ _ intent _ _) => intent
  | _ => .default

mutual

/-- The layout with other intents. -/
def withIntents (f : Intents) : Patch P → Patch P
  | .tree ptr zone _ originators children =>
      .tree ptr zone (f ptr) originators (withIntentsAll f children)
  | .free ptr zone originators children => .free ptr zone originators (withIntentsAll f children)

def withIntentsAll (f : Intents) : List (Patch P) → List (Patch P)
  | [] => []
  | child :: rest => withIntents f child :: withIntentsAll f rest

end

mutual

/-- `AppendNextDescendantTreePatches`: what it appends. -/
def nextDescendants (f : Intents) : Patch P → List (Patch P)
  | .tree ptr zone intent originators children =>
      if f ptr = .default then [.tree ptr zone intent originators children]
      else nextDescendantsAll f children
  | .free _ _ _ children => nextDescendantsAll f children

def nextDescendantsAll (f : Intents) : List (Patch P) → List (Patch P)
  | [] => []
  | child :: rest => nextDescendants f child ++ nextDescendantsAll f rest

end

/-- The base of a tree patch; `none` is the failed cast. -/
def base? : Patch P → Option Nat
  | .tree _ zone _ _ _ => some zone.base
  | .free .. => none

end Patch

/-! ## §2. The order of the bases. -/

/-- `OrderingPass::PatchRecord`, with the patch its pointer leads to. -/
structure PatchRecord (P : Type) where
  patch : Patch P
  outOfOrder : Bool

/-- `GetBaseXLink`, of the record at an index. -/
def baseAt (records : List (PatchRecord P)) (i : Nat) : Option Nat := do
  let record ← records[i]?
  record.patch.base?

/-- `DFPatchIndexRelation::CompareHierarchical`. -/
def compareIndices (db : XTreeDatabase Nat Nat A) (records : List (PatchRecord P)) (l r : Nat) :
    Option (Int × RelType) := do
  let lBase ← baseAt records l
  let rBase ← baseAt records r
  DepthFirstRelation.compareHierarchical db (.link lBase) (.link rBase)

/-- `insert` into the set that the relation orders. -/
def insertIndex (db : XTreeDatabase Nat Nat A) (records : List (PatchRecord P)) (i : Nat) :
    List Nat → Option (List Nat)
  | [] => some [i]
  | j :: rest => do
      let p ← compareIndices db records i j
      if p.1 < 0 then some (i :: j :: rest)
      else if p.1 = 0 then some (j :: rest) -- already there
      else do
        let rest ← insertIndex db records i rest
        some (j :: rest)

/-- One turn of the first loop of `FindOutOfOrderTreePatches`. -/
def considerIndex (db : XTreeDatabase Nat Nat A) (records : List (PatchRecord P)) (base : Nat)
    (inOrderBases : Finset Nat) (indices : List Nat) (i : Nat) : Option (List Nat) := do
  let tzBase ← baseAt records i
  ASSERT (db.childOf tzBase).isSome
  let p ← DepthFirstRelation.compareHierarchical db (.link base) (.link tzBase)
  if p.2 = .equal ∨ p.2 = .leftIsAncestor then
    if tzBase ∈ inOrderBases then some indices -- accepted somewhere else in the layout
    else insertIndex db records i indices
  else some indices -- outside the overall range

/-- The runs of ancestors found so far. -/
structure AncestorRuns where
  runI : Nat
  prevI : Option Nat
  prevDa : Bool
  runAMap : StdMap Nat (Finset Nat)

/-- One turn of the loop that discovers runs of ancestor-descendant related nodes. -/
def AncestorRuns.step (db : XTreeDatabase Nat Nat A) (records : List (PatchRecord P))
    (s : AncestorRuns) (i : Nat) : Option AncestorRuns :=
  match s.prevI with
  | none => some { s with prevI := some i, prevDa := false }
  | some prevI => do
      let p ← compareIndices db records prevI i
      ASSERT (p.1 < 0)
      let da : Bool := p.2 = .leftIsAncestor
      let runI := if da && !s.prevDa then prevI else s.runI
      let run := (s.runAMap.lookup runI).getD ∅
      some ⟨runI, some i, da, if da then s.runAMap.set runI (insert prevI run) else s.runAMap⟩

/-- The loop that discards the parents. -/
def AncestorRuns.discard (s : AncestorRuns) (indices : List Nat) : List Nat :=
  (inOrder s.runAMap.keys).foldl
    (fun indices run => indices.filter (· ∉ (s.runAMap.lookup run).getD ∅)) indices

/-- `(size_t)(-1)`. -/
def noIndex : Nat := 2 ^ 64 - 1

/-- The turns of `for( int j=L-1; j>=0; j-- )`; `L-1` is converted to an `int`. -/
def intTurns (L : Nat) : Nat := (((L : Int) - 1).bmod (2 ^ 32) + 1).toNat

/-- `MaximalIncreasingSubsequence`.  The set is given by its members in their order, and
so is what has been inserted after `clear`. -/
def maximalIncreasingSubsequence (indicesDFO : List Nat) : Option (List Nat) := do
  let inserted ← IncreasingSubsequence.maximalIncreasingSubsequence intTurns noIndex indicesDFO
  some (indicesDFO.filter (· ∈ inserted))

/-- `FindOutOfOrderTreePatches`. -/
def findOutOfOrderTreePatches (db : XTreeDatabase Nat Nat A) (inOrderBases : Finset Nat)
    (records : List (PatchRecord P)) (base : Nat) : Option (List (PatchRecord P)) := do
  ASSERT (records.length ≠ 0)
  ASSERT (db.childOf base).isSome
  let indices ← (List.range records.length).foldlM
    (considerIndex db records base inOrderBases) []
  let runs ← indices.foldlM (AncestorRuns.step db records) ⟨0, none, false, StdMap.empty⟩
  let indices ← maximalIncreasingSubsequence (runs.discard indices)
  some (records.zipIdx.map fun (record, i) => { record with outOfOrder := i ∉ indices })

/-! ## §3. The pass. -/

/-- The records for the next turn, and what the turn has done. -/
structure Sweep (P : Type) where
  nextPatchRecords : List (PatchRecord P)
  moreToCheck : Bool
  intents : Intents

/-- One record of `ConstrainAnyPatchToDescendants`'s inner loop. -/
def Sweep.step (s : Sweep P) (record : PatchRecord P) : Sweep P :=
  if record.outOfOrder then
    let gathered := Patch.nextDescendantsAll s.intents record.patch.children
    { nextPatchRecords := s.nextPatchRecords ++ gathered.map fun p => ⟨p, false⟩
      moreToCheck := s.moreToCheck || !gathered.isEmpty
      intents := Function.update s.intents record.patch.ptr .moveable }
  else { s with nextPatchRecords := s.nextPatchRecords ++ [record] }

/-- The `while(true)` of `ConstrainAnyPatchToDescendants`. -/
def settle (db : XTreeDatabase Nat Nat A) (inOrderBases : Finset Nat) (base : Nat) :
    Nat → List (PatchRecord P) → Intents → Option (List (PatchRecord P) × Intents)
  | 0, _, _ => none
  | fuel + 1, records, intents =>
      if records.isEmpty then some (records, intents)
      else do
        let records ← findOutOfOrderTreePatches db inOrderBases records base
        let s := records.foldl Sweep.step ⟨[], false, intents⟩
        if s.moreToCheck then settle db inOrderBases base fuel s.nextPatchRecords s.intents
        else some (records, s.intents)

/-- What the recursion of the pass changes. -/
structure OrderingState where
  intents : Intents
  inOrderBases : Finset Nat

/-- `ConstrainChildrenToTerminii`. -/
def constrainChildrenToTerminii
    (constrain : Patch P → Nat → OrderingState → Option OrderingState) (treePatch : Patch P)
    (s : OrderingState) : Option OrderingState := do
  let (zone, _) ← treePatch.treeZone?
  treePatch.children.zipIdx.foldlM (fun s (child, i) => do
    let terminus ← zone.terminii[i]?
    constrain child terminus s) s

/-- One record of `ConstrainAnyPatchToDescendants`'s last loop. -/
def recurseRecord (constrain : Patch P → Nat → OrderingState → Option OrderingState)
    (s : OrderingState) (record : PatchRecord P) : Option OrderingState :=
  if record.outOfOrder then some s
  else do
    let base ← record.patch.base?
    let inOrderBases ← insertSolo s.inOrderBases base
    constrainChildrenToTerminii constrain record.patch { s with inOrderBases := inOrderBases }

/-- `ConstrainAnyPatchToDescendants`. -/
def constrainAnyPatchToDescendants (db : XTreeDatabase Nat Nat A) :
    Nat → Patch P → Nat → OrderingState → Option OrderingState
  | 0, _, _, _ => none
  | fuel + 1, startPatch, base, s => do
      let records := (Patch.nextDescendants s.intents startPatch).map fun p => ⟨p, false⟩
      let (records, intents) ←
        settle db s.inOrderBases base (startPatch.windIn.length + 1) records s.intents
      records.foldlM (recurseRecord (constrainAnyPatchToDescendants db fuel))
        ⟨intents, s.inOrderBases⟩

/-- `OrderingPass::Run`, with `db->GetMainRootXLink()`. -/
def orderingPass (db : XTreeDatabase Nat Nat A) (root : Nat) (layout : Patch P) :
    Option (Patch P) := do
  let s ← constrainAnyPatchToDescendants db (layout.windIn.length + 1) layout root
    ⟨layout.intents, ∅⟩
  some (layout.withIntents s.intents)

end Inferno.UP
