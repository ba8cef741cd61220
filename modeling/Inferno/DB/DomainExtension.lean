/-
  Inferno.DB.DomainExtension
  ──────────────────────────
  `DomainExtensionChannel`: which XLinks induce which extension trees.

    • the channel's four maps and its queue of ordinals, with the tree nodes up
      to simple compare (`R`) and the XLinks (`X`) in their set order,
    • its mutators as the code runs them; `none` is a failed assertion, a
      throwing `at()`, or a read of an ordinal that was never assigned,
    • what re-enters the channel from the database is an argument: the links
      that `BuildTree` inserts, in walk order, and the ordinal it returns.
-/
import Inferno.Common.StdMap

namespace Inferno.DB

open Inferno.Common

/-! ## §1. The channel. -/

/-- `DomainExtensionChannel::InducedAndDeps`; also `Extender::Info`. -/
structure InducedAndDeps (X R : Type) where
  inducedRoot : R
  deps : Finset X

/-- `DomainExtensionChannel::ExtensionClass`.  The ordinal is not initialised by
the constructor. -/
structure ExtensionClass where
  treeOrdinal : Option Nat
  refCount : Int

/-- What one call of `BuildTree` does to the channel that made it: the new tree's
links are inserted, in walk order, and the tree's ordinal is returned. -/
structure BuiltTree (X : Type) where
  treeOrdinal : Nat
  xlinks : List X

/-- `DomainExtensionChannel`. -/
structure DomainExtensionChannel (X R : Type) where
  stimulusToInducedRootAndDeps : StdMap X (InducedAndDeps X R)
  depToAllStimulii : StdMap X (Finset X)
  stimuliiToRecheck : Finset X
  inducedRootToTreeOrdinalAndRefCount : StdMap R ExtensionClass
  ordinalsToTearDown : Finset Nat

namespace DomainExtensionChannel

/-- The channel as constructed. -/
def empty {X R : Type} : DomainExtensionChannel X R :=
  ⟨StdMap.empty, StdMap.empty, ∅, StdMap.empty, ∅⟩

variable {X R : Type} [LinearOrder X] [DecidableEq R]

/-! ## §2. Dropping a stimulus. -/

/-- `DropStimulusXLink`, the body of the loop over the dependencies. -/
def dropDep (stimulus : X) (depToAll : StdMap X (Finset X)) (dep : X) :
    Option (StdMap X (Finset X)) := do
  let all ← depToAll.lookup dep
  ASSERT (all ≠ ∅)
  let all ← eraseSolo all stimulus
  if all = ∅ then (depToAll.set dep all).eraseSolo dep else some (depToAll.set dep all)

/-- `DropStimulusXLink`. -/
def dropStimulusXLink (c : DomainExtensionChannel X R) (stimulus : X) :
    Option (DomainExtensionChannel X R) := do
  let info ← c.stimulusToInducedRootAndDeps.lookup stimulus
  let depToAll ← (inOrder info.deps).foldlM (dropDep stimulus) c.depToAllStimulii
  let stimulii ← c.stimulusToInducedRootAndDeps.eraseSolo stimulus
  let cls ← c.inducedRootToTreeOrdinalAndRefCount.lookup info.inducedRoot
  let newRc := cls.refCount - 1
  let classes := c.inducedRootToTreeOrdinalAndRefCount.set info.inducedRoot
    { cls with refCount := newRc }
  if newRc > 0 then
    some { c with
      stimulusToInducedRootAndDeps := stimulii
      depToAllStimulii := depToAll
      inducedRootToTreeOrdinalAndRefCount := classes }
  else do
    let ord ← cls.treeOrdinal
    let classes ← classes.eraseSolo info.inducedRoot
    some { c with
      stimulusToInducedRootAndDeps := stimulii
      depToAllStimulii := depToAll
      inducedRootToTreeOrdinalAndRefCount := classes
      ordinalsToTearDown := insert ord c.ordinalsToTearDown }

/-! ## §3. Insertion and deletion of an XLink. -/

/-- `InsertAction`. -/
def insertAction (c : DomainExtensionChannel X R) (xlink : X) :
    Option (DomainExtensionChannel X R) := do
  let recheck ← insertSolo c.stimuliiToRecheck xlink
  some { c with stimuliiToRecheck := recheck }

/-- `DeleteAction`, the body of the loop over the stimulii that depend on the
deleted XLink. -/
def dropViaDep (c : DomainExtensionChannel X R) (stimulus : X) :
    Option (DomainExtensionChannel X R) := do
  ASSERT (stimulus ∈ c.stimulusToInducedRootAndDeps.keys)
  let c ← c.dropStimulusXLink stimulus
  let recheck ← insertSolo c.stimuliiToRecheck stimulus
  some { c with stimuliiToRecheck := recheck }

/-- The first half of `DeleteAction`: the deleted XLink as a stimulus. -/
def deleteStimulus (c : DomainExtensionChannel X R) (xlink : X) :
    Option (DomainExtensionChannel X R) :=
  if xlink ∈ c.stimulusToInducedRootAndDeps.keys then
    c.dropStimulusXLink xlink
  else if xlink ∈ c.stimuliiToRecheck then do
    let recheck ← eraseSolo c.stimuliiToRecheck xlink
    some { c with stimuliiToRecheck := recheck }
  else
    some c

/-- `DeleteAction`. -/
def deleteAction (c : DomainExtensionChannel X R) (xlink : X) :
    Option (DomainExtensionChannel X R) := do
  let c ← c.deleteStimulus xlink
  match c.depToAllStimulii.lookup xlink with
  | none => some c
  | some stimulii => (inOrder stimulii).foldlM dropViaDep c

/-! ## §4. Checking a stimulus. -/

/-- `CreateExtraTree`.  The class is entered before `BuildTree` re-enters the
channel, and gets its ordinal after. -/
def createExtraTree (c : DomainExtensionChannel X R) (inducedRoot : R) (built : BuiltTree X) :
    Option (DomainExtensionChannel X R) := do
  let c := { c with
    inducedRootToTreeOrdinalAndRefCount :=
      c.inducedRootToTreeOrdinalAndRefCount.insertNew inducedRoot ⟨none, 1⟩ }
  let c ← built.xlinks.foldlM insertAction c
  let cls ← c.inducedRootToTreeOrdinalAndRefCount.lookup inducedRoot
  some { c with
    inducedRootToTreeOrdinalAndRefCount := c.inducedRootToTreeOrdinalAndRefCount.set inducedRoot
      { cls with treeOrdinal := some built.treeOrdinal } }

/-- `CheckStimulusXLink`: `info` is what the extender returned, `none` when there
is no `induced_base_node`; `built` is what `BuildTree` does if it is called. -/
def checkStimulusXLink (c : DomainExtensionChannel X R) (stimulus : X)
    (info : Option (InducedAndDeps X R)) (built : BuiltTree X) :
    Option (DomainExtensionChannel X R) :=
  match info with
  | none => some c
  | some info => do
      let c := { c with
        depToAllStimulii := (inOrder info.deps).foldl (fun depToAll dep =>
          depToAll.set dep (insert stimulus ((depToAll.lookup dep).getD ∅))) c.depToAllStimulii
        stimulusToInducedRootAndDeps := c.stimulusToInducedRootAndDeps.insertNew stimulus info }
      let c ←
        match c.inducedRootToTreeOrdinalAndRefCount.lookup info.inducedRoot with
        | some cls =>
            some { c with
              inducedRootToTreeOrdinalAndRefCount :=
                c.inducedRootToTreeOrdinalAndRefCount.set info.inducedRoot
                  { cls with refCount := cls.refCount + 1 } }
        | none => c.createExtraTree info.inducedRoot built
      -- the key found there is the duplicate, equal up to simple compare (#785)
      ASSERT (info.inducedRoot ∈ c.inducedRootToTreeOrdinalAndRefCount.keys)
      let entry ← c.stimulusToInducedRootAndDeps.lookup stimulus
      some { c with
        stimulusToInducedRootAndDeps := c.stimulusToInducedRootAndDeps.set stimulus
          { entry with inducedRoot := info.inducedRoot } }

/-- `GetUniqueDomainExtension`: the ordinal of the tree whose root XLink it returns. -/
def getUniqueDomainExtension (c : DomainExtensionChannel X R) (stimulus : X) (generatedRoot : R) :
    Option Nat := do
  ASSERT (generatedRoot ∈ c.inducedRootToTreeOrdinalAndRefCount.keys)
  ASSERT (stimulus ∈ c.stimulusToInducedRootAndDeps.keys)
  let entry ← c.stimulusToInducedRootAndDeps.lookup stimulus
  ASSERT (entry.inducedRoot = generatedRoot)
  let cls ← c.inducedRootToTreeOrdinalAndRefCount.lookup generatedRoot
  cls.treeOrdinal

/-! ## §5. Validate. -/

/-- `Validate`: the assertions the code makes about a channel at rest. -/
def validate (c : DomainExtensionChannel X R) (domainSize : Nat) : Option Unit := do
  ASSERT (c.stimulusToInducedRootAndDeps.keys.card ≤ domainSize)
  ASSERT (∀ stimulus ∈ c.stimulusToInducedRootAndDeps.keys,
    (c.stimulusToInducedRootAndDeps.lookup stimulus).any (fun info =>
      decide (∀ dep ∈ info.deps, dep ∈ c.depToAllStimulii.keys) &&
      (c.inducedRootToTreeOrdinalAndRefCount.lookup info.inducedRoot).any (fun cls =>
        decide (cls.refCount > 0))) = true)
  ASSERT (∀ dep ∈ c.depToAllStimulii.keys,
    ∀ stimulus ∈ (c.depToAllStimulii.lookup dep).getD ∅,
      stimulus ∈ c.stimulusToInducedRootAndDeps.keys)

end DomainExtensionChannel

end Inferno.DB
