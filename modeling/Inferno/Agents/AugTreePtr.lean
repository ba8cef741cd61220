/-
  Inferno.Agents.AugTreePtr
  ─────────────────────────
  The handles a transformation works through, and the dependencies they carry.

    • `Dependencies`  — `RelocatingAgent::Dependencies`, as objects in a heap, since
                        handles and chains share them by pointer,
    • `XTree`         — what the handles read of the X tree and its database,
    • `AugTreePtr`    — a handle: the node, the back end, and the dependency object,
    • `TransState`    — the heap, the free nodes being built, and the handles held,
    • `exec`          — one operation on the handles; `none` is a failed assertion or
                        `ReachedNullChiled`,
    • `resultGetAll`  — what `RunRelocatingQuery` does with the handle it gets back.
-/
import Inferno.Common.StdMap
import Inferno.Lib.Gather
import Mathlib.Logic.Function.Basic

namespace Inferno.Agents

open Inferno.Common
open Inferno.Lib

/-! ## §1. Dependencies. -/

/-- `RelocatingAgent::Dependencies`.  The chains are pointers to other such objects. -/
structure Dependencies (X : Type) where
  deps : Finset X
  chains : Finset Nat

namespace Dependencies

/-- As constructed. -/
def empty {X : Type} : Dependencies X := ⟨∅, ∅⟩

variable {X : Type} [DecidableEq X]

/-- `AddDep`. -/
def addDep (d : Dependencies X) (dep : X) : Dependencies X :=
  { d with deps := insert dep d.deps }

/-- `AddChainTo`. -/
def addChainTo (d : Dependencies X) (chain : Nat) : Dependencies X :=
  { d with chains := insert chain d.chains }

/-- `AddAllFrom`. -/
def addAllFrom (d other : Dependencies X) : Dependencies X :=
  ⟨d.deps ∪ other.deps, d.chains ∪ other.chains⟩

end Dependencies

/-- The dependency objects, by address. -/
abbrev Heap (X : Type) := Nat → Dependencies X

namespace Heap

variable {X : Type}

/-- The chains of an object, in the order `GetAll` follows them. -/
def chainsOf (heap : Heap X) (i : Nat) : List Nat := inOrder (heap i).chains

/-- `GetAll`: the object's own deps, and what each of its chains gets. -/
def getAll [DecidableEq X] (heap : Heap X) : Nat → Nat → Option (Finset X) :=
  gather (fun i => (heap i).deps) heap.chainsOf

theorem mem_chainsOf {heap : Heap X} {i j : Nat} : j ∈ heap.chainsOf i ↔ j ∈ (heap i).chains :=
  mem_inOrder

end Heap

/-! ## §2. The X tree. -/

/-- The X tree, as handles see it: its nodes, their child pointers, and what the database
has for these.  A pointer is named by the node it is a member of, and the member. -/
structure XTree (X N F C : Type) where
  nodes : Finset N
  getChildTreePtr : X → N
  treePtr : N → F → Option N
  tryGetXLink : N → F → Option X
  /-- The node table's `declaring_xlinks`, for a node that has a row. -/
  declaringXLinks : N → Option (Finset X)
  tryGetParentXLink : X → Option X
  /-- The node's class, in the tree or outside, is `C` or derived from it. -/
  isA : N → C → Bool
  getChildTreePtr_mem : ∀ x, getChildTreePtr x ∈ nodes
  treePtr_mem : ∀ n ∈ nodes, ∀ f m, treePtr n f = some m → m ∈ nodes
  treePtr_none : ∀ n ∉ nodes, ∀ f, treePtr n f = none
  tryGetXLink_mem : ∀ n f x, tryGetXLink n f = some x → n ∈ nodes

/-! ## §3. Handles. -/

/-- The back end of a handle: `AugBERoaming` at an XLink, or `AugBEMeandering`. -/
inductive AugBE (X : Type) where
  | roaming (xlink : X)
  | meandering
deriving DecidableEq

/-- A handle.  A meandering back end's `generic_tree_ptr` is the handle's own. -/
structure AugTreePtr (X N : Type) where
  treePtr : N
  be : AugBE X
  myDeps : Nat
  /-- Ghost: the XLinks through which the node was reached. -/
  reached : Finset X

/-- A transformation under way.  A handle without a back end passes nothing on, and is
not among those held. -/
structure TransState (X N F : Type) where
  heap : Heap X
  /-- The next free address. -/
  next : Nat
  /-- The child pointers of all nodes, as they now are. -/
  treePtr : N → F → Option N
  handles : List (AugTreePtr X N)
  /-- Ghost: the dependency object given to a node when it was made. -/
  own : N → Option Nat
  /-- Ghost: the XLinks through which the child last set at a pointer was reached. -/
  setLinks : N → F → Finset X
  /-- Ghost: the handles through which nodes were read so far. -/
  readThrough : List (AugTreePtr X N)
  /-- Ghost: the handles whose dependency object has leaked since they were made. -/
  leaked : List (AugTreePtr X N)

/-- The address of the `deps` of `RunRelocatingQuery`, that leaks go to. -/
def resultDeps : Nat := 0

/-- What a transformation can do with its handles.  All but the last read nodes without
reporting a leak, or read none. -/
inductive AugOp (N F C : Type) where
  /-- `Clone`. -/
  | copy (i : Nat)
  /-- `GetChild`: of a member of the node, that is read there. -/
  | getChild (i : Nat) (field : F)
  /-- `DynamicCast`: the node's class is read, whether the cast succeeds or fails. -/
  | dynamicCast (i : Nat) (c : C)
  /-- The walk through a container of the node in `ForAugContainer`, and its end in
  `GET_CHILD_FRONT` and `GET_CHILD_BACK`; also `GetTreePtr()` used as a plain pointer. -/
  | look (i : Nat)
  /-- `GetDeclarers`. -/
  | getDeclarers (i : Nat)
  /-- `MakeAugTreeNode`; the address of the new node. -/
  | makeAugTreeNode (node : N)
  /-- `SetChild` of handle `i`, to handle `j`. -/
  | setChild (i : Nat) (field : F) (j : Nat)
  /-- The smart pointer methods, which report a dep leak. -/
  | read (i : Nat)

namespace TransState

variable {X N F C : Type} [LinearOrder X] [DecidableEq N] [DecidableEq F]

/-- Before there are handles: the result's dependency object, with nothing in it. -/
def blank (xt : XTree X N F C) : TransState X N F where
  heap := fun _ => Dependencies.empty
  next := resultDeps + 1
  treePtr := xt.treePtr
  handles := []
  own := fun _ => none
  setLinks := fun _ _ => ∅
  readThrough := []
  leaked := []

/-- `CreateAugTreePtrRoaming`: a handle with a dependency object of its own. -/
def createAugTreePtrRoaming (xt : XTree X N F C) (s : TransState X N F) (xlink : X) :
    TransState X N F :=
  { s with
    heap := Function.update s.heap s.next (Dependencies.empty.addDep xlink)
    next := s.next + 1
    handles := s.handles ++ [⟨xt.getChildTreePtr xlink, .roaming xlink, s.next, {xlink}⟩] }

/-- The transformation begins with a handle roaming at the stimulus. -/
def start (xt : XTree X N F C) (stimulus : X) : TransState X N F :=
  (blank xt).createAugTreePtrRoaming xt stimulus

/-- A node is read through the handle. -/
def look (s : TransState X N F) (h : AugTreePtr X N) : TransState X N F :=
  { s with readThrough := s.readThrough ++ [h] }

/-- `AugBERoaming( other, xlink )`: the copied back end shares the dependency object,
and adds its own link to it. -/
def roamTo (s : TransState X N F) (h : AugTreePtr X N) (field : F) (child : N) (xlink : X) :
    TransState X N F :=
  { s with
    heap := Function.update s.heap h.myDeps ((s.heap h.myDeps).addDep xlink)
    handles := s.handles ++ [⟨child, .roaming xlink, h.myDeps,
      insert xlink (h.reached ∪ s.setLinks h.treePtr field)⟩] }

/-- `AugBEMeandering( other, tree_ptr )`: the copied back end shares the dependency
object. -/
def meanderTo (s : TransState X N F) (h : AugTreePtr X N) (field : F) (child : N) :
    TransState X N F :=
  { s with
    handles := s.handles ++ [⟨child, .meandering, h.myDeps,
      h.reached ∪ s.setLinks h.treePtr field⟩] }

/-- `OnGetChild` of the two back ends. -/
def getChild (xt : XTree X N F C) (s : TransState X N F) (h : AugTreePtr X N) (field : F) :
    Option (TransState X N F) := do
  let child ← s.treePtr h.treePtr field
  match h.be, xt.tryGetXLink h.treePtr field with
  | .roaming _, some xlink => some (s.roamTo h field child xlink)
  | .roaming _, none => none
  | .meandering, some xlink => some (s.roamTo h field child xlink)
  | .meandering, none => some (s.meanderTo h field child)

/-- `DynamicCast`: the same base on success, and a NULL handle without one on failure. -/
def dynamicCast (xt : XTree X N F C) (s : TransState X N F) (h : AugTreePtr X N) (c : C) :
    TransState X N F :=
  if xt.isA h.treePtr c then { s with handles := s.handles ++ [h] } else s

/-- The loop of `GetDeclarers`: one handle for each declarer, as the set of handles is
ordered by their nodes.  A declaring link at a root has no declarer, and asserts. -/
def addDeclarers (xt : XTree X N F C) :
    List X → List N → TransState X N F → Option (TransState X N F)
  | [], _, s => some s
  | x :: declaring, seen, s => do
      let declarer ← xt.tryGetParentXLink x
      if xt.getChildTreePtr declarer ∈ seen then
        addDeclarers xt declaring seen s
      else
        addDeclarers xt declaring (xt.getChildTreePtr declarer :: seen)
          (s.createAugTreePtrRoaming xt declarer)

/-- `GetDeclarers`: of a node that the handle roams at, and the database has a row for. -/
def getDeclarers (xt : XTree X N F C) (s : TransState X N F) (h : AugTreePtr X N) :
    Option (TransState X N F) :=
  match h.be with
  | .roaming xlink => do
      let declaring ← xt.declaringXLinks (xt.getChildTreePtr xlink)
      addDeclarers xt (inOrder declaring) [] s
  | .meandering => none

/-- `MakeTreeNode` and `CreateBE`: a new node, with no children, and a new dependency
object.  The node's address is not in use. -/
def makeAugTreeNode (xt : XTree X N F C) (s : TransState X N F) (node : N) :
    Option (TransState X N F) := do
  ASSERT (node ∉ xt.nodes ∧ s.own node = none)
  some { s with
    heap := Function.update s.heap s.next Dependencies.empty
    next := s.next + 1
    treePtr := Function.update s.treePtr node (fun _ => none)
    handles := s.handles ++ [⟨node, .meandering, s.next, ∅⟩]
    own := Function.update s.own node (some s.next)
    setLinks := Function.update s.setLinks node (fun _ => ∅) }

/-- `SetChild`, and `OnSetChild` of the two back ends: a roaming handle would modify
the X tree; a meandering one chains its dependencies to the new child's. -/
def setChild (s : TransState X N F) (h : AugTreePtr X N) (field : F) (newVal : AugTreePtr X N) :
    Option (TransState X N F) :=
  match h.be with
  | .roaming _ => none
  | .meandering => some { s with
      heap := Function.update s.heap h.myDeps ((s.heap h.myDeps).addChainTo newVal.myDeps)
      treePtr := Function.update s.treePtr h.treePtr
        (Function.update (s.treePtr h.treePtr) field (some newVal.treePtr))
      setLinks := Function.update s.setLinks h.treePtr
        (Function.update (s.setLinks h.treePtr) field newVal.reached) }

/-- `OnDepLeak`: the handle's dependencies go straight to the result's.  So do those of
every handle that has the same object. -/
def onDepLeak (s : TransState X N F) (h : AugTreePtr X N) : TransState X N F :=
  { s with
    heap := Function.update s.heap resultDeps ((s.heap resultDeps).addAllFrom (s.heap h.myDeps))
    leaked := s.leaked ++ s.handles.filter (fun g => g.myDeps = h.myDeps) }

/-- One operation. -/
def exec (xt : XTree X N F C) (s : TransState X N F) : AugOp N F C → Option (TransState X N F)
  | .copy i => do
      let h ← s.handles[i]?
      some { s with handles := s.handles ++ [h] }
  | .getChild i field => do
      let h ← s.handles[i]?
      (s.look h).getChild xt h field
  | .dynamicCast i c => do
      let h ← s.handles[i]?
      some ((s.look h).dynamicCast xt h c)
  | .look i => do
      let h ← s.handles[i]?
      some (s.look h)
  | .getDeclarers i => do
      let h ← s.handles[i]?
      (s.look h).getDeclarers xt h
  | .makeAugTreeNode node => s.makeAugTreeNode xt node
  | .setChild i field j => do
      let h ← s.handles[i]?
      let newVal ← s.handles[j]?
      s.setChild h field newVal
  | .read i => do
      let h ← s.handles[i]?
      some ((s.look h).onDepLeak h)

/-- The states of the runs from a stimulus, all of whose operations meet `Cond`. -/
inductive Reachable (xt : XTree X N F C) (stimulus : X)
    (Cond : TransState X N F → AugOp N F C → Prop) : TransState X N F → Prop
  | start : Reachable xt stimulus Cond (start xt stimulus)
  | step {s s' : TransState X N F} (op : AugOp N F C) : Reachable xt stimulus Cond s → Cond s op →
      s.exec xt op = some s' → Reachable xt stimulus Cond s'

/-- The operations one after the other. -/
def runOps (xt : XTree X N F C) (s : TransState X N F) (ops : List (AugOp N F C)) :
    Option (TransState X N F) :=
  ops.foldlM (exec xt) s

/-! ## §4. The result. -/

/-- `RunRelocatingQuery`, from the handle that the transformation returned: its
dependencies are added to the result's, and `RelocatingQueryResult` gets them all. -/
def resultGetAll (s : TransState X N F) (base : AugTreePtr X N) (fuel : Nat) :
    Option (Finset X) :=
  (s.onDepLeak base).heap.getAll fuel resultDeps

/-- A node contains `x`, when `x` is one of the links through which a node set below it
was reached. -/
inductive Contains (s : TransState X N F) : N → X → Prop
  | here {n : N} {f : F} {x : X} : x ∈ s.setLinks n f → Contains s n x
  | inChild {n m : N} {f : F} {x : X} : s.treePtr n f = some m → Contains s m x → Contains s n x

end TransState

end Inferno.Agents
