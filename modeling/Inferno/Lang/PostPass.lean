/-
  Inferno.Lang.PostPass
  ─────────────────────
  The pass over a parsed tree that removes the code units where none are accepted.

    • `PassNode`     — what the pass reads of a node,
    • `Children`     — the child of each link; the pass changes these only,
    • `processMutator` — the recursion; `none` is an assertion, or fuel run out,
    • `Reaches`      — the links below the root, and whether they accept code units,
    • `Innermost`    — the innermost member of nested code units,
    • `Cleans`       — what the pass is for,
    • `Way`          — how the pass comes to a link,
    • `SingleUnits`, `MetOnce` — what the pass needs at the links it comes to.
-/
import Inferno.Common.Assert
import Inferno.DB.XTreeDatabase

namespace Inferno.Lang.PostPass

open Inferno.Common
open Inferno.DB (Item)

variable {L N : Type}

/-! ## §1. The tree. -/

/-- A node: a `CodeUnit`, itself or as a `StandardAgent`; another agent, with whether it is a
`ColocatingAgent` and whether a `RelocatingAgent`; or a node that is no agent. -/
inductive PassNode (L : Type) where
  | codeUnit (isAgent : Bool) (members : List L)
  | agent (colocating relocating : Bool) (items : List (Item L))
  | plain (items : List (Item L))

/-- `Itemise`. -/
def PassNode.itemise : PassNode L → List (Item L)
  | codeUnit _ members => [.collection members]
  | agent _ _ items => items
  | plain items => items

/-- What `ProcessNode` makes of `can_accept_code_unit`.  A standard agent is a
`ColocatingAgent`. -/
def PassNode.canAcceptBelow (canAccept : Bool) : PassNode L → Bool
  | codeUnit _ _ => false
  | agent colocating relocating _ => if colocating || relocating then false else canAccept
  | plain _ => false

def PassNode.isCodeUnit : PassNode L → Bool
  | codeUnit _ _ => true
  | _ => false

/-- `cu->members`.  `operator->` asserts that the node is of the pointer's class. -/
def PassNode.members : PassNode L → Option (List L)
  | codeUnit _ members => some members
  | _ => none

/-- The child of each link, if it is not NULL. -/
abbrev Children (L N : Type) := L → Option N

/-! ## §2. The pass. -/

section

variable [DecidableEq L] (node : N → PassNode L)

/-- `ExchangeChild`, for the front of the members of `cu`.  `TreePtr<CodeUnit>(child)` is a
conversion and casts nothing: `cu` is any child that is not NULL. -/
def exchange (l : L) (children : Children L N) : Option (Children L N) :=
  match children l with
  | some cu => do
      let members ← (node cu).members
      ASSERT (members.length ≠ 0)
      ASSERT (members.length = 1)
      let front ← members.head?
      some (Function.update children l (children front))
  | none => some children

/-- What is at a link that does not accept code units gives way to its member. -/
def exchangeUnless (canAccept : Bool) (l : L) (children : Children L N) :
    Option (Children L N) :=
  if canAccept then some children else exchange node l children

section

variable (process : L → Bool → Children L N → Option (Children L N)) (canAccept : Bool)

/-- `ProcessSingularItem`. -/
def processSingularItem (l : L) (children : Children L N) : Option (Children L N) :=
  if (children l).isSome then process l canAccept children else some children

/-- `ProcessSequence` and `ProcessCollection`. -/
def processContainer (ls : List L) (children : Children L N) : Option (Children L N) :=
  ls.foldlM (fun children l => do
    ASSERT (children l).isSome
    process l canAccept children) children

/-- One turn of the loop of `ProcessChildren`. -/
def processItem (children : Children L N) : Item L → Option (Children L N)
  | .sequence ls => processContainer process canAccept ls children
  | .collection ls => processContainer process canAccept ls children
  | .singular l => processSingularItem process canAccept l children

end

/-- `ProcessMutator`, of the mutator at a link, with `ProcessNode` and `ProcessChildren`. -/
def processMutator : Nat → L → Bool → Children L N → Option (Children L N)
  | 0, _, _, _ => none
  | fuel + 1, l, canAccept, children => do
      let children ← exchangeUnless node canAccept l children
      let x ← children l
      (node x).itemise.foldlM
        (processItem (processMutator fuel) ((node x).canAcceptBelow canAccept)) children

/-- `Run`: the root accepts a code unit. -/
def run (fuel : Nat) (root : L) (children : Children L N) : Option (Children L N) :=
  processMutator node fuel root true children

end

/-! ## §3. What it is for. -/

/-- The links of a node. -/
def PassNode.links (n : PassNode L) : List L := n.itemise.flatMap Item.links

variable (node : N → PassNode L)

/-- A link is at or below the root; the flag is whether it accepts a code unit there: it does
not strictly below a node that is not an agent, a colocating agent or a relocating agent. -/
inductive Reaches (root : L) (children : Children L N) : L → Bool → Prop where
  | root : Reaches root children root true
  | child {l l' : L} {canAccept : Bool} {n : N} (h : Reaches root children l canAccept)
      (hn : children l = some n) (hl : l' ∈ (node n).links) :
      Reaches root children l' ((node n).canAcceptBelow canAccept)

/-- A code unit would not be accepted at the link. -/
def Illegal (root : L) (children : Children L N) (l : L) : Prop :=
  Reaches node root children l false

/-- The innermost member of code units of one member each, nested directly in one another. -/
inductive Innermost (children : Children L N) : N → N → Prop where
  | other {n : N} (h : (node n).isCodeUnit = false) : Innermost children n n
  | member {n n' x : N} {isAgent : Bool} {l : L} (h : node n = .codeUnit isAgent [l])
      (hl : children l = some n') (hx : Innermost children n' x) : Innermost children n x

/-- The child of a link as the pass should leave it: at a link that does not accept code units
the innermost member, and else what it was. -/
structure Cleaned (root : L) (children : Children L N) (l : L) (child : Option N) : Prop where
  replaced : Illegal node root children l → ∀ n, children l = some n →
    ∃ x, Innermost node children n x ∧ child = some x
  null : children l = none → child = none
  unchanged : ¬ Illegal node root children l → child = children l

/-- **The pass cleans the tree**: it terminates, afterwards no code unit is at a link that does
not accept one, and each link of the tree that is left has the child it should have. -/
def Cleans [DecidableEq L] (root : L) (children : Children L N) : Prop :=
  ∃ fuel out, run node fuel root children = some out
    ∧ (∀ l, Illegal node root out l → ∀ n, out l = some n → (node n).isCodeUnit = false)
    ∧ ∀ l canAccept, Reaches node root out l canAccept → Cleaned node root children l (out l)

/-- **A parsed tree**: the links lead down, those of a node are different, the root and the
elements of containers are not NULL, and each code unit found where it is not accepted has one
member. -/
structure Parsed (root : L) (children : Children L N) : Prop where
  acyclic : WellFounded fun child parent =>
    child ∈ (node parent).links.filterMap children
  nodup : ∀ n, (node n).links.Nodup
  rootNonnull : (children root).isSome
  nonnull : ∀ l canAccept n, Reaches node root children l canAccept → children l = some n →
    ∀ item ∈ (node n).itemise, (∀ l', item ≠ .singular l') →
      ∀ l' ∈ item.links, (children l').isSome
  oneMember : ∀ l n isAgent members, Illegal node root children l → children l = some n →
    node n = .codeUnit isAgent members → members.length = 1

/-! ## §4. The way of the pass. -/

/-- **A way of the pass**, the link it comes to first: from a link that accepts code units to
those of its child, and else past a code unit to those of its member's child. -/
inductive Way (root : L) (children : Children L N) : List L → Bool → Prop where
  | root : Way root children [root] true
  | child {l l' : L} {ls : List L} {n : N} (h : Way root children (l :: ls) true)
      (hn : children l = some n) (hl : l' ∈ (node n).links) :
      Way root children (l' :: l :: ls) ((node n).canAcceptBelow true)
  | member {l m l' : L} {ls : List L} {n x : N} {isAgent : Bool}
      (h : Way root children (l :: ls) false) (hn : children l = some n)
      (hunit : node n = .codeUnit isAgent [m]) (hx : children m = some x)
      (hl : l' ∈ (node x).links) : Way root children (l' :: l :: ls) false

/-- The child of the link is a code unit with one member, whose child is no code unit. -/
def SingleUnitAt (children : Children L N) (l : L) : Prop :=
  ∃ n isAgent m x, children l = some n ∧ node n = .codeUnit isAgent [m] ∧ children m = some x
    ∧ (node x).isCodeUnit = false

/-- **Every link that the pass comes to and that accepts no code unit** is NULL, or has a code
unit that is not nested. -/
def SingleUnits (root : L) (children : Children L N) : Prop :=
  ∀ l ls, Way node root children (l :: ls) false → (children l).isSome →
    SingleUnitAt node children l

/-- **There is one way only** to a link that accepts no code unit, if it is not NULL. -/
def MetOnce (root : L) (children : Children L N) : Prop :=
  ∀ l ls ls' canAccept, Way node root children (l :: ls) false →
    Way node root children (l :: ls') canAccept → (children l).isSome → ls = ls'

end Inferno.Lang.PostPass
