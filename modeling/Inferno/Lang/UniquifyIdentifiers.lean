/-
  Inferno.Lang.UniquifyIdentifiers
  ────────────────────────────────
  `UniquifyNames`: one name for each node, from the names the nodes have.

    • `sscanfHint`, `ssprintfHint` — `UID_FORMAT_HINT`, `"%s_%u"`, in and out,
    • `UniqueNameGenerator`        — the numbers used, by base name,
    • `Policy`, `Context`          — which nodes are named, from what, and which keep
                                     their name,
    • `uniquifyAll`                — the nodes one after the other; `none` is a failed
                                     assertion, a `Refusal` nobody catches, or a name
                                     that does not fit `SplitName`'s buffer.
-/
import Inferno.Common.StdMap

namespace Inferno.Lang

open Inferno.Common

/-- A `std::string`. -/
abbrev Name := List Char

/-! ## §1. The format. -/

/-- `isspace`. -/
def isSpace (c : Char) : Bool := c ∈ [' ', '\t', '\n', '\x0b', '\x0c', '\r']

/-- The size of the buffer that `%s` is read into. -/
def cbSize : Nat := 1024

/-- `sscanf( s, "%s_%u", cb, n )`: what `%s` read, and what `%u` read.  `%s` skips
spaces and reads up to the next space; the `_` must come next; `%u` skips spaces and reads
digits.  `none` when `%s` overruns the buffer. -/
def sscanfHint (s : Name) : Option (Option Name × Option Nat) := do
  let s := s.dropWhile isSpace
  let cb := s.takeWhile (fun c => !isSpace c)
  ASSERT (cb.length < cbSize)
  if cb = [] then some (none, none) else
  match s.dropWhile (fun c => !isSpace c) with
  | '_' :: rest =>
      let digits := (rest.dropWhile isSpace).takeWhile Char.isDigit
      some (some cb, if digits = [] then none else some (Nat.ofDigitChars 10 digits 0))
  | _ => some (some cb, none)

/-- `SSPrintf( "%s_%u", b, n )`. -/
def ssprintfHint (b : Name) (n : Nat) : Name := b ++ '_' :: Nat.toDigits 10 n

/-! ## §2. The generator. -/

/-- `MakeUniqueName`. -/
def makeUniqueName (b : Name) (n : Nat) : Option Name :=
  if n > 0 then some (ssprintfHint b n)
  else do
    ASSERT (b ≠ [])
    some b

/-- `SplitName`, of the name that the name getter returned: the base name, and the
number wanted. -/
def splitName (originalName : Name) : Option (Name × Nat) := do
  let (cb, n) ← sscanfHint originalName
  match cb, n with
  | some cb, some n => if n > 0 then some (cb, n) else some (originalName, unsplit originalName)
  | _, _ => some (originalName, unsplit originalName)
where
  /-- An unnamed node starts at 1, the others at 0. -/
  unsplit (originalName : Name) : Nat := if originalName = [] then 1 else 0

section

variable {Node : Type} [DecidableEq Node]

/-- `AssignNumber`, the loop: up from `n` while the number is used.  The fuel is one more
than the numbers used, so that it does not run out. -/
def nextUnused (used : Finset Nat) : Nat → Nat → Nat
  | 0, n => n
  | fuel + 1, n => if n ∈ used then nextUnused used fuel (n + 1) else n

/-- `AssignNumber`. -/
def assignNumber (nu : StdMap Nat Node) (node : Node) (n : Nat) : StdMap Nat Node × Nat :=
  let n := nextUnused nu.keys (nu.keys.card + 1) n
  (nu.insertNew n node, n)

/-- `UniqueNameGenerator`: `name_usages`. -/
abbrev UniqueNameGenerator (Node : Type) := StdMap Name (StdMap Nat Node)

/-- `AddNode`, of a node whose name getter returned `originalName`. -/
def addNode (nameUsages : UniqueNameGenerator Node) (node : Node) (originalName : Name) :
    Option (UniqueNameGenerator Node × Name) := do
  let (baseName, nWant) ← splitName originalName
  match nameUsages.lookup baseName with
  | some nu =>
      let (nu, nGot) := assignNumber nu node nWant
      let name ← makeUniqueName baseName nGot
      some (nameUsages.set baseName nu, name)
  | none =>
      let (nu, nGot) := assignNumber StdMap.empty node nWant
      let name ← makeUniqueName baseName nGot
      some (nameUsages.insertNew baseName nu, name)

/-- `AddNodeNoRename`.  `insert` leaves a record that exists as it is. -/
def addNodeNoRename (nameUsages : UniqueNameGenerator Node) (node : Node)
    (originalName : Name) : Option (UniqueNameGenerator Node) := do
  ASSERT (originalName ≠ [])
  let (baseName, nWant) ← splitName originalName
  let (nu, _) := assignNumber StdMap.empty node nWant
  some (nameUsages.insertNew baseName nu)

/-! ## §3. The nodes. -/

/-- `UniquifyNames::Policy`.  The name getter may throw a `Refusal`. -/
structure Policy (Node : Type) where
  nameGetter : Node → Option Name
  includeSingleParent : Bool
  includeMultiParent : Bool
  includeDesignationNamedIdentifiers : Bool
  preserveUndeclaredIds : Bool

/-- What `UniquifyAll` asks of the nodes, and of the declarations in the tree. -/
structure Context (Node : Type) where
  isDesignationNamedIdentifier : Node → Bool
  isSpecificIdentifier : Node → Bool
  /-- `DeclarationOf` finds one declaration, and does not throw. -/
  isDeclared : Node → Bool
  getIdentifierName : Node → Name

/-- Whether a node is used, by its fingerprint's number of reachings. -/
def use (policy : Policy Node) (cx : Context Node) (numReachings : Nat) (node : Node) : Bool :=
  if policy.includeSingleParent && numReachings = 1 then true
  else if policy.includeMultiParent && decide (numReachings ≥ 2) then true
  else if policy.includeDesignationNamedIdentifiers && cx.isDesignationNamedIdentifier node then true
  else false

/-- `nodes_in_dfpo`: the nodes used, in the order of their fingerprints. -/
def nodesInDfpo (policy : Policy Node) (cx : Context Node)
    (nodeSetsByFp : List (Finset Int × List Node)) : List Node :=
  nodeSetsByFp.flatMap (fun p => p.2.filter (use policy cx p.1.card))

/-- The generator, and the names given so far. -/
structure Uniquifier (Node : Type) where
  nameGen : UniqueNameGenerator Node
  nodesToNames : StdMap Node Name

/-- An undeclared identifier, when the policy is to preserve these. -/
def isPreserved (policy : Policy Node) (cx : Context Node) (node : Node) : Bool :=
  policy.preserveUndeclaredIds && cx.isSpecificIdentifier node && !cx.isDeclared node

/-- The handler of `DeclarationNotFound`.  A `Refusal` thrown here leaves `UniquifyAll`. -/
def preserveNode (policy : Policy Node) (cx : Context Node) (u : Uniquifier Node) (node : Node) :
    Option (Uniquifier Node) :=
  if cx.getIdentifierName node = [] then some u
  else do
    let originalName ← policy.nameGetter node
    let nameGen ← addNodeNoRename u.nameGen node originalName
    some ⟨nameGen, u.nodesToNames.insertNew node (cx.getIdentifierName node)⟩

/-- The other nodes.  One whose name getter refuses gets no name. -/
def renameNode (policy : Policy Node) (u : Uniquifier Node) (node : Node) :
    Option (Uniquifier Node) :=
  match policy.nameGetter node with
  | none => some u
  | some originalName => do
      let (nameGen, name) ← addNode u.nameGen node originalName
      ASSERT (name ≠ [])
      some ⟨nameGen, u.nodesToNames.insertNew node name⟩

/-- The body of the loop over the nodes. -/
def uniquifyNode (policy : Policy Node) (cx : Context Node) (u : Uniquifier Node) (node : Node) :
    Option (Uniquifier Node) :=
  if isPreserved policy cx node then preserveNode policy cx u node else renameNode policy u node

/-- `UniquifyAll`, from the nodes by fingerprint. -/
def uniquifyAll (policy : Policy Node) (cx : Context Node)
    (nodeSetsByFp : List (Finset Int × List Node)) : Option (StdMap Node Name) := do
  let u ← (nodesInDfpo policy cx nodeSetsByFp).foldlM (uniquifyNode policy cx)
    ⟨StdMap.empty, StdMap.empty⟩
  some u.nodesToNames

end

end Inferno.Lang
