/-
  Inferno.Lang.Fingerprinter
  ──────────────────────────
  `Fingerprinter`: the indices at which a walk of a pattern reaches each node, and the
  nodes in the order of these.

    • `PatternNodes`      — tree nodes, some of them `EmbeddedSCRAgent`s,
    • `processNode`, `processCollection` — the walk; compare-equal elements of a
                            collection are given the same indices,
    • `getNodesInTreeByFingerprint`,
    • `subtree`           — a node and the nodes below it,
    • `replaysApart`      — no replay enters a node with children again that its run of
                            compare-equal elements was the first to reach.
-/
import Inferno.Helpers.SimpleCompare
import Inferno.Lang.UniquifyIdentifiers
import Mathlib.Data.List.Lex
import Mathlib.Data.Finset.Image
import Mathlib.Data.Finset.Union

namespace Inferno.Lang

open Inferno.Common
open Inferno.DB
open Inferno.Helpers
open Inferno.Lib

/-! ## §1. Patterns. -/

/-- What `ProcessChildren` reads of an `EmbeddedSCRAgent`. -/
structure EmbeddedSCR (N : Type) where
  searchPattern : Option N
  replacePattern : Option N
  through : Option N

/-- The nodes of a pattern. -/
structure PatternNodes (N : Type) extends TreeNodes N where
  embedded : N → Option (EmbeddedSCR N)
  embedded_links : ∀ x e, embedded x = some e → ∀ p,
    p ∈ (itemise x).flatMap Item.links ↔ p ∈ [e.searchPattern, e.replacePattern, e.through]

/-- The walk so far: `fingerprints` and `index`. -/
structure Fingerprints (N : Type) where
  fingerprints : StdMap N (Finset Int)
  index : Int

/-- `ProcessCollection`, between two elements. -/
structure CollectionRun (N : Type) where
  state : Fingerprints N
  prevX : Option N
  prevStartIndex : Int

section

variable {N : Type} [LinearOrder N]

/-- The indices of a node; none for one not reached. -/
def Fingerprints.of (st : Fingerprints N) (x : N) : Finset Int :=
  (st.fingerprints.lookup x).getD ∅

/-- `fingerprints[x].insert(index); index++;` -/
def Fingerprints.enter (st : Fingerprints N) (x : N) : Fingerprints N :=
  ⟨st.fingerprints.set x (insert st.index (st.of x)), st.index + 1⟩

namespace PatternNodes

variable (g : PatternNodes N)

/-- `comparer`: a `SimpleCompare( Orderable::REPEATABLE )`. -/
def comparer (l r : N) : Int := SimpleCompare.compare3Way g.toTreeNodes .REPEATABLE l r

/-- Whether an element is a replay of the one before it. -/
def isReplay (prevX : Option N) (x : N) : Bool :=
  match prevX with
  | none => false
  | some prevX => g.comparer x prevX = 0

/-- The items that `ProcessChildren` goes through. -/
def childItems (x : N) : List (Item (Option N)) :=
  match g.embedded x with
  | none => g.itemise x
  | some e =>
      if e.searchPattern = e.replacePattern then
        [.singular e.through, .singular e.searchPattern]
      else g.itemise x

/-! ## §2. The walk. -/

section

variable (node : N → Fingerprints N → Option (Fingerprints N))

/-- `ProcessSingularItem`; NULL is permitted. -/
def processSingularItem (p : Option N) (st : Fingerprints N) : Option (Fingerprints N) :=
  match p with
  | none => some st
  | some x => node x st

/-- `ProcessSequence`; a NULL fails its assertion. -/
def processSequence (ps : List (Option N)) (st : Fingerprints N) : Option (Fingerprints N) := do
  let xs ← ps.mapM id
  xs.foldlM (fun st x => node x st) st

/-- The loop of `ProcessCollection`, over the ordering. -/
def processElement (run : CollectionRun N) (x : N) : Option (CollectionRun N) :=
  if g.isReplay run.prevX x then do
    let tempStartIndex := run.prevStartIndex
    let st ← node x { run.state with index := tempStartIndex }
    -- keep the "real" index going, as if this one had not compared equal
    some ⟨{ st with index := run.state.index + (st.index - tempStartIndex) }, some x,
      run.prevStartIndex⟩
  else do
    let st ← node x run.state
    some ⟨st, some x, run.state.index⟩

/-- `ProcessCollection`. -/
def processCollection (ps : List (Option N)) (st : Fingerprints N) :
    Option (Fingerprints N) := do
  let xs ← ps.mapM id
  let run ← (multisetOf g.comparer xs).foldlM (g.processElement node) ⟨st, none, 0⟩
  some run.state

/-- One item of `ProcessChildren`. -/
def processItem (st : Fingerprints N) : Item (Option N) → Option (Fingerprints N)
  | .singular p => processSingularItem node p st
  | .sequence ps => processSequence node ps st
  | .collection ps => g.processCollection node ps st

/-- `ProcessChildren`. -/
def processChildren (x : N) (st : Fingerprints N) : Option (Fingerprints N) :=
  (g.childItems x).foldlM (g.processItem node) st

end

/-- `ProcessNode`, to a depth. -/
def processNode : Nat → N → Fingerprints N → Option (Fingerprints N)
  | 0, _, _ => none
  | depth + 1, x, st => do
      let st ← if x ∈ st.fingerprints.keys then some st
        else g.processChildren (processNode depth) x st
      some (st.enter x)

/-- `NodeSetByFingerprint`: the sets of indices compare as lists do. -/
def nodeSetsByFingerprint (st : Fingerprints N) : List (Finset Int × List N) :=
  let keys := st.fingerprints.keys
  (inOrder (keys.image fun x => inOrder (st.of x))).map fun fp =>
    (fp.toFinset, inOrder (keys.filter fun x => inOrder (st.of x) = fp))

/-- `GetNodesInTreeByFingerprint`. -/
def getNodesInTreeByFingerprint (context : N) : Option (List (Finset Int × List N)) := do
  let st ← g.processNode (g.height context + 1) context ⟨StdMap.empty, 0⟩
  some (nodeSetsByFingerprint st)

/-! ## §3. What lies below a node. -/

/-- The nodes that the items of a node point to. -/
def children (x : N) : List N := ((g.itemise x).flatMap Item.links).filterMap id

/-- A node and what is below it, to a depth. -/
def subtreeTo : Nat → N → Finset N
  | 0, x => {x}
  | depth + 1, x => insert x ((g.children x).toFinset.biUnion (subtreeTo depth))

/-- A node and what is below it. -/
def subtree (x : N) : Finset N := g.subtreeTo (g.height x) x

/-! ## §4. Replays. -/

section

variable (apart : Finset N → N → Bool)

/-- Over the nodes of a sequence: each from what the ones before it have reached. -/
def apartSequence : Finset N → List N → Bool
  | _, [] => true
  | reached, x :: xs => apart reached x && apartSequence (reached ∪ g.subtree x) xs

/-- Over the ordering of a collection.  `start` was reached when the run of compare-equal
elements began; a replay may meet nodes with children only of these, or new ones. -/
def apartOrdering : Option N → Finset N → Finset N → List N → Bool
  | _, _, _, [] => true
  | prevX, start, reached, x :: xs =>
      if g.isReplay prevX x then
        (∀ z ∈ g.subtree x, g.children z ≠ [] → z ∈ reached → z ∈ start) && apart reached x
          && apartOrdering (some x) start (reached ∪ g.subtree x) xs
      else apart reached x && apartOrdering (some x) reached (reached ∪ g.subtree x) xs

/-- Over one item. -/
def apartItem (reached : Finset N) : Item (Option N) → Bool
  | .collection ps =>
      g.apartOrdering apart none ∅ reached (multisetOf g.comparer (ps.filterMap id))
  | item => g.apartSequence apart reached (item.links.filterMap id)

/-- Over the items of a node. -/
def apartItems : Finset N → List (Item (Option N)) → Bool
  | _, [] => true
  | reached, item :: items =>
      g.apartItem apart reached item
        && apartItems (reached ∪ (item.links.filterMap id).toFinset.biUnion g.subtree) items

end

/-- From a node, to a depth; nothing is walked below a node reached before. -/
def apartNode : Nat → Finset N → N → Bool
  | 0, _, _ => true
  | depth + 1, reached, x =>
      decide (x ∈ reached) || g.apartItems (apartNode depth) reached (g.childItems x)

/-- **Replays are apart**: where elements of a collection compare equal, no element after
the first comes again to a node with children that the run was the first to reach. -/
def replaysApart (context : N) : Bool := g.apartNode (g.height context + 1) ∅ context

end PatternNodes

end

end Inferno.Lang
