/-
  Inferno.DB.Lacing
  ─────────────────
  `Lacing`: categories of node types boiled down to ranges of integers.

    • `CategoryKit`        — what the lacing asks of nodes,
    • `fixupCategories`, `sort`, `buildRanges`, `buildDecisionTree`,
      `testDecisionTree`   — the phases of `Build`,
    • `build`              — all of them; `none` is a failed assertion, or fuel that
                             ran out,
    • `getRangeListForCategory`, `getOrdinalForNode`, `ordinalCompare`.
-/
import Inferno.Common.Assert
import Inferno.Common.Orderable
import Inferno.Common.StdMap
import Inferno.Lib.Runs
import Inferno.Lib.BlockSwap
import Mathlib.Data.Finset.Option
import Mathlib.Order.SymmDiff

namespace Inferno.DB

open Inferno.Common
open Inferno.Lib

/-! ## §1. Nodes. -/

/-- **What the lacing asks of nodes `N`**, and of archetypes, which are nodes.
`K` is what `SimpleCompare` tells apart. -/
structure CategoryKit (N K : Type) where
  /-- `l->IsSubcategory(*r)`: `r` is a non-strict subcategory of `l`. -/
  isSubcategory : N → N → Bool
  isSubcategory_refl : ∀ x, isSubcategory x x = true
  isSubcategory_trans : ∀ x y z, isSubcategory x y = true → isSubcategory y z = true →
    isSubcategory x z = true
  /-- `Node::OrderCompare3Way`. -/
  orderCompare3Way : OrderProperty → N → N → Int
  /-- Node ordering is at least as strict as category equivalence. -/
  isSubcategory_of_orderCompare : ∀ p x y, orderCompare3Way p x y = 0 →
    isSubcategory x y = true ∧ isSubcategory y x = true
  /-- The key of a node in a map ordered by `SimpleCompare`. -/
  simpleCompareKey : N → K
  orderCompare_of_key : ∀ x y, simpleCompareKey x = simpleCompareKey y →
    orderCompare3Way .TOTAL x y = 0

/-- The elements of a `set<TreePtr<Node>>` in iterator order: a null pointer is least. -/
def inPtrOrder {N : Type} [LinearOrder N] (s : Finset (Option N)) : List (Option N) :=
  (if none ∈ s then [none] else []) ++ (inOrder s.eraseNone).map some

namespace CategoryKit

variable {N K : Type} (kit : CategoryKit N K)

/-- `Matcher::IsEquivalentCategory`. -/
def isEquivalentCategory (l r : N) : Bool :=
  kit.isSubcategory l r && kit.isSubcategory r l

/-- `Lacing::LocalMatchWithNULL`; its test for two null pointers comes after the test
for one. -/
def localMatchWithNULL : Option N → Option N → Bool
  | some l, some r => kit.isSubcategory l r
  | _, _ => false

end CategoryKit

/-! ## §2. The lacing. -/

/-- `Lacing::DecisionNode`. -/
inductive DecisionNode (N : Type) where
  | localMatch (category : N) (ifYes ifNo : DecisionNode N)
      (minLacingOrdinal maxLacingOrdinal : Nat)
  | leaf (lacingOrdinal : Nat)
deriving DecidableEq

/-- `Lacing`, built. -/
structure Lacing (N K : Type) where
  categories : Finset (Option N)
  catsInLacingOrder : List (Option N)
  catsToLacingRangeLists : StdMap K (List (Int × Int))
  decisionTreeRoot : DecisionNode N

namespace Lacing

variable {N K : Type} [LinearOrder N] [DecidableEq K] (kit : CategoryKit N K)

/-! ## §3. `FixupCategories`. -/

/-- The inner loop's body: is `x` still unique after `y`? -/
def isUnique (x : N) (unique : Bool) (y : N) : Option Bool :=
  if kit.isEquivalentCategory x y then some false
  else do
    ASSERT (kit.orderCompare3Way .TOTAL x y ≠ 0)
    ASSERT (kit.orderCompare3Way .REPEATABLE x y ≠ 0)
    some unique

/-- The outer loop's body. -/
def fixupCategory (categories : Finset N) (x : N) : Option (Finset N) := do
  let unique ← (inOrder categories).foldlM (isUnique kit x) true
  some (if unique then insert x categories else categories)

/-- `FixupCategories`; the null pointer is inserted last. -/
def fixupCategories (rawCategories : Finset N) : Option (Finset (Option N)) := do
  let categories ← (inOrder rawCategories).foldlM (fixupCategory kit) ∅
  some (insert none (categories.map Function.Embedding.some))

/-! ## §4. `FindSuperAndSubCategories`. -/

/-- `cats_to_nonstrict_supercats.at(cat)`. -/
def nonstrictSupercats (categories : Finset (Option N)) (cat : Option N) : Finset (Option N) :=
  categories.filter (fun candidate => kit.localMatchWithNULL candidate cat)

/-- `cats_to_nonstrict_subcats.at(cat)`. -/
def nonstrictSubcats (categories : Finset (Option N)) (cat : Option N) : Finset (Option N) :=
  categories.filter (fun candidate => kit.localMatchWithNULL cat candidate)

/-! ## §5. `Sort`. -/

/-- The entry at `p`, if `p` is not off the ends. -/
def entryAt (order : List (Option N)) (p : Int) : Option (Option N) :=
  if p < 0 then none else order[p.toNat]?

/-- The weighted difference between two neighbours. -/
def metric (categories : Finset (Option N)) (pa qa : Option N) : Nat :=
  ∑ t ∈ symmDiff (nonstrictSupercats kit categories pa) (nonstrictSupercats kit categories qa),
    (nonstrictSubcats kit categories t).card

section Sorting

variable (categories : Finset (Option N))

/-- `GetMetric`. -/
def getMetric (order : List (Option N)) (p q : Int) : Option Nat :=
  match entryAt order p, entryAt order q with
  | some pa, some qa => do
      ASSERT (p ≠ q)
      some (metric kit categories pa qa)
  | _, _ => some 0

/-- `curr_metric` and `metric_if_swapped`, between the blocks and what is outside. -/
def outerMetrics (order : List (Option N)) (bs i j : Int) : Option (Nat × Nat) :=
  if i - j ≠ order.length - bs then do
    let a ← getMetric kit categories order (i + bs - 1) (i + bs)
    let b ← getMetric kit categories order j (j - 1)
    let c ← getMetric kit categories order i (j - 1)
    let d ← getMetric kit categories order (j + bs - 1) (i + bs)
    some (a + b, c + d)
  else some (0, 0)

/-- `curr_metric` and `metric_if_swapped`, between the blocks; blocks that touch have a
different formula. -/
def innerMetrics (order : List (Option N)) (bs i j : Int) : Option (Nat × Nat) :=
  if i - j ≠ bs then do
    let a ← getMetric kit categories order i (i - 1)
    let b ← getMetric kit categories order (j + bs - 1) (j + bs)
    let c ← getMetric kit categories order (i + bs - 1) (j + bs)
    let d ← getMetric kit categories order j (i - 1)
    some (a + b, c + d)
  else do
    let a ← getMetric kit categories order (j + bs - 1) i
    let c ← getMetric kit categories order (i + bs - 1) j
    some (a, c)

/-- `curr_metric` and `metric_if_swapped`. -/
def swapMetrics (order : List (Option N)) (bs i j : Int) : Option (Nat × Nat) := do
  let outer ← outerMetrics kit categories order bs i j
  let inner ← innerMetrics kit categories order bs i j
  some (outer.1 + inner.1, outer.2 + inner.2)

/-- `tot`: the metric between every place and the next. -/
def totalMetric (order : List (Option N)) : Option Nat :=
  (List.range order.length).foldlM
    (fun tot (k : Nat) => (getMetric kit categories order k (k + 1)).map (tot + ·)) 0

/-- The body of the inner loop, on the order and `swapped`. -/
def sortStep (s : List (Option N) × Bool) (bij : Nat × Nat × Nat) :
    Option (List (Option N) × Bool) := do
  let (bs, i, j) := bij
  let metrics ← swapMetrics kit categories s.1 bs i j
  if metrics.2 < metrics.1 then do
    let expectedReduction := metrics.1 - metrics.2
    let tot ← totalMetric kit categories s.1
    let order ← swapBlocks bs i j s.1
    let tot' ← totalMetric kit categories order
    ASSERT ((expectedReduction : Int) = tot - tot')
    some (order, true)
  else some s

/-- The block sizes and places the three loops go through. -/
def blockSwaps (ncats : Nat) : List (Nat × Nat × Nat) :=
  (List.range (ncats / 2)).reverse.flatMap fun b =>
    (List.range (ncats + 1 - (b + 1))).flatMap fun i =>
      (List.range (i + 1 - (b + 1))).map fun j => (b + 1, i, j)

/-- The body of the `do` loop. -/
def sortPass (order : List (Option N)) : Option (List (Option N) × Bool) :=
  (blockSwaps order.length).foldlM (sortStep kit categories) (order, false)

/-- `do … while( swapped )`. -/
def sortLoop : Nat → List (Option N) → Option (List (Option N))
  | 0, _ => none
  | fuel + 1, order => do
      let (order, swapped) ← sortPass kit categories order
      if swapped then sortLoop fuel order else some order

/-- `Sort`; every pass that swaps lowers the total metric. -/
def sort : Option (List (Option N)) := do
  let order := inPtrOrder categories
  let tot ← totalMetric kit categories order
  sortLoop kit categories (tot + 1) order

end Sorting

/-! ## §6. `BuildRanges`. -/

section Ranges

variable (categories : Finset (Option N)) (order : List (Option N))

/-- `cats_to_lacing_range_lists[supercat]`. -/
def rangeLists (lists : StdMap K (List (Int × Int))) (supercat : N) : List (Int × Int) :=
  (lists.lookup (kit.simpleCompareKey supercat)).getD []

/-- `.push_back( make_pair(i, -1) )`. -/
def beginRange (i : Int) (lists : StdMap K (List (Int × Int))) (supercat : N) :
    Option (StdMap K (List (Int × Int))) :=
  some (lists.set (kit.simpleCompareKey supercat) (rangeLists kit lists supercat ++ [(i, -1)]))

/-- `.back().second = i`. -/
def endRange (i : Int) (lists : StdMap K (List (Int × Int))) (supercat : N) :
    Option (StdMap K (List (Int × Int))) :=
  (closeLast i (rangeLists kit lists supercat)).map
    (lists.set (kit.simpleCompareKey supercat))

/-- The supercategories of the category at `i`; none for a null pointer, nor at
`ncats`. -/
def currentSupercats (i : Nat) : Finset N :=
  match order[i]? with
  | some (some cat) => (nonstrictSupercats kit categories (some cat)).eraseNone
  | _ => ∅

/-- The body of the loop of `BuildRanges`. -/
def buildRangesStep (s : StdMap K (List (Int × Int)) × Finset N) (i : Nat) :
    Option (StdMap K (List (Int × Int)) × Finset N) := do
  let (lists, prevSupercats) := s
  let current := currentSupercats kit categories order i
  let lists ← (inOrder (current \ prevSupercats)).foldlM (beginRange kit i) lists
  let lists ← (inOrder (prevSupercats \ current)).foldlM (endRange kit i) lists
  some (lists, current)

/-- `BuildRanges`; there is an extra iteration, at `ncats`. -/
def buildRanges : Option (StdMap K (List (Int × Int))) := do
  let s ← (List.range (order.length + 1)).foldlM (buildRangesStep kit categories order)
    (StdMap.empty, ∅)
  some s.1

end Ranges

/-! ## §7. `BuildDecisionTree`. -/

section Tree

variable (categories : Finset (Option N)) (order : List (Option N))

/-- The ordinals whose category has `supercat` as a supercategory. -/
def lacingSet (supercat : N) : Finset Nat :=
  (Finset.range order.length).filter fun i =>
    ∃ cat, order[i]? = some cat ∧ some supercat ∈ nonstrictSupercats kit categories cat

/-- `cats_to_lacing_sets.at(supercat)`; there is an entry once an ordinal was
inserted. -/
def lacingSetAt (supercat : N) : Option (Finset Nat) := do
  ASSERT (lacingSet kit categories order supercat).Nonempty
  some (lacingSet kit categories order supercat)

/-- `best_diff`, and `best_cat` with `best_inter` when one was found. -/
abbrev Best (N : Type) := Nat × Option (N × Finset Nat)

/-- Keep the category that splits the possible ordinals, if it does, better than the
best one so far. -/
def betterSplit (possible : Finset Nat) (best : Best N) (cat : N) (inter : Finset Nat) :
    Best N :=
  if inter = ∅ ∨ inter.card = possible.card then best
  else
    let diff := ((inter.card : Int) * 2 - possible.card).natAbs
    if diff < best.1 then (diff, some (cat, inter)) else best

/-- The body of the search for the category that best halves the possible ordinals. -/
def bestStep (possible : Finset Nat) (best : Best N) : Option N → Option (Best N)
  | none => some best -- we don't want to test the NULL category
  | some cat => do
      let set ← lacingSetAt kit categories order cat
      some (betterSplit possible best cat (possible ∩ set))

/-- `MakeDecisionSubtree`. -/
def makeDecisionSubtree : Nat → Finset Nat → Option (DecisionNode N)
  | 0, _ => none
  | fuel + 1, possible => do
      ASSERT (possible ≠ ∅)
      match inOrder possible with
      | [ordinal] => some (.leaf ordinal)
      | ordinals => do
          let best ← (inPtrOrder categories).foldlM (bestStep kit categories order possible)
            (possible.card + 1, none)
          let (bestCat, bestInter) ← best.2
          let bestSetdiff := possible \ (← lacingSetAt kit categories order bestCat)
          let yes ← makeDecisionSubtree fuel bestInter
          let no ← makeDecisionSubtree fuel bestSetdiff
          some (.localMatch bestCat yes no (← ordinals.head?) (← ordinals.getLast?))

/-- `BuildDecisionTree`; both halves of a set are smaller than the set. -/
def buildDecisionTree : Option (DecisionNode N) :=
  makeDecisionSubtree kit categories order order.length (Finset.range order.length)

end Tree

/-! ## §8. Using the decision tree. -/

/-- The loop of `GetOrdinalForNode`, from a decision node. -/
def ordinalFrom : DecisionNode N → Option N → Nat
  | .leaf lacingOrdinal, _ => lacingOrdinal
  | .localMatch category ifYes ifNo _ _, node =>
      if kit.localMatchWithNULL (some category) node then ordinalFrom ifYes node
      else ordinalFrom ifNo node

/-- `GetOrdinalForNode`. -/
def getOrdinalForNode (lacing : Lacing N K) (node : Option N) : Nat :=
  ordinalFrom kit lacing.decisionTreeRoot node

/-- `TestDecisionTree`. -/
def testDecisionTree (order : List (Option N)) (root : DecisionNode N) : Option Unit :=
  ASSERT (∀ e ∈ order.zipIdx, ordinalFrom kit root e.1 = e.2)

/-- One side of `OrdinalCompare`: the decision node, null once the range is a single
ordinal, and the range. -/
structure Descent (N : Type) where
  decisionNode : Option (DecisionNode N)
  min : Nat
  max : Nat

/-- Advance one side. -/
def Descent.advance (node : Option N) (d : Descent N) : Descent N :=
  let d := match d.decisionNode with
    | none => d
    | some (.localMatch category ifYes ifNo min max) =>
        ⟨some (if kit.localMatchWithNULL (some category) node then ifYes else ifNo), min, max⟩
    | some (.leaf lacingOrdinal) => ⟨d.decisionNode, lacingOrdinal, lacingOrdinal⟩
  if d.min = d.max then { d with decisionNode := none } else d

/-- "Do we have a result yet?" -/
def Descent.result (l r : Descent N) : Option Int :=
  if l.max < r.min then some ((l.max : Int) - r.min)
  else if r.max < l.min then some ((l.min : Int) - r.max)
  else if l.min = l.max ∧ r.min = r.max ∧ l.min = r.min then some 0
  else none

/-- The loop of `OrdinalCompare`. -/
def ordinalCompareLoop (lnode rnode : Option N) : Nat → Descent N → Descent N → Option Int
  | 0, _, _ => none
  | fuel + 1, l, r =>
      let l := l.advance kit lnode
      match l.result r with
      | some d => some d
      | none =>
          let r := r.advance kit rnode
          match l.result r with
          | some d => some d
          | none => ordinalCompareLoop lnode rnode fuel l r

/-- The number of decisions on the longest way down. -/
def height : DecisionNode N → Nat
  | .leaf _ => 0
  | .localMatch _ ifYes ifNo _ _ => max (height ifYes) (height ifNo) + 1

/-- `numeric_limits<int>::max()`. -/
def intMax : Nat := 2147483647

/-- `OrdinalCompare`; every turn takes both sides one decision down. -/
def ordinalCompare (lacing : Lacing N K) (lnode rnode : Option N) : Option Int :=
  let root : Descent N := ⟨some lacing.decisionTreeRoot, 0, intMax⟩
  ordinalCompareLoop kit lnode rnode (height lacing.decisionTreeRoot + 1) root root

/-! ## §9. `Build`. -/

/-- `Build( raw_categories )`. -/
def build (rawCategories : Finset N) : Option (Lacing N K) := do
  let categories ← fixupCategories kit rawCategories
  let order ← sort kit categories
  let lists ← buildRanges kit categories order
  let root ← buildDecisionTree kit categories order
  testDecisionTree kit order root
  some ⟨categories, order, lists, root⟩

/-- `TryGetRangeListForCategory`; the empty list is failure. -/
def tryGetRangeListForCategory (lacing : Lacing N K) (archetype : N) :
    Option (List (Int × Int)) :=
  match lacing.catsToLacingRangeLists.lookup (kit.simpleCompareKey archetype) with
  | some lrl => do
      ASSERT (lrl ≠ [])
      some lrl
  | none => some []

/-- `GetRangeListForCategory`. -/
def getRangeListForCategory (lacing : Lacing N K) (archetype : N) :
    Option (List (Int × Int)) := do
  let lrl ← tryGetRangeListForCategory kit lacing archetype
  ASSERT (lrl ≠ [])
  some lrl

end Lacing

end Inferno.DB
