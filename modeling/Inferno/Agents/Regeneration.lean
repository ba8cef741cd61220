/-
  Inferno.Agents.Regeneration
  ───────────────────────────
  `StandardAgent`: its plan, its queries, and the calls its regeneration makes.

    • `StandardPlan`                   — the plans of a pattern node's items,
    • `getPatternQuery`                — the decisions and links the conjecture and the
                                         engine are told of,
    • `symbolicNormalLinkedQueryPRed`  — the conjunction over all items,
    • `regenerationQuerySequence`      — a decision for each star of a run but the last,
                                         and a sub-sequence for each,
    • `runRegenerationQueryImpl`       — all of them.
-/
import Inferno.Agents.CollectionQuery
import Inferno.Engine.DecidedQuery
import Mathlib

namespace Inferno.Agents

open Inferno.Common
open Inferno.DB
open Inferno.SYM
open Inferno.Engine
open Inferno.Lib.Odometer

variable {V L A N M : Type}

/-! ## §1. The plan. -/

/-- An item of the pattern node: `none` for a null singular pointer. -/
inductive PatternItem (V : Type) where
  | singular (plink : Option V)
  | sequence (pattern : List V)
  | collection (pattern : List V)

/-- The pattern links of an item. -/
def PatternItem.links : PatternItem V → List V
  | .singular plink => plink.toList
  | .sequence pattern => pattern
  | .collection pattern => pattern

/-- `StandardAgent::Plan`; a sequence or collection has its `pattern` beside its plan, a
singular its item index. -/
structure StandardPlan (V : Type) where
  sequences : List (List V × SequencePlan V)
  collections : List (List V × CollectionPlan V)
  singulars : List (Nat × V)

namespace StandardPlan

variable [DecidableEq V]

/-- The body of the loop of `ConstructPlan`, at an item and its index. -/
def addItem (isStar : V → Bool) (inReplaceOnly : Bool) (plan : StandardPlan V)
    (item : PatternItem V × Nat) : Option (StandardPlan V) :=
  match item.1 with
  | .sequence pattern =>
      some { plan with
        sequences := plan.sequences ++ [(pattern, SequencePlan.make isStar item.2 pattern)] }
  | .collection pattern => do
      let planCol ← CollectionPlan.make isStar inReplaceOnly item.2 pattern
      some { plan with collections := plan.collections ++ [(pattern, planCol)] }
  | .singular none => some plan -- only make plans for non-null singular pointers
  | .singular (some plink) => some { plan with singulars := plan.singulars ++ [(item.2, plink)] }

/-- `ConstructPlan`. -/
def constructPlan (isStar : V → Bool) (inReplaceOnly : Bool) (items : List (PatternItem V)) :
    Option (StandardPlan V) :=
  items.zipIdx.foldlM (addItem isStar inReplaceOnly) ⟨[], [], []⟩

end StandardPlan

/-! ## §2. The pattern query. -/

/-- `PatternQuery`: the decisions, true for an inclusive one, and the links. -/
structure PatternQuery (V : Type) where
  decisions : List Bool
  normalLinks : List V
  abnormalLinks : List V

namespace PatternQuery

/-- `RegisterDecision`. -/
def registerDecision (pq : PatternQuery V) (inclusive : Bool) : PatternQuery V :=
  { pq with decisions := pq.decisions ++ [inclusive] }

/-- `RegisterNormalLink`. -/
def registerNormalLink (pq : PatternQuery V) (plink : V) : PatternQuery V :=
  { pq with normalLinks := pq.normalLinks ++ [plink] }

/-- `RegisterAbnormalLink`. -/
def registerAbnormalLink (pq : PatternQuery V) (plink : V) : PatternQuery V :=
  { pq with abnormalLinks := pq.abnormalLinks ++ [plink] }

/-- `IncrPatternQuerySingular`. -/
def incrSingular (pq : PatternQuery V) (planSing : Nat × V) : PatternQuery V :=
  pq.registerNormalLink planSing.2

/-- `IncrPatternQueryCollection`. -/
def incrCollection (isStar : V → Bool) (pq : PatternQuery V)
    (planCol : List V × CollectionPlan V) : PatternQuery V :=
  let pq := planCol.1.foldl (fun pq plink =>
    if isStar plink then pq -- the star in a collection is not linked
    else (pq.registerDecision false).registerNormalLink plink) pq
  planCol.2.starPlink.toList.foldl registerAbnormalLink pq

/-- `IncrPatternQuerySequence`. -/
def incrSequence (isStar : V → Bool) (pq : PatternQuery V)
    (planSeq : List V × SequencePlan V) : PatternQuery V :=
  planSeq.1.zipIdx.foldl (fun pq pit =>
    if isStar pit.1 then
      let pq := if some pit.2 ≠ planSeq.2.pitLastStar then pq.registerDecision true else pq
      pq.registerAbnormalLink pit.1
    else pq.registerNormalLink pit.1) pq

end PatternQuery

/-- `GetPatternQuery`. -/
def getPatternQuery (isStar : V → Bool) (plan : StandardPlan V) : PatternQuery V :=
  let pq := plan.singulars.foldl PatternQuery.incrSingular ⟨[], [], []⟩
  let pq := plan.collections.foldl (PatternQuery.incrCollection isStar) pq
  plan.sequences.foldl (PatternQuery.incrSequence isStar) pq

/-! ## §3. The symbolic query. -/

section

variable [LinearOrder V] [LinearOrder L]

omit [LinearOrder V] [LinearOrder L] in
theorem length_patternOperand {keyerPlink : V} :
    [variableExpr (A := A) (L := L) keyerPlink].length = 1 := rfl

/-- `IsLocalMatchOperator(GetPatternPtr().get(), …)`. -/
def localMatchClause (patternNode : M) (keyerPlink : V) :
    BooleanExpression (PredicateOperator (SymbolExpression V L A) A M) :=
  .predicate ⟨.isLocalMatch patternNode, [variableExpr keyerPlink], length_patternOperand⟩

/-- `SymbolicNormalLinkedQuerySingular`. -/
def symbolicNormalLinkedQuerySingular (archetypeNode : A) (planSing : Nat × V) (keyerPlink : V) :
    BooleanExpression (PredicateOperator (SymbolExpression V L A) A M) :=
  isEqual (.childToSymbol .singularChild archetypeNode planSing.1 (variableExpr keyerPlink))
    (variableExpr planSing.2)

/-- `StandardAgent::SymbolicNormalLinkedQueryPRed`. -/
def symbolicNormalLinkedQueryPRed (archetypeNode : A) (patternNode : M) (plan : StandardPlan V)
    (keyerPlink : V) : BooleanExpression (PredicateOperator (SymbolExpression V L A) A M) :=
  let expr := localMatchClause patternNode keyerPlink
  let expr := expr.andAll (plan.singulars.map (fun planSing =>
    symbolicNormalLinkedQuerySingular archetypeNode planSing keyerPlink))
  let expr := expr.andAll (plan.collections.map (fun planCol =>
    symbolicNormalLinkedQueryCollection archetypeNode planCol.2 keyerPlink))
  expr.andAll (plan.sequences.map (fun planSeq =>
    symbolicNormalLinkedQuerySequence archetypeNode planSeq.2 keyerPlink))

omit [LinearOrder L] in
/-- The conjunction holds iff each item's does. -/
theorem satisfied_pRed_iff {pred : PredicateOperator (SymbolExpression V L A) A M → Option Bool}
    {archetypeNode : A} {patternNode : M} {plan : StandardPlan V} {keyerPlink : V} :
    (symbolicNormalLinkedQueryPRed archetypeNode patternNode plan keyerPlink).Satisfied pred
      ↔ (localMatchClause patternNode keyerPlink).Satisfied pred
        ∧ (∀ s ∈ plan.singulars,
          (symbolicNormalLinkedQuerySingular archetypeNode s keyerPlink).Satisfied pred)
        ∧ (∀ c ∈ plan.collections,
          (symbolicNormalLinkedQueryCollection archetypeNode c.2 keyerPlink).Satisfied pred)
        ∧ ∀ s ∈ plan.sequences,
          (symbolicNormalLinkedQuerySequence archetypeNode s.2 keyerPlink).Satisfied pred := by
  unfold symbolicNormalLinkedQueryPRed
  simp only [BooleanExpression.satisfied_andAll, List.forall_mem_map, and_assoc]

end

/-! ## §4. The calls of regeneration. -/

/-- A node registered for a star. -/
inductive AbnormalNode (L N : Type) where
  | subSequence (range : SubSequenceRange L N)
  | subCollection (range : SubCollectionRange L N)

/-- The calls of a `StandardAgent` to its query. -/
abbrev Calls (V L N : Type) := Script (List L) (V × AbnormalNode L N)

/-- What is between two iterators. -/
def between (xitBegin xitEnd : Iterator L) : List L :=
  (xitBegin.container.take xitEnd.pos).drop xitBegin.pos

section

variable [DecidableEq V]

/-- The loop over the elements of a run, from `xit`; `back` is `run->elts.back()`. -/
def regenerationQueryElts (parentX : N) (back : Option V) (xitStarLimit : Iterator L) :
    List V → Iterator L → Calls V L N → Calls V L N
  | [], _, k => k
  | plink :: elts, xit, k =>
      if some plink ≠ back then -- another star follows this one, forcing a decision
        .choose ⟨xit, xitStarLimit, true⟩ (fun xitStarEnd =>
          .emit (plink, .subSequence ⟨parentX, between xit xitStarEnd⟩)
            (regenerationQueryElts parentX back xitStarLimit elts xitStarEnd k))
      else -- no decision needed, we go all the way up to the limit
        .emit (plink, .subSequence ⟨parentX, between xit xitStarLimit⟩)
          (regenerationQueryElts parentX back xitStarLimit elts xit k)

/-- `x_tree_db->GetRow(xlink).container_it`, of a link in a sequence. -/
def containerIt (db : XTreeDatabase L N A) (xlink : XLink L) : Option (Iterator L) := do
  let row ← db.getRow xlink
  ASSERT (row.contextType = .inSequence)
  some ⟨row.pContainer, row.containerOrdinal.toNat⟩

/-- `xit` and `xit_star_limit` of a run; the inner `none` is a neighbour that has no
value. -/
def runRange (db : XTreeDatabase L N A) (hypothesisLinks : StdMap V (XLink L)) (pXSeq : List L)
    (run : Run V) : Option (Option (Iterator L × Iterator L)) :=
  let xit : Option (Option (Iterator L)) := match run.predecessor with
    | none => some (some ⟨pXSeq, 0⟩)
    | some predecessor =>
        match hypothesisLinks.lookup predecessor with
        | none => some none
        | some predXlink => do
            let it ← containerIt db predXlink
            let it ← advance it -- get past the non-star
            some (some it)
  match xit with
  | none => none
  | some none => some none
  | some (some xit) =>
      match run.successor with
      | none => some (some (xit, ⟨pXSeq, pXSeq.length⟩))
      | some successor =>
          match hypothesisLinks.lookup successor with
          | none => some none
          | some succXlink => do
              let xitStarLimit ← containerIt db succXlink
              some (some (xit, xitStarLimit))

/-- The loop over the runs. -/
def regenerationQueryRuns (db : XTreeDatabase L N A) (hypothesisLinks : StdMap V (XLink L))
    (pXSeq : List L) (parentX : N) : List (Run V) → Calls V L N → Calls V L N
  | [], k => k
  | run :: runs, k =>
      match runRange db hypothesisLinks pXSeq run with
      | none => .fail
      | some none => k -- can't do any more
      | some (some (xit, xitStarLimit)) =>
          regenerationQueryElts parentX run.elts.getLast? xitStarLimit run.elts xit
            (regenerationQueryRuns db hypothesisLinks pXSeq parentX runs k)

/-- `RegenerationQuerySequence`.  The runs are in a set keyed by address, which
`inSetOrder` orders. -/
def regenerationQuerySequence (db : XTreeDatabase L N A) (hypothesisLinks : StdMap V (XLink L))
    (inSetOrder : List (Run V) → List (Run V)) (pXSeq : List L) (parentX : N)
    (planSeq : SequencePlan V) (k : Calls V L N) : Calls V L N :=
  if planSeq.numNonStar ≤ pXSeq.length then
    regenerationQueryRuns db hypothesisLinks pXSeq parentX (inSetOrder planSeq.starRuns) k
  else .fail

/-- `dynamic_cast<SequenceInterface *>(x_items[…])`. -/
def xSequence (xItems : List (Item L)) (itemiseIndex : Nat) : Option (List L) :=
  match xItems[itemiseIndex]? with
  | some (.sequence ls) => some ls
  | _ => none

/-- The calls for the sequences of a plan. -/
def regenerationQuerySequences (db : XTreeDatabase L N A) (hypothesisLinks : StdMap V (XLink L))
    (inSetOrder : List (Run V) → List (Run V)) (xItems : List (Item L)) (parentX : N) :
    List (List V × SequencePlan V) → Calls V L N
  | [] => .stop
  | planSeq :: planSeqs =>
      match xSequence xItems planSeq.2.itemiseIndex with
      | none => .fail
      | some pXSeq => regenerationQuerySequence db hypothesisLinks inSetOrder pXSeq parentX
          planSeq.2
          (regenerationQuerySequences db hypothesisLinks inSetOrder xItems parentX planSeqs)

end

section

variable [LinearOrder V] [LinearOrder L]

/-- The calls for the collections of a plan. -/
def regenerationQueryCollections (db : XTreeDatabase L N A)
    (hypothesisLinks : StdMap V (XLink L)) (archetypeNode : A) (keyerPlink : V) :
    List (List V × CollectionPlan V) → Calls V L N → Calls V L N
  | [], k => k
  | planCol :: planCols, k =>
      match runRegenerationQueryCollection db hypothesisLinks archetypeNode planCol.2 keyerPlink with
      | none => .fail
      | some subs => subs.foldr (fun sub k => .emit (sub.1, .subCollection sub.2) k)
          (regenerationQueryCollections db hypothesisLinks archetypeNode keyerPlink planCols k)

/-- `StandardAgent::RunRegenerationQueryImpl`. -/
def runRegenerationQueryImpl (db : XTreeDatabase L N A) (hypothesisLinks : StdMap V (XLink L))
    (inSetOrder : List (Run V) → List (Run V)) (archetypeNode : A) (plan : StandardPlan V)
    (keyerPlink : V) : Calls V L N :=
  match hypothesisLinks.lookup keyerPlink with
  | none => .fail
  | some keyerXlink =>
      match db.getChildTreePtr keyerXlink with
      | none => .fail
      | some parentX =>
          match keyerItems db hypothesisLinks archetypeNode keyerPlink with
          | none => .fail
          | some xItems =>
              regenerationQueryCollections db hypothesisLinks archetypeNode keyerPlink
                plan.collections
                (regenerationQuerySequences db hypothesisLinks inSetOrder xItems parentX
                  plan.sequences)

end

end Inferno.Agents
