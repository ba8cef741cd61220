/-
  Inferno.Engine.DecidedQuery
  ───────────────────────────
  An agent's query, the conjecture that makes its choices, and the lambda that runs the
  one under the other.

    • `DecidedQuery`         — query.cpp: the decisions an agent registers and the
                               choices it is given for them,
    • `Conjecture`           — conjecture.cpp, of one agent,
    • `runRegenerationQuery` — agent_common.cpp: the agent's code, a script of calls to
                               its query, from a reset query,
    • `callLambda`, `Yields` — the lambda of `StartRegenerationQuery`, called until it
                               throws.
-/
import Inferno.DB.XTreeDatabase
import Inferno.Lib.Odometer

namespace Inferno.Engine

open Inferno.Common
open Inferno.DB
open Inferno.Lib.Odometer

variable {L V E : Type}

/-! ## §1. Iterators and ranges. -/

/-- `ContainerInterface::iterator`. -/
abbrev Iterator (L : Type) := Cursor (List L)

/-- `DecidedQueryCommon::Range`. -/
abbrev Range (L : Type) := Span (List L)

/-- `DecidedQueryCommon::Choice`: `none` has mode `BEGIN`, `some iter` mode `ITER`. -/
abbrev Choice (L : Type) := Option (Iterator L)

/-- `operator==`; iterators of different containers are not to be compared. -/
def iteratorEq [DecidableEq L] (a b : Iterator L) : Option Bool := do
  ASSERT (a.container = b.container)
  some (a.pos == b.pos)

/-- `operator++`. -/
def advance (it : Iterator L) : Option (Iterator L) := do
  ASSERT (it.pos < it.container.length)
  some ⟨it.container, it.pos + 1⟩

/-- `Range::operator==`. -/
def rangeEq [DecidableEq L] (r o : Range L) : Option Bool := do
  if !(← iteratorEq r.begin o.begin) then some false
  else if !(← iteratorEq r.stop o.stop) then some false
  else some (r.inclusive == o.inclusive)

/-- `empty_range`. -/
def emptyRange : Range L :=
  ⟨⟨[], 0⟩, ⟨[], 0⟩, false⟩

/-! ## §2. The query. -/

/-- `last_activity`. -/
inductive Activity where
  | NEW
  | QUERY
  | CONJECTURE
deriving DecidableEq

/-- `DecidedQuery`, over abnormal nodes `E`.  The iterators into the vectors are
indices. -/
structure DecidedQuery (L V E : Type) where
  abnormalNodes : StdMap V E
  decisions : List (Range L)
  nextDecision : Nat
  choices : List (Choice L)
  nextChoice : Nat
  lastActivity : Activity

namespace DecidedQuery

/-- The constructor, from the decisions of the pattern query. -/
def make (decisions : List Bool) : DecidedQuery L V E :=
  ⟨StdMap.empty, decisions.map (fun _ => emptyRange), 0, decisions.map (fun _ => none), 0, .NEW⟩

/-- `Start`. -/
def start (q : DecidedQuery L V E) : DecidedQuery L V E :=
  { q with decisions := q.decisions.map (fun _ => emptyRange) }

/-- `Reset`. -/
def reset (q : DecidedQuery L V E) : DecidedQuery L V E :=
  { q with abnormalNodes := StdMap.empty, nextDecision := 0, nextChoice := 0 }

/-- `RegisterAbnormalNode`. -/
def registerAbnormalNode [DecidableEq V] (q : DecidedQuery L V E) (plink : V) (node : E) :
    DecidedQuery L V E :=
  { q with abnormalNodes := q.abnormalNodes.set plink node }

/-- `it == r.end || *it`. -/
def choiceOk [DecidableEq L] (nonnull : L → Bool) (r : Range L) (it : Iterator L) :
    Option Bool := do
  if ← iteratorEq it r.stop then some true
  else it.container[it.pos]?.map nonnull

/-- `r.inclusive || it != r.end`. -/
def decisionOk [DecidableEq L] (r : Range L) (it : Iterator L) : Option Bool :=
  if r.inclusive then some true else (iteratorEq it r.stop).map (!·)

/-- `RegisterDecision`. -/
def registerDecision [DecidableEq L] (nonnull : L → Bool) (q : DecidedQuery L V E)
    (r : Range L) : Option (Iterator L × DecidedQuery L V E) := do
  ASSERT ((← decisionOk r r.begin) = true) -- no empty decisions
  let nextDecision ← q.decisions[q.nextDecision]?
  let nextChoice ← q.choices[q.nextChoice]?
  let (it, decisions) ← match nextChoice with
    | some iter => do
        -- any decision submitted here must match the previous one
        ASSERT ((← rangeEq r nextDecision) = true)
        some (iter, q.decisions)
    | none => some (r.begin, q.decisions.set q.nextDecision r)
  ASSERT ((← decisionOk r it) = true)
  ASSERT ((← choiceOk nonnull r it) = true)
  some (it, { q with
    decisions := decisions
    nextDecision := q.nextDecision + 1
    nextChoice := q.nextChoice + 1 })

/-- `CompleteDecisionsWithEmpty`. -/
def completeDecisionsWithEmpty (q : DecidedQuery L V E) : DecidedQuery L V E :=
  { q with decisions := q.decisions.take q.nextDecision
      ++ (q.decisions.drop q.nextDecision).map (fun _ => emptyRange) }

/-- `Invalidate`. -/
def invalidate (q : DecidedQuery L V E) (bc : Nat) : Option (DecidedQuery L V E) := do
  ASSERT (bc < q.choices.length)
  some { q with
    nextDecision := min q.nextDecision bc
    choices := q.choices.set bc none }

/-- `SetChoice`. -/
def setChoice (q : DecidedQuery L V E) (bc : Nat) (newc : Choice L) :
    Option (DecidedQuery L V E) := do
  ASSERT (bc < q.choices.length)
  some { q with choices := q.choices.set bc newc }

/-- The calls an agent makes to its query, on this query. -/
def call [DecidableEq L] [DecidableEq V] (nonnull : L → Bool) :
    Script (List L) (V × E) → DecidedQuery L V E → Option (DecidedQuery L V E)
  | .stop, q => some q
  | .fail, _ => none
  | .emit e next, q => call nonnull next (q.registerAbnormalNode e.1 e.2)
  | .choose r next, q => do
      let (it, q) ← q.registerDecision nonnull r
      call nonnull (next it) q

end DecidedQuery

/-! ## §3. The conjecture. -/

/-- `Conjecture`, of one agent: its record has the decisions of the pattern query, true
for an inclusive one, and the query. -/
structure Conjecture (L V E : Type) where
  pqDecisions : List Bool
  query : DecidedQuery L V E

namespace Conjecture

variable [DecidableEq L]

/-- The constructor. -/
def make (pqDecisions : List Bool) : Conjecture L V E :=
  ⟨pqDecisions, DecidedQuery.make pqDecisions⟩

/-- `Start`, with `FillChoicesWithHardBegin`. -/
def start (conj : Conjecture L V E) : Conjecture L V E :=
  let query := conj.query.start
  { conj with query := { query with choices := query.choices.map (fun _ => none) } }

/-- `Reset`. -/
def reset (conj : Conjecture L V E) : Conjecture L V E :=
  { conj with query := conj.query.reset }

/-- The body of `IncrementAgent`: whether choice `bc` went on to another iterator; if
not, it is invalid. -/
def incrementChoice (q : DecidedQuery L V E) (bc : Nat) :
    Option (Bool × DecidedQuery L V E) := do
  let backChoice ← q.choices[bc]?
  let backDecision ← q.decisions[bc]?
  let iter := backChoice.getD backDecision.begin
  if ← iteratorEq iter backDecision.stop then
    -- inclusive: we let the choice go to end but we won't go any further
    some (false, ← q.invalidate bc)
  else
    let iter ← advance iter
    let q ← q.setChoice bc (some iter)
    -- exclusive: we don't let the choice be end
    if !backDecision.inclusive && (← iteratorEq iter backDecision.stop) then
      some (false, ← q.invalidate bc)
    else some (true, q)

/-- `IncrementAgent`. -/
def incrementAgent (q : DecidedQuery L V E) : Nat → Option (Bool × DecidedQuery L V E)
  | 0 => incrementChoice q 0
  | bc + 1 => do
      let (ok, q) ← incrementChoice q (bc + 1)
      if ok then some (true, q) else incrementAgent q bc

/-- `Increment`.  The agent's record is the only one: none is previous to it. -/
def increment (conj : Conjecture L V E) : Option (Bool × Conjecture L V E) :=
  if conj.pqDecisions.isEmpty then
    some (false, conj) -- no decisions at all this time!
  else
    match conj.query.lastActivity with
    | .QUERY => do
        let (ok, query) ← incrementAgent conj.query (conj.pqDecisions.length - 1)
        some (ok, { conj with query := { query with lastActivity := .CONJECTURE } })
    | _ => some (false, conj)

end Conjecture

/-! ## §4. The regeneration query. -/

section

variable [DecidableEq L] [DecidableEq V]

/-- `AgentCommon::RunRegenerationQuery`, of an agent whose `RunRegenerationQueryImpl`
makes the calls `impl`. -/
def runRegenerationQuery (nonnull : L → Bool) (impl : Script (List L) (V × E))
    (hypothesisLinks : StdMap V (XLink L)) (keyerPlink : V) (q : DecidedQuery L V E) :
    Option (DecidedQuery L V E) := do
  let q := { q with lastActivity := .QUERY }
  let q := q.reset
  let keyerXlink ← hypothesisLinks.lookup keyerPlink
  let q ← if keyerXlink ≠ .MMAX then q.call nonnull impl else some q
  some q.completeDecisionsWithEmpty

/-- What the lambda of `StartRegenerationQuery` captures. -/
structure QueryLambda (L V E : Type) where
  nlqConjecture : Conjecture L V E
  first : Bool

/-- `StartRegenerationQuery`. -/
def startRegenerationQuery (nlqConjecture : Conjecture L V E) : QueryLambda L V E :=
  ⟨nlqConjecture.start, true⟩

/-- One call of the lambda; `none` for the query is `NLQConjOutAfterHitMismatch`.  The
agent's own query `run` throws no mismatch, so the inner loop runs it once. -/
def callLambda (run : DecidedQuery L V E → Option (DecidedQuery L V E))
    (st : QueryLambda L V E) : Option (Option (DecidedQuery L V E) × QueryLambda L V E) := do
  let (ok, nlqConjecture) ←
    if !st.first then st.nlqConjecture.increment else some (true, st.nlqConjecture)
  if ok then do
    let query ← run nlqConjecture.query
    some (some query, ⟨{ nlqConjecture with query := query }, false⟩)
  else
    some (none, ⟨nlqConjecture.reset, st.first⟩)

/-- **The lambda, called again and again until it throws**, returns these queries. -/
inductive Yields (run : DecidedQuery L V E → Option (DecidedQuery L V E)) :
    QueryLambda L V E → List (DecidedQuery L V E) → Prop
  | throws {st st' : QueryLambda L V E} : callLambda run st = some (none, st') → Yields run st []
  | returns {st st' : QueryLambda L V E} {q : DecidedQuery L V E}
      {qs : List (DecidedQuery L V E)} :
      callLambda run st = some (some q, st') → Yields run st' qs → Yields run st (q :: qs)

end

end Inferno.Engine
