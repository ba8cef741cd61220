/-
  Inferno.CSP.ReferenceSolver
  ───────────────────────────
  `ReferenceSolver`, its `ValueSelector`s, and the hooks that
  `BackjumpingSolver` overrides, as the code runs them.

    • `valueSelector` — what a selector will generate, fixed when it is made,
    • `SolverState`   — the members a run mutates,
    • `tryFindNextConsistentValue`, `assignSuccessful`, `assignUnsuccessful`,
    • `Overrides`     — the two virtual methods `Solve` calls,
    • `run`           — `ReferenceSolver::Run`, as the list of its events: every
                        consistency check, and every call of the solution and
                        rejection report functions.

  `none` is a failed assertion, a throwing `at()`, or fuel running out.
-/
import Inferno.Lib.Loop
import Inferno.CSP.Plan
import Mathlib.Data.Finset.Sort

namespace Inferno.CSP

open Inferno.Common
open Inferno.SYM
open Inferno.Lib

/-! ## §1. Value selectors. -/

section

variable {C Var Val : Type} [LinearOrder C] [LinearOrder Val]

/-- `ValueSelector::ValueSelector`: the values `GetNextValue` will pop, in order.
A set that can be extensionalised is walked in `set<Value>` order; otherwise the
default generator walks the domain. -/
def valueSelector (M : ConstraintMethods C Var Val) (db : XTreeDatabase Val)
    (constraintsToQuery : Finset C) (assignments : Assignments Var Val) (var : Var) :
    Option (List Val) := do
  let result ← SubsetResult.getIntersection
    ((constraintsToQuery.sort).map (fun c => M.getSuggestedValues c assignments var))
  match result.tryExtensionalise with
  | some suggested => some suggested.sort
  | none => some db.unorderedDomain

/-- Making a selector never asserts, and it offers no value twice. -/
theorem valueSelector_spec (M : ConstraintMethods C Var Val) (db : XTreeDatabase Val)
    (toQuery : Finset C) (a : Assignments Var Val) (x : Var) :
    ∃ vals, valueSelector M db toQuery a x = some vals ∧ vals.Nodup := by
  obtain ⟨r, hr, _⟩ := SubsetResult.getIntersection_spec
    (toQuery.sort.map (fun c => M.getSuggestedValues c a x))
  cases he : r.tryExtensionalise with
  | none => exact ⟨db.unorderedDomain, by simp [valueSelector, hr, he], db.nodup⟩
  | some s => exact ⟨s.sort, by simp [valueSelector, hr, he], s.sort_nodup (· ≤ ·)⟩

/-- A domain value that every queried constraint suggests is generated. -/
theorem mem_valueSelector {M : ConstraintMethods C Var Val} {db : XTreeDatabase Val}
    {toQuery : Finset C} {a : Assignments Var Val} {x : Var} {vals : List Val} {v : Val}
    (h : valueSelector M db toQuery a x = some vals)
    (hsug : ∀ c ∈ toQuery, (M.getSuggestedValues c a x).contains v)
    (hdom : v ∈ db.unorderedDomain) : v ∈ vals := by
  obtain ⟨r, hr, hmem⟩ := SubsetResult.getIntersection_spec
    (toQuery.sort.map (fun c => M.getSuggestedValues c a x))
  have hv : r.contains v := by
    rw [hmem]
    intro op hop
    obtain ⟨c, hc, rfl⟩ := List.mem_map.mp hop
    exact hsug c ((Finset.mem_sort _).mp hc)
  cases he : r.tryExtensionalise with
  | none =>
      have hvals : db.unorderedDomain = vals := by simpa [valueSelector, hr, he] using h
      rwa [← hvals]
  | some s =>
      have hvals : s.sort = vals := by simpa [valueSelector, hr, he] using h
      rw [← hvals, Finset.mem_sort]
      exact (SubsetResult.tryExtensionalise_eq_some he v).mpr hv

end

/-! ## §2. The solver and its state. -/

/-- What `Run` can be observed to do. -/
inductive Event (C Var Val : Type) where
  /-- `ConsistencyCheck` at a level (`none`: the fully forced check of `Run`). -/
  | check (level : Option Nat) (toTest : Finset C) (assignments : Assignments Var Val)
  | solution (assignments : Assignments Var Val)
  | rejection (assignments : Assignments Var Val)

/-- The solution an event reports, if it reports one. -/
def Event.solution? {C Var Val : Type} : Event C Var Val → Option (Assignments Var Val)
  | .solution a => some a
  | _ => none

/-- A started solver: the members a run does not change. -/
structure ReferenceSolver (C Var Val : Type) where
  methods : ConstraintMethods C Var Val
  plan : Plan C Var
  xTreeDb : XTreeDatabase Val
  forcedAssignments : Assignments Var Val

/-- The members a run mutates.  `conflictedCount` is `BackjumpingSolver`'s. -/
structure SolverState (Var Val : Type) where
  currentVarIndex : Nat
  assignments : Assignments Var Val
  valueSelectors : Nat → Option (List Val)
  successCount : Nat → Option Nat
  conflictedCount : Nat

/-- `ReferenceSolver::Start`: the forces must be the plan's. -/
def start {C Var Val : Type} [DecidableEq Var] (M : ConstraintMethods C Var Val) (plan : Plan C Var)
    (forces : Assignments Var Val) (db : XTreeDatabase Val) :
    Option (ReferenceSolver C Var Val) := do
  ASSERT (∀ x ∈ plan.domainForcedVariables, x ∈ forces.keys)
  ASSERT (∀ x ∈ plan.arbitraryForcedVariables, x ∈ forces.keys)
  ASSERT (forces.keys.card
    = plan.domainForcedVariables.card + plan.arbitraryForcedVariables.card)
  some ⟨M, plan, db, forces⟩

namespace ReferenceSolver

variable {C Var Val : Type} [LinearOrder C] [DecidableEq Var] [LinearOrder Val]
variable (S : ReferenceSolver C Var Val)

/-! ## §3. One level. -/

/-- What `TryFindNextConsistentValue` leaves behind: the value found, the
constraints that were unsatisfied, the selector's remaining values, the
assignments, and the checks made. -/
structure TryFindResult (C Var Val : Type) where
  value : Option Val
  allUnsatisfied : Finset C
  selector : List Val
  assignments : Assignments Var Val
  checks : List (Event C Var Val)

/-- The loop of `TryFindNextConsistentValue`, on the values left in the selector. -/
def tryValues (myVarIndex : Nat) (var : Var) :
    List Val → Assignments Var Val → Finset C → Option (TryFindResult C Var Val)
  | [], a, allUnsatisfied => some ⟨none, allUnsatisfied, [], a, []⟩
  | value :: selector, a, allUnsatisfied => do
      let a := a.set var value
      let toTest := S.plan.completedConstraints myVarIndex
      let (consistent, unsatisfied) := consistencyCheck S.methods a toTest
      ASSERT (consistent = true ∨ unsatisfied ≠ ∅)
      let check := Event.check (some myVarIndex) toTest a
      if consistent then
        some ⟨some value, allUnsatisfied ∪ unsatisfied, selector, a, [check]⟩
      else do
        let a ← a.eraseSolo var
        let r ← tryValues myVarIndex var selector a (allUnsatisfied ∪ unsatisfied)
        some { r with checks := check :: r.checks }

/-- `TryFindNextConsistentValue`. -/
def tryFindNextConsistentValue (s : SolverState Var Val) :
    Option (TryFindResult C Var Val × SolverState Var Val) := do
  let var ← S.plan.freeVariables[s.currentVarIndex]?
  let selector ← s.valueSelectors s.currentVarIndex
  let r ← S.tryValues s.currentVarIndex var selector s.assignments ∅
  some (r, { s with
    assignments := r.assignments
    valueSelectors := Function.update s.valueSelectors s.currentVarIndex (some r.selector) })

/-- Make the selector of a variable and zero its success count. -/
def makeSelector (s : SolverState Var Val) (k : Nat) : Option (SolverState Var Val) := do
  let var ← S.plan.freeVariables[k]?
  let selector ← valueSelector S.methods S.xTreeDb (S.plan.affectedConstraints k)
    s.assignments var
  some { s with
    currentVarIndex := k
    valueSelectors := Function.update s.valueSelectors k (some selector)
    successCount := Function.update s.successCount k (some 0) }

/-- `ReferenceSolver::AssignSuccessful`. -/
def assignSuccessful (s : SolverState Var Val) :
    Option (SolverState Var Val × List (Event C Var Val)) := do
  let count ← s.successCount s.currentVarIndex
  let s := { s with
    successCount := Function.update s.successCount s.currentVarIndex (some (count + 1)) }
  if s.currentVarIndex + 1 < S.plan.freeVariables.length then
    let s ← S.makeSelector s (s.currentVarIndex + 1)
    some (s, [])
  else do
    let freeAssignments ← s.assignments.differenceOfSolo S.forcedAssignments
    some (s, [Event.solution freeAssignments])

/-- `ReferenceSolver::AssignUnsuccessful`; the flag is `cease`. -/
def assignUnsuccessful (s : SolverState Var Val) : Option (SolverState Var Val × Bool) := do
  let _ ← s.valueSelectors s.currentVarIndex -- EraseSolo
  let var ← S.plan.freeVariables[s.currentVarIndex]?
  let s := { s with
    valueSelectors := Function.update s.valueSelectors s.currentVarIndex none
    assignments := s.assignments.erase var }
  if s.currentVarIndex = 0 then
    some (s, true)
  else
    some ({ s with currentVarIndex := s.currentVarIndex - 1 }, false)

/-! ## §4. Solve and Run. -/

/-- The virtual methods that `Solve` calls. -/
structure Overrides (C Var Val : Type) where
  assignSuccessful : SolverState Var Val → Option (SolverState Var Val × List (Event C Var Val))
  assignUnsuccessful : SolverState Var Val → Option (SolverState Var Val × Bool)

/-- `ReferenceSolver` overrides nothing. -/
def reference : Overrides C Var Val := ⟨S.assignSuccessful, S.assignUnsuccessful⟩

/-- The body of the `while(true)` of `Solve`. -/
def solveTurn (ov : Overrides C Var Val) (s : SolverState Var Val) :
    Option (Turn (SolverState Var Val) (Event C Var Val)) := do
  let (r, s) ← S.tryFindNextConsistentValue s
  match r.value with
  | none => do
      let (s, cease) ← ov.assignUnsuccessful s
      let out := r.checks ++ [Event.rejection s.assignments]
      some ⟨out, if cease then none else some s⟩
  | some _ => do
      let (s, out) ← ov.assignSuccessful s
      some ⟨r.checks ++ out, some s⟩

/-- `Solve`, from the empty maps that `Start` leaves. -/
def solve (ov : Overrides C Var Val) (fuel : Nat) : Option (List (Event C Var Val)) := do
  let s ← S.makeSelector ⟨0, S.forcedAssignments, fun _ => none, fun _ => none, 0⟩ 0
  loop (S.solveTurn ov) fuel s

/-- `ReferenceSolver::Run`. -/
def run (ov : Overrides C Var Val) (fuel : Nat) : Option (List (Event C Var Val)) :=
  let fullyForced := S.plan.fullyForcedConstraintSet
  let first := Event.check none fullyForced S.forcedAssignments
  if (consistencyCheck S.methods S.forcedAssignments fullyForced).1 = false then
    some [first, Event.rejection StdMap.empty]
  else if S.plan.freeVariables = [] then
    some [first, Event.solution StdMap.empty]
  else do
    let events ← S.solve ov fuel
    some (first :: events)

end ReferenceSolver

end Inferno.CSP
