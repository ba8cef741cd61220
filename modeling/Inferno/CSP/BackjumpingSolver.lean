/-
  Inferno.CSP.BackjumpingSolver
  ─────────────────────────────
  `BackjumpingSolver`: the overrides of `ReferenceSolver`'s two hooks.
-/
import Inferno.CSP.ReferenceSolver
import Mathlib

namespace Inferno.CSP.ReferenceSolver

variable {C Var Val : Type} [LinearOrder C] [DecidableEq Var] [LinearOrder Val]
variable (S : ReferenceSolver C Var Val)

local instance le_isTrans : IsTrans C (fun x y => x ≤ y) := inferInstance

local instance le_antisymm : Std.Antisymm (fun x y : C => x ≤ y) := inferInstance

/-- `ReferenceSolver::GetAffectedVariableIndices`: the positions of every free
variable of the given constraints. -/
def getAffectedVariableIndices (constraints : Finset C) : Option (Finset Nat) :=
  constraints.sort.foldlM (fun allVarIndices c =>
    (S.plan.freeVarIndicesForConstraint c).map (allVarIndices ∪ ·)) ∅

/-- `BackjumpingSolver::AssignSuccessful`. -/
def backjumpingAssignSuccessful (s : SolverState Var Val) :
    Option (SolverState Var Val × List (Event C Var Val)) :=
  S.assignSuccessful { s with conflictedCount := 0 }

/-- The `do … while( backjump )` of `BackjumpingSolver::AssignUnsuccessful`.  The
number counts the levels left: each pass moves one level up, and the base method
ceases at level 0. -/
def backjump (possiblyConflictedVars : Finset Nat) (canBackjump : Bool) :
    Nat → SolverState Var Val → Option (SolverState Var Val × Bool)
  | 0, s => S.assignUnsuccessful s
  | n + 1, s => do
      let (s, cease) ← S.assignUnsuccessful s
      if cease then
        some (s, true)
      else if s.currentVarIndex ∉ possiblyConflictedVars ∧ canBackjump = true then
        backjump possiblyConflictedVars canBackjump n s
      else
        some (s, false)

/-- `BackjumpingSolver::AssignUnsuccessful`. -/
def backjumpingAssignUnsuccessful (s : SolverState Var Val) :
    Option (SolverState Var Val × Bool) := do
  let suspect := S.plan.affectedConstraints s.currentVarIndex
  let possiblyConflictedVars ← S.getAffectedVariableIndices suspect
  let successCount ← s.successCount s.currentVarIndex
  let canBackjump := decide (s.conflictedCount = 0 ∧ successCount = 0)
  let (s, cease) ← S.backjump possiblyConflictedVars canBackjump s.currentVarIndex s
  if cease then
    some (s, true)
  else
    some ({ s with conflictedCount := s.conflictedCount + 1 }, false)

/-- `BackjumpingSolver`'s overrides.  Its `Solve` clears `conflicted_count` and
calls the base method, which starts from a state where it is 0. -/
def backjumping : Overrides C Var Val :=
  ⟨S.backjumpingAssignSuccessful, S.backjumpingAssignUnsuccessful⟩

end Inferno.CSP.ReferenceSolver
