/-
  Inferno.CSP.Constraint
  ──────────────────────
  The data the solvers work on.

    • `Assignments`        — `map<VariableId, Value>`,
    • `ConstraintMethods`  — the virtual methods of `CSP::Constraint`, as tables
                             over the constraint pointers; the interface's
                             "variables not used by this constraint are ignored"
                             is a field,
    • `XTreeDatabase`      — what the solvers read of the database: the domain,
    • `consistencyCheck`   — `ReferenceSolver::ConsistencyCheck`.
-/
import Inferno.Common.StdMap
import Inferno.SYM.SubsetResult

namespace Inferno.CSP

open Inferno.Common
open Inferno.SYM

/-! ## §1. Assignments. -/

/-- `CSP::Assignments`. -/
abbrev Assignments (Var Val : Type) := StdMap Var Val

/-! ## §2. Constraints. -/

/-- The virtual methods of `CSP::Constraint`, over constraint pointers `C`. -/
structure ConstraintMethods (C Var Val : Type) where
  getVariables : C → Finset Var
  getVariablesRequiringDB : C → Finset Var
  isSatisfied : C → Assignments Var Val → Bool
  getSuggestedValues : C → Assignments Var Val → Var → SubsetResult Val
  isSatisfied_congr : ∀ (c : C) (a b : Assignments Var Val),
    (∀ x ∈ getVariables c, a.lookup x = b.lookup x) → isSatisfied c a = isSatisfied c b

/-- Suggestions, too, depend only on the variables the constraint declares. -/
def ConstraintMethods.SuggestionsLocal {C Var Val : Type} (M : ConstraintMethods C Var Val) :
    Prop :=
  ∀ (c : C) (a b : Assignments Var Val),
    (∀ x ∈ M.getVariables c, a.lookup x = b.lookup x) →
    ∀ x, M.getSuggestedValues c a x = M.getSuggestedValues c b x

/-- The part of `XTreeDatabase` a solver reads: the domain, in the iteration
order of its `unordered_set`. -/
structure XTreeDatabase (Val : Type) where
  unorderedDomain : List Val
  nodup : unorderedDomain.Nodup

section

variable {C Var Val : Type} [DecidableEq C]

/-- `ReferenceSolver::ConsistencyCheck`: `(matched, unsatisfied)`. -/
def consistencyCheck (M : ConstraintMethods C Var Val) (assignments : Assignments Var Val)
    (toTest : Finset C) : Bool × Finset C :=
  let unsatisfied := toTest.filter (fun c => M.isSatisfied c assignments = false)
  (decide (∀ c ∈ toTest, M.isSatisfied c assignments = true), unsatisfied)

omit [DecidableEq C] in
theorem consistencyCheck_fst (M : ConstraintMethods C Var Val) (a : Assignments Var Val)
    (toTest : Finset C) :
    (consistencyCheck M a toTest).1 = true ↔ ∀ c ∈ toTest, M.isSatisfied c a = true := by
  simp [consistencyCheck]

omit [DecidableEq C] in
/-- The caller's `ASSERT( consistent || !unsatisfied.empty() )` holds. -/
theorem consistencyCheck_unsatisfied (M : ConstraintMethods C Var Val) (a : Assignments Var Val)
    (toTest : Finset C) :
    (consistencyCheck M a toTest).1 = true ∨ (consistencyCheck M a toTest).2 ≠ ∅ := by
  by_cases h : ∀ c ∈ toTest, M.isSatisfied c a = true
  · exact Or.inl ((consistencyCheck_fst M a toTest).mpr h)
  · right
    push Not at h
    obtain ⟨c, hc, hsat⟩ := h
    have hmem : c ∈ (consistencyCheck M a toTest).2 :=
      Finset.mem_filter.mpr ⟨hc, by simpa using hsat⟩
    exact Finset.ne_empty_of_mem hmem

end

end Inferno.CSP
