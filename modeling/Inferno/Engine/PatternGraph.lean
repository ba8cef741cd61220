/-
  Inferno.Engine.PatternGraph
  ───────────────────────────
  The pattern an engine plans for: agents, the links between them, and the
  symbolic queries the agents answer.

    • `PatternQuery`           — the links of an agent, by what engine they go to,
    • `PatternGraph`           — an acyclic pattern, with each agent's own query,
    • `couplingCondition`      — what is asked of a residual and its keyer,
    • `symbolicQuery`          — `AgentCommon::SymbolicQuery`,
    • `mem_splitAnds_symbolicQuery` — its conjuncts are the coupling conditions, one
                                 for each residual, and those of the agent's own query.
-/
import Inferno.Common.StdMap
import Inferno.SYM.Rewriters
import Inferno.SYM.SymbolExpression
import Mathlib

namespace Inferno.Engine

open Inferno.Common
open Inferno.DB
open Inferno.SYM

/-! ## §1. The variables of a predicate. -/

section

variable {Link X A M : Type} [DecidableEq Link]

/-- `SymbolExpression::GetRequiredVariables`. -/
def symbolVariables : SymbolExpression Link X A → Finset Link
  | .symbolConstant _ => ∅
  | .symbolVariable plink => {plink}
  | .childToSymbol _ _ _ a => symbolVariables a
  | .xTreeDbToSymbol _ a => symbolVariables a

/-- The same of a predicate, over its operands. -/
def predicateVariables (p : PredicateOperator (SymbolExpression Link X A) A M) : Finset Link :=
  (p.operands.map symbolVariables).foldr (· ∪ ·) ∅

end

/-! ## §2. Patterns. -/

/-- The expressions the agents give to the engine. -/
abbrev Expression (Link X A M : Type) : Type :=
  BooleanExpression (PredicateOperator (SymbolExpression Link X A) A M)

/-- `GetRequiredVariables` of such an expression. -/
abbrev Expression.variables {Link X A M : Type} [DecidableEq Link] (e : Expression Link X A M) :
    Finset Link :=
  e.requiredVariables predicateVariables

/-- The links of a `PatternQuery`: the engine that queries the agent follows the normal
ones, and plans a subordinate engine for each of the others. -/
structure PatternQuery (Link : Type) where
  normalLinks : List Link
  abnormalLinks : List Link
  multiplicityLinks : List Link

/-- Which of the three lists a link stands in. -/
inductive LinkKind where
  | normal
  | abnormal
  | multiplicity
deriving DecidableEq

/-- An acyclic pattern.  A `PatternLink` is the address of a pointer inside the agent it
belongs to, so it belongs to no other; a query requires no variable that the agent does
not have. -/
structure PatternGraph (Agent Link X A M : Type) [DecidableEq Link] where
  childAgent : Link → Agent
  patternQuery : Agent → PatternQuery Link
  isDisjunction : Agent → Bool
  symbolicNormalLinkedQuery : Agent → Link → Expression Link X A M
  owner : Link → Option (Agent × LinkKind)
  rank : Agent → Nat
  owner_normal : ∀ a, ∀ l ∈ (patternQuery a).normalLinks, owner l = some (a, .normal)
  owner_abnormal : ∀ a, ∀ l ∈ (patternQuery a).abnormalLinks, owner l = some (a, .abnormal)
  owner_multiplicity :
    ∀ a, ∀ l ∈ (patternQuery a).multiplicityLinks, owner l = some (a, .multiplicity)
  rank_lt : ∀ a l kind, owner l = some (a, kind) → rank (childAgent l) < rank a
  required : ∀ a keyer, ∀ v ∈ (symbolicNormalLinkedQuery a keyer).variables,
    v = keyer ∨ v ∈ (patternQuery a).normalLinks

namespace PatternGraph

variable {Agent Link X A M : Type}

section

variable [DecidableEq Link] (G : PatternGraph Agent Link X A M)

/-- The normal links of an agent. -/
def normalLinks (a : Agent) : List Link := (G.patternQuery a).normalLinks

theorem rank_normal (a : Agent) : ∀ l ∈ G.normalLinks a, G.rank (G.childAgent l) < G.rank a := by
  intro l hl
  exact G.rank_lt a l .normal (G.owner_normal a l hl)

/-- A normal link belongs to one agent. -/
theorem normalLinks_unique {a b : Agent} {l : Link} (ha : l ∈ G.normalLinks a)
    (hb : l ∈ G.normalLinks b) : a = b := by
  have h := (G.owner_normal a l ha).symm.trans (G.owner_normal b l hb)
  exact congrArg Prod.fst (Option.some.inj h)

theorem notMem_normalLinks_of_abnormal {a b : Agent} {l : Link}
    (ha : l ∈ (G.patternQuery a).abnormalLinks) : l ∉ G.normalLinks b := by
  intro hb
  have h := (G.owner_abnormal a l ha).symm.trans (G.owner_normal b l hb)
  have hkind : LinkKind.abnormal = .normal := congrArg Prod.snd (Option.some.inj h)
  cases hkind

theorem notMem_normalLinks_of_multiplicity {a b : Agent} {l : Link}
    (ha : l ∈ (G.patternQuery a).multiplicityLinks) : l ∉ G.normalLinks b := by
  intro hb
  have h := (G.owner_multiplicity a l ha).symm.trans (G.owner_normal b l hb)
  have hkind : LinkKind.multiplicity = .normal := congrArg Prod.snd (Option.some.inj h)
  cases hkind

/-- More than the length of any chain of links that starts with `l`. -/
def depth (l : Link) : Nat := G.rank (G.childAgent l) + 1

theorem rank_lt_depth (l : Link) : G.rank (G.childAgent l) < G.depth l :=
  Nat.lt_succ_self _

end

end PatternGraph

/-! ## §3. Couplings. -/

section

variable {Link X A M : Type}

theorem length_couplingOperands {a b : SymbolExpression Link X A} : [a, b].length = 2 := rfl

/-- `IsSimpleCompareEquivalentOperator( keyer_expr, residual_expr )`. -/
def isSimpleCompareEquivalent (a b : SymbolExpression Link X A) : Expression Link X A M :=
  .predicate ⟨.isSimpleCompareEquivalent, [a, b], length_couplingOperands⟩

/-- `operator|`. -/
def orTidied (a b : Expression Link X A M) : Expression Link X A M :=
  BooleanExpression.createTidiedOperator .orOp false [a, b]

/-- The policy for couplings: equivalence of the residual to the keyer, or either one
being MMAX. -/
def couplingCondition (keyer residual : Link) : Expression Link X A M :=
  orTidied
    (orTidied (isSimpleCompareEquivalent (.symbolVariable keyer) (.symbolVariable residual))
      (isEqual (.symbolVariable keyer) (.symbolConstant .MMAX)))
    (isEqual (.symbolVariable residual) (.symbolConstant .MMAX))

/-- The three alternatives make one disjunction, which does not split. -/
theorem splitAnds_couplingCondition (keyer residual : Link) :
    (couplingCondition keyer residual : Expression Link X A M).splitAnds
      = [couplingCondition keyer residual] := rfl

theorem couplingCondition_ne_constant (keyer residual : Link) (value : Bool) :
    (couplingCondition keyer residual : Expression Link X A M) ≠ .constant value := by
  show BooleanExpression.orOp _ ≠ _
  simp

variable [LinearOrder Link]

theorem mem_variables_couplingCondition {keyer residual v : Link} :
    v ∈ (couplingCondition keyer residual : Expression Link X A M).variables
      ↔ v = keyer ∨ v = residual := by
  show v ∈ ({keyer} ∪ ({residual} ∪ ∅)) ∪ (({keyer} ∪ (∅ ∪ ∅)) ∪ (({residual} ∪ (∅ ∪ ∅)) ∪ ∅)) ↔ _
  simp only [Finset.mem_union, Finset.mem_singleton, Finset.notMem_empty]
  grind

/-- `SymbolicCouplingQuery`: the policy must apply for every residual. -/
def symbolicCouplingQuery (keyer : Link) (residuals : Finset Link) : Expression Link X A M :=
  (BooleanExpression.constant true).andAll ((inOrder residuals).map (couplingCondition keyer))

/-- Its conjuncts are the coupling conditions, and nothing dominates them. -/
theorem mem_splitAnds_symbolicCouplingQuery {keyer : Link} {residuals : Finset Link}
    {c : Expression Link X A M} (hc : c ≠ .constant true)
    (hfalse : .constant false ∉
      (symbolicCouplingQuery keyer residuals : Expression Link X A M).splitAnds) :
    c ∈ (symbolicCouplingQuery keyer residuals : Expression Link X A M).splitAnds
      ↔ ∃ residual ∈ residuals, c = couplingCondition keyer residual := by
  unfold symbolicCouplingQuery at hfalse ⊢
  rw [BooleanExpression.mem_splitAnds_andAll _ _ hfalse c hc]
  constructor
  · intro h
    rcases h with h | h
    · exact absurd (List.mem_singleton.mp h) hc
    · obtain ⟨a, ha, hca⟩ := h
      obtain ⟨residual, hresidual, rfl⟩ := List.mem_map.mp ha
      rw [splitAnds_couplingCondition, List.mem_singleton] at hca
      exact ⟨residual, mem_inOrder.mp hresidual, hca⟩
  · intro h
    obtain ⟨residual, hresidual, rfl⟩ := h
    refine Or.inr ⟨_, List.mem_map_of_mem (mem_inOrder.mpr hresidual), ?_⟩
    rw [splitAnds_couplingCondition]
    exact List.mem_singleton_self _

end

/-! ## §4. An agent's query. -/

namespace PatternGraph

variable {Agent Link X A M : Type} [LinearOrder Link] (G : PatternGraph Agent Link X A M)

/-- `AgentCommon::SymbolicQuery`. -/
def symbolicQuery (a : Agent) (keyer : Link) (residuals : Finset Link) (couplingOnly : Bool) :
    Expression Link X A M :=
  if couplingOnly then symbolicCouplingQuery keyer residuals
  else (symbolicCouplingQuery keyer residuals).and (G.symbolicNormalLinkedQuery a keyer)

variable {G}

/-- **The conjuncts of an agent's query**: the coupling conditions, and those of its own
query unless only the couplings are asked for. -/
theorem mem_splitAnds_symbolicQuery {a : Agent} {keyer : Link} {residuals : Finset Link}
    {couplingOnly : Bool} {c : Expression Link X A M} (hc : c ≠ .constant true)
    (hfalse : .constant false ∉ (G.symbolicQuery a keyer residuals couplingOnly).splitAnds) :
    c ∈ (G.symbolicQuery a keyer residuals couplingOnly).splitAnds
      ↔ (∃ residual ∈ residuals, c = couplingCondition keyer residual)
        ∨ (couplingOnly = false ∧ c ∈ (G.symbolicNormalLinkedQuery a keyer).splitAnds) := by
  unfold symbolicQuery at hfalse ⊢
  cases couplingOnly with
  | true =>
      rw [if_pos rfl] at hfalse ⊢
      rw [mem_splitAnds_symbolicCouplingQuery hc hfalse]
      simp
  | false =>
      rw [if_neg (by simp)] at hfalse ⊢
      have hand := BooleanExpression.mem_splitAnds_and
        BooleanExpression.constant_false_ne_true hfalse
      have hcoupling := fun h => hfalse (hand.mpr (Or.inl h))
      rw [BooleanExpression.mem_splitAnds_and hc hfalse,
        mem_splitAnds_symbolicCouplingQuery hc hcoupling]
      simp

/-- A conjunct of the agent's own query requires its keyer and its normal links only. -/
theorem required_of_mem_splitAnds {a : Agent} {keyer : Link} {c : Expression Link X A M}
    (hc : c ∈ (G.symbolicNormalLinkedQuery a keyer).splitAnds) {v : Link} (hv : v ∈ c.variables) :
    v = keyer ∨ v ∈ G.normalLinks a := by
  have hsub : c.variables ⊆ (G.symbolicNormalLinkedQuery a keyer).variables :=
    BooleanExpression.requiredVariables_mono
      (BooleanExpression.predicates_of_mem_splitAnds _ c hc)
  exact G.required a keyer v (hsub hv)

end PatternGraph

end Inferno.Engine
