/-
  Inferno.Engine.AndRulePlan
  ──────────────────────────
  `AndRuleEngine::Plan`: how an engine divides a pattern into what it solves for and
  what its subordinate engines do.

    • `Surroundings`      — the arguments of the constructor, besides the base link,
    • `determineKeyers`   — one keyer link for each agent of the engine,
    • `determineResiduals` — the other links to an agent with a keyer,
    • `agentsToKeyers`, `agentsToResiduals` — `ConfigureAgents`,
    • `currentSolvePlinks` — `DeduceCSPVariables`: what the solver solves for,
    • `planEngine`        — the constructor, with its assertions as `none`,
    • `planEngines`       — the engine and all its subordinates.
-/
import Inferno.Engine.PatternGraph
import Inferno.Lib.DepthFirst

namespace Inferno.Engine

open Inferno.Common
open Inferno.SYM
open Inferno.Lib

/-! ## §1. What an engine is given. -/

/-- The arguments of the constructor of `AndRuleEngine::Plan`, besides the base link. -/
structure Surroundings (Agent Link : Type) where
  plinks : Finset Link
  keyerPlinks : Finset Link
  agentsToKeyers : StdMap Agent Link
  agentsToResiduals : StdMap Agent (Finset Link)

/-- Those of an outermost engine. -/
def Surroundings.none {Agent Link : Type} : Surroundings Agent Link :=
  ⟨∅, ∅, .empty, .empty⟩

namespace PatternGraph

variable {Agent Link X A M : Type} [LinearOrder Agent] [LinearOrder Link]
  (G : PatternGraph Agent Link X A M)

/-- `surrounding_agents`. -/
def surroundingAgents (S : Surroundings Agent Link) : Finset Agent :=
  S.plinks.image G.childAgent

/-! ## §2. What an engine sees. -/

/-- `PopulateNormalAgents`: normal links, through surrounding agents too. -/
def populateNormalAgents (base : Link) : Walk Agent Link :=
  walk G.childAgent G.normalLinks (G.depth base) .empty base

/-- The links that `PopulateBoundaryAgents` follows from an agent. -/
def linksWithin (S : Surroundings Agent Link) (a : Agent) : List Link :=
  if a ∈ G.surroundingAgents S then [] else G.normalLinks a

/-- `PopulateBoundaryAgents`: normal links, up to the surrounding agents. -/
def populateBoundaryAgents (S : Surroundings Agent Link) (base : Link) : Walk Agent Link :=
  walk G.childAgent (G.linksWithin S) (G.depth base) .empty base

/-- `my_normal_links`. -/
def myNormalLinks (S : Surroundings Agent Link) (base : Link) : Finset Link :=
  (G.populateNormalAgents base).edges.toFinset.filter
    (fun plink => G.childAgent plink ∉ G.surroundingAgents S)

/-- `my_normal_agents`. -/
def myNormalAgents (S : Surroundings Agent Link) (base : Link) : Finset Agent :=
  (G.populateNormalAgents base).nodes \ G.surroundingAgents S

/-- `normal_and_boundary_links_preorder`. -/
def normalAndBoundaryLinksPreorder (S : Surroundings Agent Link) (base : Link) : List Link :=
  (G.populateBoundaryAgents S base).edges

/-- `my_boundary_links`. -/
def myBoundaryLinks (S : Surroundings Agent Link) (base : Link) : Finset Link :=
  (G.normalAndBoundaryLinksPreorder S base).toFinset.filter
    (fun plink => G.childAgent plink ∈ G.surroundingAgents S)

/-- `boundary_agents`. -/
def boundaryAgents (S : Surroundings Agent Link) (base : Link) : Finset Agent :=
  (G.populateBoundaryAgents S base).nodes ∩ G.surroundingAgents S

/-- `boundary_keyer_links`. -/
def boundaryKeyerLinks (S : Surroundings Agent Link) (base : Link) : Finset Link :=
  S.keyerPlinks.filter (fun plink => G.childAgent plink ∈ G.boundaryAgents S base)

/-- `current_solve_plinks`, as `DeduceCSPVariables` collects them. -/
def currentSolvePlinks (S : Surroundings Agent Link) (base : Link) : Finset Link :=
  (G.normalAndBoundaryLinksPreorder S base).toFinset ∪ G.boundaryKeyerLinks S base

/-! ## §3. Keyers. -/

/-- The state of `DetermineKeyersModuloDisjunction`: `coupling_keyer_links_all` and its two
reference arguments. -/
structure KeyerState (Agent Link : Type) where
  keyers : Finset Link
  seniorAgents : Finset Agent
  disjunctionAgents : Finset Agent

/-- `DetermineKeyersModuloDisjunction`: an agent that is not senior gets its keyer, and the
recursion stops at the disjunctions.  The number bounds the depth of the recursion. -/
def determineKeyersModuloDisjunction :
    Nat → KeyerState Agent Link → Link → Option (KeyerState Agent Link)
  | 0, _, _ => none
  | depth + 1, s, plink =>
      if G.childAgent plink ∈ s.seniorAgents then some s
      else do
        ASSERT (∀ l ∈ s.keyers, G.childAgent l ≠ G.childAgent plink)
        let keyers := insert plink s.keyers
        let seniorAgents := insert (G.childAgent plink) s.seniorAgents
        if G.isDisjunction (G.childAgent plink) then
          some ⟨keyers, seniorAgents, insert (G.childAgent plink) s.disjunctionAgents⟩
        else
          (G.normalLinks (G.childAgent plink)).foldlM (determineKeyersModuloDisjunction depth)
            ⟨keyers, seniorAgents, s.disjunctionAgents⟩

/-- `DetermineKeyers`: the region above the disjunctions first, then each link under one of
them with the same senior agents. -/
def determineKeyers : Nat → Finset Agent → Finset Link → Link → Option (Finset Link)
  | 0, _, _, _ => none
  | depth + 1, seniorAgents, keyers, plink => do
      let s ← G.determineKeyersModuloDisjunction (depth + 1) ⟨keyers, seniorAgents, ∅⟩ plink
      (inOrder s.disjunctionAgents).foldlM
        (fun keyers agent =>
          (G.normalLinks agent).foldlM (determineKeyers depth s.seniorAgents) keyers)
        s.keyers

/-! ## §4. Residuals. -/

/-- The keyer that the inner loop of `DetermineResiduals` ends up with. -/
def keyerOf (keyers : Finset Link) (a : Agent) : Option Link :=
  ((inOrder keyers).filter (fun l => G.childAgent l = a)).getLast?

/-- The link is a residual: its agent has a keyer, and this is another link. -/
def isResidual (keyers : Finset Link) (link : Link) : Bool :=
  (G.keyerOf keyers (G.childAgent link)).any (· ≠ link)

/-- `DetermineResiduals`; it takes the surrounding agents as an argument too, and does
nothing with it. -/
def determineResiduals (keyers : Finset Link) : Nat → Finset Link → Agent → Option (Finset Link)
  | 0, _, _ => none
  | depth + 1, residuals, agent =>
      (G.normalLinks agent).foldlM
        (fun residuals link =>
          if G.isResidual keyers link then do
            ASSERT (link ∉ residuals)
            some (insert link residuals)
          else determineResiduals keyers depth residuals (G.childAgent link))
        residuals

/-! ## §5. The agents' keyers and residuals. -/

/-- What an engine keys: its arguments, its keyers and its residuals. -/
structure Keying (Agent Link : Type) where
  basePlink : Link
  surroundings : Surroundings Agent Link
  couplingKeyerLinksAll : Finset Link
  couplingResidualLinks : Finset Link

section

variable (k : Keying Agent Link)

/-- `agents_to_keyers`, as `ConfigureAgents` leaves it. -/
def agentsToKeyers : StdMap Agent Link :=
  (inOrder k.couplingKeyerLinksAll).foldl
    (fun m keyerPlink => m.set (G.childAgent keyerPlink) keyerPlink)
    k.surroundings.agentsToKeyers

/-- The first loop of `ConfigureAgents`: the residuals of the agents keyed here. -/
def agentsToMyResiduals : StdMap Agent (Finset Link) :=
  (inOrder k.couplingKeyerLinksAll).foldl
    (fun m keyerPlink =>
      m.set (G.childAgent keyerPlink)
        (k.couplingResidualLinks.filter
          (fun residual => G.childAgent residual = G.childAgent keyerPlink)))
    k.surroundings.agentsToResiduals

/-- `agents_to_residuals`: the second loop adds the boundary links. -/
def agentsToResiduals : StdMap Agent (Finset Link) :=
  (inOrder (G.myBoundaryLinks k.surroundings k.basePlink)).foldl
    (fun m boundaryPlink =>
      m.set (G.childAgent boundaryPlink)
        (insert boundaryPlink ((m.lookup (G.childAgent boundaryPlink)).getD ∅)))
    (G.agentsToMyResiduals k)

/-! ## §6. The symbolic queries. -/

/-- The query of the agent that a keyer link leads to. -/
def symbolicOf (couplingOnly : Bool) (keyerPlink : Link) : Option (Expression Link X A M) := do
  let keyer ← (G.agentsToKeyers k).lookup (G.childAgent keyerPlink)
  let residuals ← (G.agentsToResiduals k).lookup (G.childAgent keyerPlink)
  some (G.symbolicQuery (G.childAgent keyerPlink) keyer residuals couplingOnly)

/-- `CreateMyFullSymbolics`. -/
def createMyFullSymbolics : Option (List (Expression Link X A M)) :=
  (inOrder k.couplingKeyerLinksAll).mapM (G.symbolicOf k false)

/-- `CreateBoundarySymbolics`, with the check for surrounding keyers that every run makes
but one that traces pattern graphs. -/
def createBoundarySymbolics : Option (List (Expression Link X A M)) := do
  ASSERT (∀ residual ∈ G.myBoundaryLinks k.surroundings k.basePlink,
    ∃ keyer ∈ G.boundaryKeyerLinks k.surroundings k.basePlink,
      G.childAgent keyer = G.childAgent residual)
  (inOrder (G.boundaryKeyerLinks k.surroundings k.basePlink)).mapM (G.symbolicOf k true)

/-- `expressions_from_agents`. -/
def expressionsFromAgents : Option (List (Expression Link X A M)) := do
  let mine ← G.createMyFullSymbolics k
  let boundary ← G.createBoundarySymbolics k
  some (mine ++ boundary)

end

end PatternGraph

/-! ## §7. The plan. -/

/-- The plan of an engine: what it keys, and the conjuncts it got from the agents. -/
structure AndRulePlan (Agent Link X A M : Type) extends PatternGraph.Keying Agent Link where
  expressionsSplit : List (Expression Link X A M)

namespace PatternGraph

variable {Agent Link X A M : Type} [LinearOrder Agent] [LinearOrder Link]
  (G : PatternGraph Agent Link X A M)

/-- The checks of the plan before the agents are configured. -/
def checkPlan (k : Keying Agent Link) : Option Unit := do
  let S := k.surroundings
  let base := k.basePlink
  ASSERT (((G.myNormalLinks S base).image G.childAgent).card = (G.myNormalAgents S base).card)
  ASSERT (((G.myBoundaryLinks S base).image G.childAgent).card = (G.boundaryAgents S base).card)
  ASSERT (k.couplingKeyerLinksAll.card = (G.myNormalAgents S base).card)
  if G.myNormalLinks S base = ∅ then do
    ASSERT (G.myNormalAgents S base = ∅)
    ASSERT (base ∈ G.myBoundaryLinks S base)
  else
    ASSERT (G.myNormalAgents S base ≠ ∅)

/-- The constructor of `AndRuleEngine::Plan`, up to the subordinate engines. -/
def planEngine (S : Surroundings Agent Link) (base : Link) :
    Option (AndRulePlan Agent Link X A M) := do
  let keyers ← G.determineKeyers (G.depth base) (G.surroundingAgents S) ∅ base
  let residuals ← G.determineResiduals keyers (G.depth base) ∅ (G.childAgent base)
  let k : Keying Agent Link := ⟨base, S, keyers, residuals⟩
  G.checkPlan k
  let expressions ← G.expressionsFromAgents k
  let split ← BooleanExpression.preprocessForEngine expressions
  some ⟨k, split⟩

section

variable (p : AndRulePlan Agent Link X A M)

/-- `expressions_for_current_solve`: `SymbolicRewrites` keeps the conjuncts whose variables
are all in the current solve. -/
def expressionsForCurrentSolve : List (Expression Link X A M) :=
  p.expressionsSplit.filter
    (fun bexpr => bexpr.variables ⊆ G.currentSolvePlinks p.surroundings p.basePlink)

/-- `CreateMyConstraints`: the expressions the solver is given. -/
def createMyConstraints : List (Expression Link X A M) :=
  BooleanExpression.condense predicateVariables (G.expressionsForCurrentSolve p)

/-- What `CreateSubordniateEngines` gives to each of them. -/
def subordinateSurroundings : Surroundings Agent Link where
  plinks := G.myNormalLinks p.surroundings p.basePlink ∪ p.surroundings.plinks
  keyerPlinks := p.couplingKeyerLinksAll ∪ p.surroundings.keyerPlinks
  agentsToKeyers := G.agentsToKeyers p.toKeying
  agentsToResiduals := G.agentsToResiduals p.toKeying

/-- The links it makes engines for. -/
def subordinateLinks : List Link :=
  (inOrder p.couplingKeyerLinksAll).flatMap (fun plink =>
    (G.patternQuery (G.childAgent plink)).abnormalLinks
      ++ (G.patternQuery (G.childAgent plink)).multiplicityLinks)

end

/-- An engine and all its subordinates, each as its constructor plans it. -/
def planEngines :
    Nat → Surroundings Agent Link → Link → Option (List (AndRulePlan Agent Link X A M))
  | 0, _, _ => none
  | depth + 1, S, base => do
      let p ← G.planEngine S base
      let subordinates ←
        (G.subordinateLinks p).mapM (planEngines depth (G.subordinateSurroundings p))
      some (p :: subordinates.flatten)

/-- The and-rule planner: the depth of the pattern bounds the recursion. -/
def planner (S : Surroundings Agent Link) (base : Link) :
    Option (List (AndRulePlan Agent Link X A M)) :=
  G.planEngines (G.depth base) S base

end PatternGraph

end Inferno.Engine
