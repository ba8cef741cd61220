/-
  Inferno.Engine.PlanCoverage
  ───────────────────────────
  Which of the expressions that planning collects reach a solver.

    • `NoConstraintDropped` — every conjunct of a normal agent's query and every coupling
                              condition is kept by an engine that builds it,
    • `SurroundedBelow`     — below a surrounding agent that an engine can see, everything
                              is surrounding,
    • `Planned.keeps`       — an engine that sees nothing else keeps all it builds,
    • `Under`               — what holds of every engine of a tree, relative to its root,
    • `Under.drops`         — a coupling below a surrounding agent is kept by no engine,
    • `noConstraintDropped_iff`, and a plan that drops a coupling.
-/
import Inferno.Engine.PlanExact
import Mathlib.Data.Fin.VecNotation
import Mathlib.Data.Fintype.Basic

namespace Inferno.Engine

open Inferno.Common
open Inferno.Lib
open Inferno.SYM

namespace PatternGraph

variable {Agent Link X A M : Type} [LinearOrder Agent] [LinearOrder Link]
  (G : PatternGraph Agent Link X A M)

/-! ## §1. What planning has to keep. -/

/-- An engine of the tree that builds the expression has all its variables in its current
solve. -/
def KeptBySome (engines : List (AndRulePlan Agent Link X A M)) (c : Expression Link X A M) :
    Prop :=
  ∃ q ∈ engines, c ∈ q.expressionsSplit
    ∧ c.variables ⊆ G.currentSolvePlinks q.surroundings q.basePlink

/-- **No constraint is dropped**: every conjunct of a normal agent's query (a constant true
apart), and the coupling condition between every link of an engine and the keyer of the
agent it leads to.  What is kept is what the solver gets, as a conjunction. -/
structure NoConstraintDropped (engines : List (AndRulePlan Agent Link X A M)) : Prop where
  conjunct : ∀ p ∈ engines, ∀ a ∈ G.myNormalAgents p.surroundings p.basePlink,
    ∃ keyer residuals, (G.agentsToKeyers p.toKeying).lookup a = some keyer
      ∧ (G.agentsToResiduals p.toKeying).lookup a = some residuals
      ∧ ∀ c ∈ (G.symbolicQuery a keyer residuals false).splitAnds,
          c ≠ .constant true → G.KeptBySome engines c
  coupling : ∀ p ∈ engines,
    ∀ l ∈ G.myNormalLinks p.surroundings p.basePlink
        ∪ G.myBoundaryLinks p.surroundings p.basePlink,
      ∀ keyer, (G.agentsToKeyers p.toKeying).lookup (G.childAgent l) = some keyer →
        l ≠ keyer → G.KeptBySome engines (couplingCondition keyer l)
  kept : ∀ p ∈ engines, ∀ c, c ∈ G.expressionsForCurrentSolve p
    ↔ c ∈ p.expressionsSplit ∧ c.variables ⊆ G.currentSolvePlinks p.surroundings p.basePlink
  conjunction : ∀ p ∈ engines, ∀ pred,
    (∀ c ∈ G.createMyConstraints p, c.Satisfied pred)
      ↔ ∀ c ∈ G.expressionsForCurrentSolve p, c.Satisfied pred

/-- The normal links of a surrounding agent that an engine can see from its base lead to
surrounding agents. -/
def SurroundedBelow (S : Surroundings Agent Link) (base : Link) : Prop :=
  ∀ l, G.FollowsNormal base l → G.childAgent l ∈ G.surroundingAgents S →
    ∀ m ∈ G.normalLinks (G.childAgent l), G.childAgent m ∈ G.surroundingAgents S

/-- What an enclosing engine promises: a keyer leads to a surrounding agent, and the map
from agents gives each its keyer. -/
structure Surroundings.Wf (S : Surroundings Agent Link) : Prop where
  surrounding : ∀ l ∈ S.keyerPlinks, G.childAgent l ∈ G.surroundingAgents S
  keyed : ∀ a keyer, S.agentsToKeyers.lookup a = some keyer →
    keyer ∈ S.keyerPlinks ∧ G.childAgent keyer = a

variable {G}

theorem mem_expressionsForCurrentSolve {p : AndRulePlan Agent Link X A M}
    {c : Expression Link X A M} : c ∈ G.expressionsForCurrentSolve p
      ↔ c ∈ p.expressionsSplit
        ∧ c.variables ⊆ G.currentSolvePlinks p.surroundings p.basePlink := by
  unfold expressionsForCurrentSolve
  rw [List.mem_filter, decide_eq_true_eq]

/-! ## §2. An engine that sees nothing below its surroundings. -/

/-- Then the walk to an agent that is not surrounding passes no surrounding one. -/
theorem SurroundedBelow.follows {S : Surroundings Agent Link} {base l : Link}
    (h : G.SurroundedBelow S base) (hl : G.FollowsNormal base l)
    (hagent : G.childAgent l ∉ G.surroundingAgents S) : G.FollowsWithin S base l := by
  induction hl with
  | refl => exact .refl
  | @tail a b ha hstep ih =>
      have hout : G.childAgent a ∉ G.surroundingAgents S := by
        intro hmem
        exact hagent (h a ha hmem b hstep)
      exact (ih hout).tail (mem_linksWithin.mpr ⟨hout, hstep⟩)

/-- A descent goes along normal links. -/
theorem followsNormal_of_descends {keyers : Finset Link} {base : Link} {b : Agent}
    (h : Relation.ReflTransGen (G.Descends keyers) (G.childAgent base) b) :
    ∃ l, G.FollowsNormal base l ∧ G.childAgent l = b := by
  induction h with
  | refl => exact ⟨base, .refl, rfl⟩
  | tail _ hstep ih =>
      obtain ⟨l, hl, rfl⟩ := ih
      obtain ⟨m, hm, _, rfl⟩ := hstep
      exact ⟨m, hl.tail hm, rfl⟩

namespace Planned

variable {p : AndRulePlan Agent Link X A M} (hp : G.Planned p)
include hp

/-- The residuals are in the current solve. -/
theorem residual_follows (h : G.SurroundedBelow p.surroundings p.basePlink) {r : Link}
    (hr : r ∈ p.couplingResidualLinks) :
    G.FollowsWithin p.surroundings p.basePlink r := by
  have hmem := (G.mem_determineResiduals _ _ _ _ hp.residuals r).mp hr
  obtain ⟨hresidual, b, hb, hrb⟩ := hmem.resolve_left (Finset.notMem_empty r)
  obtain ⟨q, hq, rfl⟩ := followsNormal_of_descends hb
  refine h.follows (hq.tail hrb) ?_
  obtain ⟨keyer, hkeyer, _⟩ := (Option.any_eq_true ..).mp hresidual
  obtain ⟨hmem, hagent⟩ := G.mem_keyers_of_keyerOf hkeyer
  rw [← hagent]
  exact hp.notMem_surrounding hmem

/-- And every normal link but the keyer is a residual: the walk comes by its agent. -/
theorem residual_mem (h : G.SurroundedBelow p.surroundings p.basePlink) {l keyer : Link}
    (hl : l ∈ G.myNormalLinks p.surroundings p.basePlink)
    (hkeyer : keyer ∈ p.couplingKeyerLinksAll) (hagent : G.childAgent keyer = G.childAgent l)
    (hne : l ≠ keyer) : l ∈ p.couplingResidualLinks := by
  obtain ⟨hfollows, hout⟩ := mem_myNormalLinks.mp hl
  refine (G.mem_determineResiduals _ _ _ _ hp.residuals l).mpr (Or.inr ⟨?_, ?_⟩)
  · unfold isResidual
    rw [← hagent, G.keyerOf_childAgent hp.injOn hkeyer]
    simpa using fun heq => hne heq.symm
  · rcases Relation.ReflTransGen.cases_tail hfollows with hbase | hstep
    · -- the base link is a keyer, and its agent has one only
      have hmem := hp.basePlink_mem hkeyer
      rw [← hbase] at hmem
      exact absurd (hp.injOn hmem hkeyer hagent.symm) hne
    · obtain ⟨q, hq, hlq⟩ := hstep
      have hqout : G.childAgent q ∉ G.surroundingAgents p.surroundings := by
        intro hmem
        exact hout (h q hq hmem l hlq)
      obtain ⟨k, hk, hkq⟩ := hp.keyed_iff.mp
        (PatternGraph.mem_myNormalAgents.mpr ⟨⟨q, hq, rfl⟩, hqout⟩)
      refine ⟨G.childAgent q, ?_, hlq⟩
      rw [← hkq]
      exact (hp.keyedFrom hk).descends hp.injOn

/-- **An engine keeps the conjuncts of its agents' queries.** -/
theorem keeps_conjunct (h : G.SurroundedBelow p.surroundings p.basePlink) {a : Agent}
    (ha : a ∈ G.myNormalAgents p.surroundings p.basePlink) :
    ∃ keyer residuals, (G.agentsToKeyers p.toKeying).lookup a = some keyer
      ∧ (G.agentsToResiduals p.toKeying).lookup a = some residuals
      ∧ ∀ c ∈ (G.symbolicQuery a keyer residuals false).splitAnds, c ≠ .constant true →
          c ∈ p.expressionsSplit
            ∧ Expression.variables c ⊆ G.currentSolvePlinks p.surroundings p.basePlink := by
  obtain ⟨keyer, hkeyer, rfl⟩ := hp.keyed_iff.mp ha
  refine ⟨keyer, _, hp.lookup_keyer hkeyer, hp.lookup_residuals hkeyer, ?_⟩
  intro c hc htrue
  obtain ⟨hfalse, hmem⟩ := hp.full_query hkeyer
  refine ⟨hmem c hc htrue, ?_⟩
  intro v hv
  have hfollows := hp.follows hkeyer
  refine mem_currentSolvePlinks.mpr (Or.inl ?_)
  rcases (mem_splitAnds_symbolicQuery htrue hfalse).mp hc with hcoupling | hown
  · obtain ⟨r, hr, rfl⟩ := hcoupling
    rcases mem_variables_couplingCondition.mp hv with rfl | rfl
    · exact hfollows
    · exact hp.residual_follows h (Finset.mem_filter.mp hr).1
  · rcases required_of_mem_splitAnds hown.2 hv with rfl | hv
    · exact hfollows
    · exact hfollows.tail (mem_linksWithin.mpr ⟨hp.notMem_surrounding hkeyer, hv⟩)

/-- **And the coupling conditions of its links.** -/
theorem keeps_coupling (hS : Surroundings.Wf G p.surroundings)
    (h : G.SurroundedBelow p.surroundings p.basePlink) {l keyer : Link}
    (hl : l ∈ G.myNormalLinks p.surroundings p.basePlink
      ∪ G.myBoundaryLinks p.surroundings p.basePlink)
    (hlookup : (G.agentsToKeyers p.toKeying).lookup (G.childAgent l) = some keyer)
    (hne : l ≠ keyer) :
    couplingCondition keyer l ∈ p.expressionsSplit
      ∧ (couplingCondition keyer l : Expression Link X A M).variables
          ⊆ G.currentSolvePlinks p.surroundings p.basePlink := by
  rcases Finset.mem_union.mp hl with hl | hl
  · -- an agent keyed here: the link is a residual of this engine
    obtain ⟨k, hk, hkl⟩ := hp.keyed_iff.mp (PatternGraph.mem_myNormalAgents.mpr
      ⟨⟨l, (mem_myNormalLinks.mp hl).1, rfl⟩, (mem_myNormalLinks.mp hl).2⟩)
    have hkk : k = keyer := by
      have hown := hp.lookup_keyer hk
      rw [hkl, hlookup] at hown
      exact (Option.some.inj hown).symm
    rw [hkk] at hk hkl
    have hr := hp.residual_mem h hl hk hkl hne
    refine ⟨hp.coupling_mem_split hk hr hkl.symm, ?_⟩
    intro v hv
    refine mem_currentSolvePlinks.mpr (Or.inl ?_)
    rcases mem_variables_couplingCondition.mp hv with rfl | rfl
    · exact hp.follows hk
    · exact hp.residual_follows h hr
  · -- an agent at the boundary: its keyer comes with the surroundings
    obtain ⟨hfollows, hsurrounding⟩ := mem_myBoundaryLinks.mp hl
    have hout : ∀ k ∈ p.couplingKeyerLinksAll, G.childAgent k ≠ G.childAgent l := by
      intro k hk hkl
      refine hp.notMem_surrounding hk ?_
      rw [hkl]
      exact hsurrounding
    have hgiven := hlookup
    rw [lookup_keyer_of_notMem hout] at hgiven
    obtain ⟨hmem, hagent⟩ := hS.keyed _ _ hgiven
    obtain ⟨hsplit, hsolve⟩ := hp.boundary_mem_split hl hmem hagent hlookup
    refine ⟨hsplit, ?_⟩
    intro v hv
    rcases mem_variables_couplingCondition.mp hv with rfl | rfl
    · exact hsolve
    · exact mem_currentSolvePlinks.mpr (Or.inl hfollows)

end Planned

/-! ## §3. The engines of a tree. -/

variable (G)

/-- What an engine is given, relative to the surroundings `S₀` of the root of its tree. -/
structure Under (S₀ S : Surroundings Agent Link) (base : Link) : Prop where
  wf : Surroundings.Wf G S
  plinks : S₀.plinks ⊆ S.plinks
  closed : ∀ a ∈ G.surroundingAgents S, a ∉ G.surroundingAgents S₀ →
    ∀ l ∈ G.normalLinks a, G.childAgent l ∈ G.surroundingAgents S
  keyer : ∀ l ∈ S.keyerPlinks,
    l ∈ S₀.keyerPlinks ∨ ∀ a, l ∈ G.normalLinks a → a ∉ G.surroundingAgents S₀
  base : ∀ a, base ∉ G.normalLinks a

variable {G}

theorem surroundingAgents_mono {S S' : Surroundings Agent Link} (h : S.plinks ⊆ S'.plinks) :
    G.surroundingAgents S ⊆ G.surroundingAgents S' :=
  Finset.image_subset_image h

theorem mem_surroundingAgents_subordinate {p : AndRulePlan Agent Link X A M} {a : Agent} :
    a ∈ G.surroundingAgents (G.subordinateSurroundings p)
      ↔ (∃ l ∈ G.myNormalLinks p.surroundings p.basePlink, G.childAgent l = a)
        ∨ a ∈ G.surroundingAgents p.surroundings := by
  unfold surroundingAgents
  show a ∈ (G.myNormalLinks p.surroundings p.basePlink ∪ p.surroundings.plinks).image _ ↔ _
  rw [Finset.image_union, Finset.mem_union, Finset.mem_image]

theorem mem_surrounding_of_follows {p : AndRulePlan Agent Link X A M} {l : Link}
    (hl : G.FollowsNormal p.basePlink l) :
    G.childAgent l ∈ G.surroundingAgents (G.subordinateSurroundings p) := by
  rw [mem_surroundingAgents_subordinate]
  by_cases hmem : G.childAgent l ∈ G.surroundingAgents p.surroundings
  · exact Or.inr hmem
  · exact Or.inl ⟨l, mem_myNormalLinks.mpr ⟨hl, hmem⟩, rfl⟩

omit [LinearOrder Agent] in
theorem notMem_normalLinks_of_subordinate {p : AndRulePlan Agent Link X A M} {link : Link}
    (h : link ∈ G.subordinateLinks p) (a : Agent) : link ∉ G.normalLinks a := by
  obtain ⟨k, _, hlink⟩ := List.mem_flatMap.mp h
  rcases List.mem_append.mp hlink with hlink | hlink
  · exact G.notMem_normalLinks_of_abnormal hlink
  · exact G.notMem_normalLinks_of_multiplicity hlink

/-- **One engine**: what it is given, it gives to its subordinates. -/
theorem Under.subordinate {S₀ : Surroundings Agent Link} {p : AndRulePlan Agent Link X A M}
    (h : G.Under S₀ p.surroundings p.basePlink) (hp : G.Planned p) {link : Link}
    (hlink : link ∈ G.subordinateLinks p) : G.Under S₀ (G.subordinateSurroundings p) link where
  wf := by
    refine ⟨?_, ?_⟩
    · intro l hl
      rcases Finset.mem_union.mp hl with hl | hl
      · exact mem_surrounding_of_follows (hp.follows hl).normal
      · exact mem_surroundingAgents_subordinate.mpr (Or.inr (h.wf.surrounding l hl))
    · intro a keyer hlookup
      show keyer ∈ p.couplingKeyerLinksAll ∪ p.surroundings.keyerPlinks ∧ _
      rw [Finset.mem_union]
      -- keyed by this engine, or given
      by_cases hown : ∃ l ∈ p.couplingKeyerLinksAll, G.childAgent l = a
      · obtain ⟨l, hl, rfl⟩ := hown
        have heq := (hp.lookup_keyer hl).symm.trans hlookup
        rw [← Option.some.inj heq]
        exact ⟨Or.inl hl, rfl⟩
      · have hgiven := Planned.lookup_keyer_of_notMem (fun l hl hla => hown ⟨l, hl, hla⟩)
        obtain ⟨hmem, hagent⟩ := h.wf.keyed a keyer (hgiven ▸ hlookup)
        exact ⟨Or.inr hmem, hagent⟩
  plinks := h.plinks.trans Finset.subset_union_right
  closed := by
    intro a ha hroot l hl
    rcases mem_surroundingAgents_subordinate.mp ha with hmine | hgiven
    · obtain ⟨m, hm, rfl⟩ := hmine
      exact mem_surrounding_of_follows ((mem_myNormalLinks.mp hm).1.tail hl)
    · exact mem_surroundingAgents_subordinate.mpr (Or.inr (h.closed a hgiven hroot l hl))
  keyer := by
    intro l hl
    rcases Finset.mem_union.mp hl with hl | hl
    · -- a keyer of this engine: its base, or a link of an agent that it sees
      refine Or.inr ?_
      intro a ha hmem
      rcases hp.keyer_cases hl with rfl | hparent
      · exact h.base a ha
      · obtain ⟨m, hm, hlm⟩ := hparent
        have ham := G.normalLinks_unique ha hlm
        rw [ham] at hmem
        exact hp.notMem_surrounding hm (surroundingAgents_mono h.plinks hmem)
    · exact h.keyer l hl
  base := notMem_normalLinks_of_subordinate hlink

/-- **All engines**, by induction on the depth of the tree. -/
theorem under_of_planEngines {S₀ : Surroundings Agent Link} (depth : Nat) :
    ∀ (S : Surroundings Agent Link) (base : Link) (engines : List (AndRulePlan Agent Link X A M)),
      G.Under S₀ S base → G.planEngines depth S base = some engines →
        ∀ p ∈ engines, G.Planned p ∧ G.Under S₀ p.surroundings p.basePlink := by
  induction depth with
  | zero => intro S base engines _ h; cases h
  | succ depth ih =>
      intro S base engines hunder h
      rw [planEngines] at h
      obtain ⟨p, hplan, h⟩ := Option.bind_eq_some_iff.mp h
      obtain ⟨subordinates, hsub, h⟩ := Option.bind_eq_some_iff.mp h
      cases h
      obtain ⟨rfl, rfl, hp⟩ := G.planned_of_planEngine hplan
      intro q hq
      rcases List.mem_cons.mp hq with rfl | hq
      · exact ⟨hp, hunder⟩
      · obtain ⟨l, hl, hql⟩ := List.mem_flatten.mp hq
        obtain ⟨link, hlink, hplanned⟩ := (mem_of_mapM hsub l).mp hl
        exact ih _ _ _ (hunder.subordinate hp hlink) hplanned q hql

/-- The root of a tree. -/
theorem under_root {S₀ : Surroundings Agent Link} {base : Link}
    (hS : Surroundings.Wf G S₀) (hbase : ∀ a, base ∉ G.normalLinks a) : G.Under S₀ S₀ base where
  wf := hS
  plinks := Finset.Subset.refl _
  closed := by
    intro a ha hroot
    exact absurd ha hroot
  keyer := by
    intro l hl
    exact Or.inl hl
  base := hbase

theorem surroundings_none_wf : Surroundings.Wf G (.none : Surroundings Agent Link) := by
  refine ⟨?_, ?_⟩
  · intro l hl
    exact absurd hl (Finset.notMem_empty l)
  · intro a keyer h
    cases h

/-- The engine at the root is one of them. -/
theorem exists_root_of_planner {S : Surroundings Agent Link} {base : Link}
    {engines : List (AndRulePlan Agent Link X A M)} (h : G.planner S base = some engines) :
    ∃ p ∈ engines, p.surroundings = S ∧ p.basePlink = base := by
  unfold planner depth at h
  rw [planEngines] at h
  obtain ⟨p, hplan, h⟩ := Option.bind_eq_some_iff.mp h
  obtain ⟨subordinates, _, h⟩ := Option.bind_eq_some_iff.mp h
  cases h
  obtain ⟨hS, hbase, _⟩ := G.planned_of_planEngine hplan
  exact ⟨p, List.mem_cons_self, hS, hbase⟩

/-! ## §4. A link below a surrounding agent. -/

/-- **No engine solves for a normal link of a surrounding agent of the root**, when what it
leads to is not surrounding in some engine. -/
theorem Under.notMem_currentSolve {S₀ : Surroundings Agent Link}
    (hS : Surroundings.Wf G S₀) {q : AndRulePlan Agent Link X A M}
    (h : G.Under S₀ q.surroundings q.basePlink) {a : Agent} {m : Link}
    (ha : a ∈ G.surroundingAgents S₀) (hm : m ∈ G.normalLinks a)
    (hout : G.childAgent m ∉ G.surroundingAgents S₀) :
    m ∉ G.currentSolvePlinks q.surroundings q.basePlink := by
  intro hmem
  rcases mem_currentSolvePlinks.mp hmem with hfollows | hkeyer
  · rcases Relation.ReflTransGen.cases_tail hfollows with hbase | hstep
    · rw [hbase] at hm
      exact h.base a hm
    · obtain ⟨x, _, hmx⟩ := hstep
      obtain ⟨hx, hmx⟩ := mem_linksWithin.mp hmx
      rw [G.normalLinks_unique hmx hm] at hx
      exact hx (surroundingAgents_mono h.plinks ha)
  · rcases h.keyer m hkeyer.1 with hroot | hnot
    · exact hout (hS.surrounding m hroot)
    · exact hnot a hm ha

/-- **A coupling below a surrounding agent is kept by no engine.**  The agent that the link
leads to is keyed where it is seen, by another link. -/
theorem Under.drops {S₀ : Surroundings Agent Link} (hS : Surroundings.Wf G S₀)
    {engines : List (AndRulePlan Agent Link X A M)}
    (hall : ∀ q ∈ engines, G.Planned q ∧ G.Under S₀ q.surroundings q.basePlink)
    {p : AndRulePlan Agent Link X A M} (hmem : p ∈ engines) {l m : Link}
    (hl : G.FollowsNormal p.basePlink l)
    (hsurrounding : G.childAgent l ∈ G.surroundingAgents p.surroundings)
    (hm : m ∈ G.normalLinks (G.childAgent l))
    (hout : G.childAgent m ∉ G.surroundingAgents p.surroundings) :
    ¬ G.NoConstraintDropped engines := by
  intro hkept
  obtain ⟨hp, hunder⟩ := hall p hmem
  -- the agent surrounds the root already, or the one below it would surround too
  have hroot : G.childAgent l ∈ G.surroundingAgents S₀ := by
    by_contra hnot
    exact hout (hunder.closed _ hsurrounding hnot m hm)
  have houtRoot : G.childAgent m ∉ G.surroundingAgents S₀ := by
    intro h
    exact hout (surroundingAgents_mono hunder.plinks h)
  have hmine : m ∈ G.myNormalLinks p.surroundings p.basePlink :=
    mem_myNormalLinks.mpr ⟨hl.tail hm, hout⟩
  obtain ⟨keyer, hkeyer, hagent⟩ := hp.keyed_iff.mp
    (PatternGraph.mem_myNormalAgents.mpr ⟨⟨m, hl.tail hm, rfl⟩, hout⟩)
  -- the keyer is another link, for this one hangs from a surrounding agent
  have hne : m ≠ keyer := by
    rintro rfl
    rcases hp.keyer_cases hkeyer with hbase | hparent
    · rw [hbase] at hm
      exact hunder.base _ hm
    · obtain ⟨k, hk, hmk⟩ := hparent
      rw [G.normalLinks_unique hm hmk] at hsurrounding
      exact hp.notMem_surrounding hk hsurrounding
  have hlookup := hp.lookup_keyer hkeyer
  rw [hagent] at hlookup
  -- some engine would keep the coupling, and so solve for the link
  obtain ⟨q, hq, _, hvars⟩ := hkept.coupling p hmem m (Finset.mem_union_left _ hmine) keyer
    hlookup hne
  exact (hall q hq).2.notMem_currentSolve hS hroot hm houtRoot
    (hvars (mem_variables_couplingCondition.mpr (Or.inr rfl)))

/-! ## §5. When no constraint is dropped. -/

/-- Enough for it: every engine sees surrounding agents only below its surroundings. -/
theorem noConstraintDropped_of_surroundedBelow {S₀ : Surroundings Agent Link} {base : Link}
    {engines : List (AndRulePlan Agent Link X A M)} (hS : Surroundings.Wf G S₀)
    (hbase : ∀ a, base ∉ G.normalLinks a) (hplan : G.planner S₀ base = some engines)
    (h : ∀ p ∈ engines, G.SurroundedBelow p.surroundings p.basePlink) :
    G.NoConstraintDropped engines where
  conjunct := by
    intro p hp a ha
    obtain ⟨hplanned, _⟩ := under_of_planEngines _ _ _ _ (under_root hS hbase) hplan p hp
    obtain ⟨keyer, residuals, hkeyer, hresiduals, hc⟩ := hplanned.keeps_conjunct (h p hp) ha
    refine ⟨keyer, residuals, hkeyer, hresiduals, ?_⟩
    intro c hmem htrue
    exact ⟨p, hp, hc c hmem htrue⟩
  coupling := by
    intro p hp l hl keyer hlookup hne
    obtain ⟨hplanned, hunder⟩ := under_of_planEngines _ _ _ _ (under_root hS hbase) hplan p hp
    exact ⟨p, hp, hplanned.keeps_coupling hunder.wf (h p hp) hl hlookup hne⟩
  kept := by
    intro p _ c
    exact mem_expressionsForCurrentSolve
  conjunction := by
    intro p _ pred
    exact BooleanExpression.satisfied_condense predicateVariables _

/-- Nothing surrounds an outermost engine, so its tree drops nothing. -/
theorem noConstraintDropped_of_outermost {base : Link}
    {engines : List (AndRulePlan Agent Link X A M)} (hbase : ∀ a, base ∉ G.normalLinks a)
    (hplan : G.planner .none base = some engines) : G.NoConstraintDropped engines := by
  refine noConstraintDropped_of_surroundedBelow surroundings_none_wf hbase hplan ?_
  intro p hp l _ hl m hm
  obtain ⟨_, hunder⟩ := under_of_planEngines _ _ _ _
    (under_root surroundings_none_wf hbase) hplan p hp
  refine hunder.closed _ hl ?_ m hm
  unfold surroundingAgents
  simp [Surroundings.none]

/-- **No constraint is dropped, exactly when every engine sees surrounding agents only below
its surroundings.** -/
theorem noConstraintDropped_iff {S₀ : Surroundings Agent Link} {base : Link}
    {engines : List (AndRulePlan Agent Link X A M)} (hS : Surroundings.Wf G S₀)
    (hbase : ∀ a, base ∉ G.normalLinks a) (hplan : G.planner S₀ base = some engines) :
    G.NoConstraintDropped engines
      ↔ ∀ p ∈ engines, G.SurroundedBelow p.surroundings p.basePlink := by
  constructor
  · intro hkept p hp l hl hsurrounding m hm
    by_contra hout
    have hall := under_of_planEngines _ _ _ _ (under_root hS hbase) hplan
    exact Under.drops hS hall hp hl hsurrounding hm hout hkept
  · intro h
    exact noConstraintDropped_of_surroundedBelow hS hbase hplan h

/-! ## §6. A plan that drops a coupling. -/

/-- Which agent a link of the pattern belongs to. -/
def lostOwner : Fin 5 → Option (Fin 3 × LinkKind) :=
  ![none, some (0, .normal), some (0, .normal), some (1, .normal), none]

/-- A pattern embedded in a larger one.  Its root has a link `1` to a delta of the enclosing
replace pattern and a link `2` to the agent that the delta's "through" link `3` leads to; the
delta's own keyer is `4`. -/
def lostPattern : PatternGraph (Fin 3) (Fin 5) Unit Unit Unit where
  childAgent := ![0, 1, 2, 2, 1]
  patternQuery := ![⟨[1, 2], [], []⟩, ⟨[3], [], []⟩, ⟨[], [], []⟩]
  isDisjunction _ := false
  symbolicNormalLinkedQuery a keyer := (BooleanExpression.constant true).andAll
    (![[isEqual (.symbolVariable 1)
          (.childToSymbol .singularChild () 0 (.symbolVariable keyer)),
        isEqual (.symbolVariable 2)
          (.childToSymbol .singularChild () 1 (.symbolVariable keyer))],
      [isEqual (.symbolVariable keyer) (.symbolVariable 3)], []] a)
  owner := lostOwner
  rank := ![2, 1, 0]
  owner_normal := by decide
  owner_abnormal := by decide
  owner_multiplicity := by decide
  rank_lt := by
    intro a l kind
    revert a l
    cases kind <;> decide
  required := by decide +kernel

/-- What the enclosing engine gives: the link that its replace pattern keys the delta with. -/
def lostSurroundings : Surroundings (Fin 3) (Fin 5) :=
  ⟨{4}, {4}, StdMap.empty.set 1 4, .empty⟩

theorem lostSurroundings_wf : Surroundings.Wf lostPattern lostSurroundings := by
  refine ⟨by decide, ?_⟩
  intro a keyer h
  have hlookup : (StdMap.empty.set 1 4 : StdMap (Fin 3) (Fin 5)).lookup a = some keyer := h
  rw [StdMap.lookup_set] at hlookup
  split at hlookup
  next ha =>
    rw [← Option.some.inj hlookup, ha]
    decide
  next => cases hlookup

/-- **The planner accepts a pattern and drops a coupling**: the link `3` is seen through the
delta, so it is a residual of the agent keyed by `2`, and no engine solves for it. -/
theorem noConstraintDropped_lost :
    Surroundings.Wf lostPattern lostSurroundings ∧ (∀ a, 0 ∉ lostPattern.normalLinks a)
      ∧ ∃ engines, lostPattern.planner lostSurroundings 0 = some engines
          ∧ ¬ lostPattern.NoConstraintDropped engines := by
  have hbase : ∀ a, 0 ∉ lostPattern.normalLinks a := by decide
  have hsome : (lostPattern.planner lostSurroundings 0).isSome = true := by decide +kernel
  obtain ⟨engines, hplan⟩ := Option.isSome_iff_exists.mp hsome
  refine ⟨lostSurroundings_wf, hbase, engines, hplan, ?_⟩
  have hall := under_of_planEngines _ _ _ _ (under_root lostSurroundings_wf hbase) hplan
  obtain ⟨p, hp, hS, hb⟩ := exists_root_of_planner hplan
  have hdelta : lostPattern.FollowsNormal p.basePlink 1 := by
    rw [hb]
    refine Relation.ReflTransGen.single ?_
    show 1 ∈ lostPattern.normalLinks (lostPattern.childAgent 0)
    decide
  refine Under.drops lostSurroundings_wf hall hp hdelta ?_ (m := 3) (by decide) ?_
  · rw [hS]
    decide
  · rw [hS]
    decide

/-- The same pattern as an outermost one: all its agents are keyed in the one engine. -/
theorem noConstraintDropped_iff_outermost :
    ∃ engines, lostPattern.planner .none 0 = some engines
      ∧ (lostPattern.NoConstraintDropped engines
        ↔ ∀ p ∈ engines, lostPattern.SurroundedBelow p.surroundings p.basePlink) := by
  have hsome : (lostPattern.planner .none 0).isSome = true := by decide +kernel
  obtain ⟨engines, hplan⟩ := Option.isSome_iff_exists.mp hsome
  refine ⟨engines, hplan, noConstraintDropped_iff surroundings_none_wf ?_ hplan⟩
  decide

end PatternGraph

end Inferno.Engine
