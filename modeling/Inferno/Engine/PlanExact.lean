/-
  Inferno.Engine.PlanExact
  ────────────────────────
  What the plan of one engine contains.

    • `Planned`          — what its constructor has computed and checked,
    • `mem_myNormalLinks`, `mem_currentSolvePlinks`, … — the sets of the plan, by the
                           links that follow from its base,
    • `Planned.keyed_iff` — the keyed agents are exactly the normal agents,
    • `Planned.lookup_keyer`, `Planned.lookup_residuals` — what `ConfigureAgents` leaves
                           for an agent keyed here, and for one at the boundary,
    • `Planned.coupling_mem_split`, `Planned.boundary_mem_split` — the coupling
                           conditions an engine builds.
-/
import Inferno.Engine.KeyersExact

namespace Inferno.Engine

open Inferno.Common
open Inferno.Lib
open Inferno.SYM

namespace PatternGraph

variable {Agent Link X A M : Type} [LinearOrder Agent] [LinearOrder Link]
  (G : PatternGraph Agent Link X A M)

/-! ## §1. The sets of the plan. -/

/-- What follows from a link by normal links. -/
abbrev FollowsNormal (base l : Link) : Prop := FollowsAll G.childAgent G.normalLinks base l

/-- The same, up to the surrounding agents. -/
abbrev FollowsWithin (S : Surroundings Agent Link) (base l : Link) : Prop :=
  FollowsAll G.childAgent (G.linksWithin S) base l

variable {G}

theorem mem_linksWithin {S : Surroundings Agent Link} {a : Agent} {l : Link} :
    l ∈ G.linksWithin S a ↔ a ∉ G.surroundingAgents S ∧ l ∈ G.normalLinks a := by
  unfold linksWithin
  split
  next h => simp [h]
  next h => simp [h]

theorem rank_within (S : Surroundings Agent Link) (a : Agent) :
    ∀ l ∈ G.linksWithin S a, G.rank (G.childAgent l) < G.rank a := by
  intro l hl
  exact G.rank_normal a l (mem_linksWithin.mp hl).2

/-- What is met within the surroundings is met when nothing stops the walk. -/
theorem FollowsWithin.normal {S : Surroundings Agent Link} {base l : Link}
    (h : G.FollowsWithin S base l) : G.FollowsNormal base l := by
  refine Relation.ReflTransGen.mono ?_ _ _ h
  intro a b hab
  exact (mem_linksWithin.mp hab).2

theorem mem_myNormalLinks {S : Surroundings Agent Link} {base l : Link} :
    l ∈ G.myNormalLinks S base
      ↔ G.FollowsNormal base l ∧ G.childAgent l ∉ G.surroundingAgents S := by
  unfold myNormalLinks populateNormalAgents
  rw [Finset.mem_filter, List.mem_toFinset, mem_walk G.rank_normal (G.rank_lt_depth base)]

theorem mem_myNormalAgents {S : Surroundings Agent Link} {base : Link} {a : Agent} :
    a ∈ G.myNormalAgents S base
      ↔ (∃ l, G.FollowsNormal base l ∧ G.childAgent l = a) ∧ a ∉ G.surroundingAgents S := by
  unfold myNormalAgents populateNormalAgents
  rw [Finset.mem_sdiff, mem_walk_nodes G.rank_normal (G.rank_lt_depth base)]

theorem mem_preorder {S : Surroundings Agent Link} {base l : Link} :
    l ∈ G.normalAndBoundaryLinksPreorder S base ↔ G.FollowsWithin S base l := by
  unfold normalAndBoundaryLinksPreorder populateBoundaryAgents
  rw [mem_walk (rank_within S) (G.rank_lt_depth base)]

theorem mem_myBoundaryLinks {S : Surroundings Agent Link} {base l : Link} :
    l ∈ G.myBoundaryLinks S base
      ↔ G.FollowsWithin S base l ∧ G.childAgent l ∈ G.surroundingAgents S := by
  unfold myBoundaryLinks
  rw [Finset.mem_filter, List.mem_toFinset, mem_preorder]

theorem mem_boundaryAgents {S : Surroundings Agent Link} {base : Link} {a : Agent} :
    a ∈ G.boundaryAgents S base
      ↔ (∃ l, G.FollowsWithin S base l ∧ G.childAgent l = a) ∧ a ∈ G.surroundingAgents S := by
  unfold boundaryAgents populateBoundaryAgents
  rw [Finset.mem_inter, mem_walk_nodes (rank_within S) (G.rank_lt_depth base)]

theorem mem_boundaryKeyerLinks {S : Surroundings Agent Link} {base l : Link} :
    l ∈ G.boundaryKeyerLinks S base
      ↔ l ∈ S.keyerPlinks ∧ G.childAgent l ∈ G.boundaryAgents S base := by
  unfold boundaryKeyerLinks
  rw [Finset.mem_filter]

theorem mem_currentSolvePlinks {S : Surroundings Agent Link} {base l : Link} :
    l ∈ G.currentSolvePlinks S base
      ↔ G.FollowsWithin S base l
        ∨ (l ∈ S.keyerPlinks ∧ G.childAgent l ∈ G.boundaryAgents S base) := by
  unfold currentSolvePlinks
  rw [Finset.mem_union, List.mem_toFinset, mem_preorder, mem_boundaryKeyerLinks]

/-! ## §2. What the constructor has checked. -/

variable (G)

/-- What a plan that is accepted has computed, and the assertions it has passed. -/
structure Planned (p : AndRulePlan Agent Link X A M) : Prop where
  keyers : G.determineKeyers (G.depth p.basePlink) (G.surroundingAgents p.surroundings) ∅
    p.basePlink = some p.couplingKeyerLinksAll
  residuals : G.determineResiduals p.couplingKeyerLinksAll (G.depth p.basePlink) ∅
    (G.childAgent p.basePlink) = some p.couplingResidualLinks
  card : p.couplingKeyerLinksAll.card = (G.myNormalAgents p.surroundings p.basePlink).card
  split : ∃ expressions, G.expressionsFromAgents p.toKeying = some expressions
    ∧ BooleanExpression.preprocessForEngine expressions = some p.expressionsSplit

theorem planned_of_planEngine {S : Surroundings Agent Link} {base : Link}
    {p : AndRulePlan Agent Link X A M} (h : G.planEngine S base = some p) :
    p.surroundings = S ∧ p.basePlink = base ∧ G.Planned p := by
  unfold planEngine at h
  obtain ⟨keyers, hkeyers, h⟩ := Option.bind_eq_some_iff.mp h
  obtain ⟨residuals, hresiduals, h⟩ := Option.bind_eq_some_iff.mp h
  obtain ⟨u, hcheck, h⟩ := Option.bind_eq_some_iff.mp h
  obtain ⟨expressions, hexpressions, h⟩ := Option.bind_eq_some_iff.mp h
  obtain ⟨split, hsplit, h⟩ := Option.bind_eq_some_iff.mp h
  cases h
  refine ⟨rfl, rfl, hkeyers, hresiduals, ?_, expressions, hexpressions, hsplit⟩
  unfold checkPlan at hcheck
  simp only [ASSERT_bind_eq_some] at hcheck
  exact hcheck.2.2.1

/-! ## §3. Keyers. -/

/-- `DetermineKeyers` ends, with these keyers and no conflicting coupling. -/
def DeterminedKeyers (S : Surroundings Agent Link) (base : Link) (keyers : Finset Link) : Prop :=
  ∃ depth, G.determineKeyers depth (G.surroundingAgents S) ∅ base = some keyers

variable {G}

namespace DeterminedKeyers

variable {S : Surroundings Agent Link} {base : Link} {keyers : Finset Link}
  (h : G.DeterminedKeyers S base keyers)
include h

theorem keys : G.Keys [base] (G.surroundingAgents S) ∅ keyers := by
  obtain ⟨depth, hdepth⟩ := h
  exact determineKeyers_keys depth _ _ _ _ hdepth

/-- An agent has one keyer. -/
theorem injOn : Set.InjOn G.childAgent keyers := by
  refine h.keys.unique ?_
  intro a ha
  exact absurd ha (Finset.notMem_empty a)

theorem keyedFrom {l : Link} (hl : l ∈ keyers) : G.KeyedFrom [base] keyers l :=
  h.keys.chain l hl (Finset.notMem_empty l)

/-- A surrounding agent has none. -/
theorem notMem_surrounding {l : Link} (hl : l ∈ keyers) :
    G.childAgent l ∉ G.surroundingAgents S :=
  h.keys.fresh l hl (Finset.notMem_empty l)

/-- A keyer is the base link or a normal link of a keyed agent. -/
theorem keyer_cases {l : Link} (hl : l ∈ keyers) :
    l = base ∨ ∃ m ∈ keyers, l ∈ G.normalLinks (G.childAgent m) := by
  obtain ⟨s, hs, hkeyed, hchain⟩ := h.keyedFrom hl
  rw [List.mem_singleton] at hs
  cases hchain with
  | refl => exact Or.inl hs
  | @tail m _ hm hstep =>
      have hfrom : G.KeyedFrom [s] keyers m := ⟨s, List.mem_cons_self, hkeyed, hm⟩
      exact Or.inr ⟨m, hfrom.mem, hstep.1⟩

/-- The solver meets the keyers: no chain of them passes a surrounding agent. -/
theorem follows {l : Link} (hl : l ∈ keyers) : G.FollowsWithin S base l := by
  obtain ⟨s, hs, hkeyed, hchain⟩ := h.keyedFrom hl
  rw [List.mem_singleton] at hs
  rw [hs] at hkeyed hchain
  -- the chain, with the membership of every link it passes
  have hboth : l ∈ keyers ∧ G.FollowsWithin S base l := by
    induction hchain with
    | refl => exact ⟨hkeyed, .refl⟩
    | @tail a b ha hstep ih =>
        have hfrom : G.KeyedFrom [base] keyers a := ⟨base, List.mem_cons_self, hkeyed, ha⟩
        refine ⟨hstep.2, (ih hfrom.mem).2.tail ?_⟩
        exact mem_linksWithin.mpr ⟨h.notMem_surrounding hfrom.mem, hstep.1⟩
  exact hboth.2

theorem mem_myNormalAgents {l : Link} (hl : l ∈ keyers) :
    G.childAgent l ∈ G.myNormalAgents S base :=
  PatternGraph.mem_myNormalAgents.mpr
    ⟨⟨l, (h.follows hl).normal, rfl⟩, h.notMem_surrounding hl⟩

/-- With any keyer, the base link is one. -/
theorem base_mem {l : Link} (hl : l ∈ keyers) : base ∈ keyers := by
  obtain ⟨s, hs, hkeyed, _⟩ := h.keyedFrom hl
  rw [List.mem_singleton] at hs
  exact hs ▸ hkeyed

end DeterminedKeyers

namespace Planned

variable {p : AndRulePlan Agent Link X A M} (hp : G.Planned p)
include hp

theorem determined : G.DeterminedKeyers p.surroundings p.basePlink p.couplingKeyerLinksAll :=
  ⟨_, hp.keyers⟩

/-- An agent has one keyer. -/
theorem injOn : Set.InjOn G.childAgent p.couplingKeyerLinksAll :=
  hp.determined.injOn

theorem keyedFrom {l : Link} (hl : l ∈ p.couplingKeyerLinksAll) :
    G.KeyedFrom [p.basePlink] p.couplingKeyerLinksAll l :=
  hp.determined.keyedFrom hl

/-- A surrounding agent has none. -/
theorem notMem_surrounding {l : Link} (hl : l ∈ p.couplingKeyerLinksAll) :
    G.childAgent l ∉ G.surroundingAgents p.surroundings :=
  hp.determined.notMem_surrounding hl

/-- A keyer is the base link or a normal link of a keyed agent. -/
theorem keyer_cases {l : Link} (hl : l ∈ p.couplingKeyerLinksAll) :
    l = p.basePlink ∨ ∃ m ∈ p.couplingKeyerLinksAll, l ∈ G.normalLinks (G.childAgent m) :=
  hp.determined.keyer_cases hl

/-- The solver meets the keyers. -/
theorem follows {l : Link} (hl : l ∈ p.couplingKeyerLinksAll) :
    G.FollowsWithin p.surroundings p.basePlink l :=
  hp.determined.follows hl

theorem mem_myNormalAgents {l : Link} (hl : l ∈ p.couplingKeyerLinksAll) :
    G.childAgent l ∈ G.myNormalAgents p.surroundings p.basePlink :=
  hp.determined.mem_myNormalAgents hl

/-- **The keyed agents are the normal agents.**  One keyer for each keyed agent, and as
many keyers as normal agents. -/
theorem keyed_iff {a : Agent} :
    a ∈ G.myNormalAgents p.surroundings p.basePlink
      ↔ ∃ l ∈ p.couplingKeyerLinksAll, G.childAgent l = a := by
  have hsub : p.couplingKeyerLinksAll.image G.childAgent
      ⊆ G.myNormalAgents p.surroundings p.basePlink := by
    intro b hb
    obtain ⟨l, hl, rfl⟩ := Finset.mem_image.mp hb
    exact hp.mem_myNormalAgents hl
  have hcard : (p.couplingKeyerLinksAll.image G.childAgent).card
      = (G.myNormalAgents p.surroundings p.basePlink).card := by
    rw [Finset.card_image_of_injOn hp.injOn, hp.card]
  rw [← Finset.eq_of_subset_of_card_le hsub hcard.ge, Finset.mem_image]

/-- With any keyer, the base link is one. -/
theorem basePlink_mem {l : Link} (hl : l ∈ p.couplingKeyerLinksAll) :
    p.basePlink ∈ p.couplingKeyerLinksAll :=
  hp.determined.base_mem hl

/-! ## §4. What the agents are configured with. -/

theorem lookup_keyer {l : Link} (hl : l ∈ p.couplingKeyerLinksAll) :
    (G.agentsToKeyers p.toKeying).lookup (G.childAgent l) = some l := by
  have hmem : G.childAgent l ∈ (inOrder p.couplingKeyerLinksAll).map G.childAgent :=
    List.mem_map_of_mem (mem_inOrder.mpr hl)
  obtain ⟨m, hm, hagent, hlookup⟩ := (StdMap.lookup_foldl_set G.childAgent id
    (inOrder p.couplingKeyerLinksAll) p.surroundings.agentsToKeyers (G.childAgent l)).2 hmem
  have hml : m = l := hp.injOn (mem_inOrder.mp hm) hl hagent
  rw [hml] at hlookup
  exact hlookup

omit hp in
/-- Another agent keeps the keyer it had. -/
theorem lookup_keyer_of_notMem {a : Agent} (ha : ∀ l ∈ p.couplingKeyerLinksAll,
    G.childAgent l ≠ a) :
    (G.agentsToKeyers p.toKeying).lookup a = p.surroundings.agentsToKeyers.lookup a := by
  refine (StdMap.lookup_foldl_set G.childAgent id (inOrder p.couplingKeyerLinksAll)
    p.surroundings.agentsToKeyers a).1 ?_
  intro hmem
  obtain ⟨l, hl, hla⟩ := List.mem_map.mp hmem
  exact ha l (mem_inOrder.mp hl) hla

/-- An agent keyed here has the residuals found here. -/
theorem lookup_residuals {l : Link} (hl : l ∈ p.couplingKeyerLinksAll) :
    (G.agentsToResiduals p.toKeying).lookup (G.childAgent l)
      = some (p.couplingResidualLinks.filter (fun r => G.childAgent r = G.childAgent l)) := by
  unfold agentsToResiduals
  have hout : G.childAgent l
      ∉ (inOrder (G.myBoundaryLinks p.surroundings p.basePlink)).map G.childAgent := by
    intro hmem
    obtain ⟨b, hb, hbl⟩ := List.mem_map.mp hmem
    refine hp.notMem_surrounding hl ?_
    rw [← hbl]
    exact (mem_myBoundaryLinks.mp (mem_inOrder.mp hb)).2
  rw [(StdMap.lookup_foldl_insert G.childAgent _ _ _).1 hout]
  have hmem : G.childAgent l ∈ (inOrder p.couplingKeyerLinksAll).map G.childAgent :=
    List.mem_map_of_mem (mem_inOrder.mpr hl)
  obtain ⟨m, hm, hagent, hlookup⟩ := (StdMap.lookup_foldl_set G.childAgent
    (fun k => p.couplingResidualLinks.filter (fun r => G.childAgent r = G.childAgent k))
    (inOrder p.couplingKeyerLinksAll) p.surroundings.agentsToResiduals (G.childAgent l)).2 hmem
  rw [hagent] at hlookup
  exact hlookup

omit hp in
/-- An agent at the boundary has its boundary links among its residuals. -/
theorem lookup_boundary {b : Link} (hb : b ∈ G.myBoundaryLinks p.surroundings p.basePlink) :
    ∃ residuals, (G.agentsToResiduals p.toKeying).lookup (G.childAgent b) = some residuals
      ∧ b ∈ residuals := by
  have hmem : G.childAgent b
      ∈ (inOrder (G.myBoundaryLinks p.surroundings p.basePlink)).map G.childAgent :=
    List.mem_map_of_mem (mem_inOrder.mpr hb)
  obtain ⟨s, hs, _, hall⟩ := (StdMap.lookup_foldl_insert G.childAgent
    (inOrder (G.myBoundaryLinks p.surroundings p.basePlink))
    (G.agentsToMyResiduals p.toKeying) (G.childAgent b)).2 hmem
  exact ⟨s, hs, hall b (mem_inOrder.mpr hb) rfl⟩

/-! ## §5. What the engine builds. -/

/-- Each keyed agent's full query is split. -/
theorem full_query {l : Link} (hl : l ∈ p.couplingKeyerLinksAll) :
    .constant false ∉ (G.symbolicQuery (G.childAgent l) l
        (p.couplingResidualLinks.filter (fun r => G.childAgent r = G.childAgent l))
        false).splitAnds
      ∧ ∀ c ∈ (G.symbolicQuery (G.childAgent l) l
          (p.couplingResidualLinks.filter (fun r => G.childAgent r = G.childAgent l))
          false).splitAnds, c ≠ .constant true → c ∈ p.expressionsSplit := by
  obtain ⟨expressions, hexpressions, hsplit⟩ := hp.split
  obtain ⟨hfalse, hmem⟩ := BooleanExpression.preprocessForEngine_eq_some hsplit
  obtain ⟨mine, hmine, hrest⟩ := Option.bind_eq_some_iff.mp hexpressions
  obtain ⟨boundary, _, hboth⟩ := Option.bind_eq_some_iff.mp hrest
  cases hboth
  have hquery : G.symbolicOf p.toKeying false l = some (G.symbolicQuery (G.childAgent l) l
      (p.couplingResidualLinks.filter (fun r => G.childAgent r = G.childAgent l)) false) := by
    unfold symbolicOf
    rw [hp.lookup_keyer hl, hp.lookup_residuals hl]
    rfl
  have hin := List.mem_append_left boundary
    ((mem_of_mapM hmine _).mpr ⟨l, mem_inOrder.mpr hl, hquery⟩)
  refine ⟨hfalse _ hin, ?_⟩
  intro c hc htrue
  exact (hmem c).mpr ⟨⟨_, hin, hc⟩, htrue⟩

/-- **The coupling condition of a residual.** -/
theorem coupling_mem_split {l r : Link} (hl : l ∈ p.couplingKeyerLinksAll)
    (hr : r ∈ p.couplingResidualLinks) (hagent : G.childAgent r = G.childAgent l) :
    couplingCondition l r ∈ p.expressionsSplit := by
  obtain ⟨hfalse, hmem⟩ := hp.full_query hl
  refine hmem _ ?_ (couplingCondition_ne_constant l r true)
  refine (mem_splitAnds_symbolicQuery (couplingCondition_ne_constant l r true) hfalse).mpr
    (Or.inl ⟨r, ?_, rfl⟩)
  rw [Finset.mem_filter]
  exact ⟨hr, hagent⟩

/-- **The coupling condition of a boundary link**, with the keyer that the surroundings give
to its agent. -/
theorem boundary_mem_split {keyer b : Link}
    (hb : b ∈ G.myBoundaryLinks p.surroundings p.basePlink)
    (hkeyer : keyer ∈ p.surroundings.keyerPlinks) (hagent : G.childAgent keyer = G.childAgent b)
    (hlookup : (G.agentsToKeyers p.toKeying).lookup (G.childAgent b) = some keyer) :
    couplingCondition keyer b ∈ p.expressionsSplit
      ∧ keyer ∈ G.currentSolvePlinks p.surroundings p.basePlink := by
  obtain ⟨expressions, hexpressions, hsplit⟩ := hp.split
  obtain ⟨hfalse, hmem⟩ := BooleanExpression.preprocessForEngine_eq_some hsplit
  obtain ⟨mine, _, hrest⟩ := Option.bind_eq_some_iff.mp hexpressions
  obtain ⟨boundary, hboundary, hboth⟩ := Option.bind_eq_some_iff.mp hrest
  cases hboth
  unfold createBoundarySymbolics at hboundary
  rw [ASSERT_bind_eq_some] at hboundary
  obtain ⟨hfollows, hsurrounding⟩ := mem_myBoundaryLinks.mp hb
  -- the keyer's agent is the boundary link's, so it is a boundary agent
  have hkeyerAgent : G.childAgent keyer ∈ G.boundaryAgents p.surroundings p.basePlink := by
    rw [hagent]
    exact mem_boundaryAgents.mpr ⟨⟨b, hfollows, rfl⟩, hsurrounding⟩
  obtain ⟨residuals, hresiduals, hbr⟩ := lookup_boundary hb
  have hquery : G.symbolicOf p.toKeying true keyer
      = some (G.symbolicQuery (G.childAgent keyer) keyer residuals true) := by
    unfold symbolicOf
    rw [hagent, hlookup, hresiduals]
    rfl
  -- its query is one of the boundary expressions that were split
  have hin := List.mem_append_right mine ((mem_of_mapM hboundary.2 _).mpr
    ⟨keyer, mem_inOrder.mpr (mem_boundaryKeyerLinks.mpr ⟨hkeyer, hkeyerAgent⟩), hquery⟩)
  have hcondition := couplingCondition_ne_constant (X := X) (A := A) (M := M) keyer b true
  refine ⟨(hmem _).mpr ⟨⟨_, hin, ?_⟩, hcondition⟩,
    mem_currentSolvePlinks.mpr (Or.inr ⟨hkeyer, hkeyerAgent⟩)⟩
  exact (mem_splitAnds_symbolicQuery hcondition (hfalse _ hin)).mpr (Or.inl ⟨b, hbr, rfl⟩)

end Planned

end PatternGraph

end Inferno.Engine
