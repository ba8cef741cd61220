/-
  Inferno.Engine.ScrPlan
  ──────────────────────
  `SCREngine::Plan`, stage one: which links of a nest of search/replace patterns
  belong to which engine.

    • `ScrPattern`      — a pattern with embedded search/replaces, and what the walkers
                          of compare and replace can see of it,
    • `ScrEngine`       — an engine, by the embedded agents above it and what encloses it,
    • `myPlinks`, `myAgentPlinks` — `CategoriseAgents`: the visible links that are not
                          enclosing, by link, and those whose agents are not, by agent,
    • `myEngine`        — `CreateMyEngines`,
    • `Enclosed`        — the enclosing links contain the agents they hang from,
    • `Enclosed.myEngine` — and every embedded engine gets such a set.
-/
import Inferno.Engine.PlanExact

namespace Inferno.Engine

open Inferno.Common
open Inferno.Lib

/-! ## §1. Nested patterns. -/

/-- `Agent::Path`. -/
inductive Path where
  | compare
  | replace
deriving DecidableEq

/-- A pattern with embedded search/replaces.  An embedded pattern is reached only by the
origin link that its engine makes for it; an engine is known by the embedded agents that
lead to it, innermost first. -/
structure ScrPattern (Agent Link X A M : Type) [DecidableEq Link] extends
    PatternGraph Agent Link X A M where
  /-- `GetVisibleChildren`. -/
  visibleChildren : Path → Agent → List Link
  /-- The links that `GenReplaceLayoutImpl` goes on along. -/
  layoutChildren : Agent → List Link
  /-- There is a `GetEmbeddedSearchPattern` or a `GetEmbeddedReplacePattern`. -/
  isEmbedded : Agent → Bool
  /-- `origin_plink`. -/
  originPlink : List Agent → Link
  parent : Link → Option Agent
  visibleRank : Agent → Nat
  parent_visible : ∀ path a, ∀ l ∈ visibleChildren path a, parent l = some a
  parent_origin : ∀ engine, parent (originPlink engine) = none
  origin_injective : ∀ engine engine', originPlink engine = originPlink engine' → engine = engine'
  visibleRank_lt :
    ∀ path a, ∀ l ∈ visibleChildren path a, visibleRank (childAgent l) < visibleRank a
  query_visible : ∀ a, ∀ l ∈ (patternQuery a).normalLinks ++ (patternQuery a).abnormalLinks,
    l ∈ visibleChildren .compare a
  layout_visible : ∀ a, ∀ l ∈ layoutChildren a, l ∈ visibleChildren .replace a

/-- An engine: the embedded agents above it, and the links it is given as enclosing. -/
structure ScrEngine (Agent Link : Type) where
  above : List Agent
  enclosingPlinks : Finset Link

/-- The engine of the outermost pattern. -/
def ScrEngine.root {Agent Link : Type} : ScrEngine Agent Link := ⟨[], ∅⟩

namespace ScrPattern

variable {Agent Link X A M : Type} [LinearOrder Agent] [LinearOrder Link]
  (G : ScrPattern Agent Link X A M)

/-! ## §2. What an engine can see. -/

section

variable (e : ScrEngine Agent Link)

/-- The link its pattern hangs from. -/
def origin : Link := G.originPlink e.above

/-- `WalkVisible`, in postorder. -/
def walkVisible (path : Path) : List Link :=
  postorder G.childAgent (G.visibleChildren path) (G.visibleRank (G.childAgent (G.origin e)) + 1)
    (G.origin e)

/-- The links that `GenReplaceLayout` meets. -/
def layoutPlinks : List Link :=
  postorder G.childAgent G.layoutChildren (G.visibleRank (G.childAgent (G.origin e)) + 1)
    (G.origin e)

/-- `visible_plinks`. -/
def visiblePlinks : Finset Link :=
  (G.walkVisible e .compare).toFinset ∪ (G.walkVisible e .replace).toFinset

/-- `enclosing_agents`. -/
def enclosingAgents : Finset Agent := e.enclosingPlinks.image G.childAgent

/-- `my_plinks`. -/
def myPlinks : Finset Link :=
  (G.visiblePlinks e).filter (fun plink => plink ∉ e.enclosingPlinks)

/-- `my_agent_plinks`. -/
def myAgentPlinks : Finset Link :=
  (G.visiblePlinks e).filter (fun plink => G.childAgent plink ∉ G.enclosingAgents e)

/-- `my_embedded_plinks_postorder`. -/
def myEmbeddedPlinksPostorder : List Link :=
  (G.walkVisible e .replace).filter (fun plink =>
    plink ∉ e.enclosingPlinks ∧ G.isEmbedded (G.childAgent plink))

/-- `my_engines[agent]`, with the surrounding links that `CreateMyEngines` gives it. -/
def myEngine (agent : Agent) : ScrEngine Agent Link :=
  ⟨agent :: e.above, e.enclosingPlinks ∪ G.myAgentPlinks e⟩

/-- What `PlanCompare` gives to the and-rule engine, as far as the division of the links
goes: the keyers and the maps play no part in it. -/
def andRuleSurroundings : Surroundings Agent Link := ⟨e.enclosingPlinks, ∅, .empty, .empty⟩

end

variable {G} {e : ScrEngine Agent Link}

omit [LinearOrder Agent] in
theorem mem_walkVisible {path : Path} {l : Link} :
    l ∈ G.walkVisible e path
      ↔ FollowsAll G.childAgent (G.visibleChildren path) (G.origin e) l :=
  mem_postorder (G.visibleRank_lt path) _ _ _ (Nat.lt_succ_self _)

omit [LinearOrder Agent] in
theorem mem_layoutPlinks {l : Link} :
    l ∈ G.layoutPlinks e ↔ FollowsAll G.childAgent G.layoutChildren (G.origin e) l := by
  have hrank : ∀ a, ∀ l ∈ G.layoutChildren a,
      G.visibleRank (G.childAgent l) < G.visibleRank a := by
    intro a l hl
    exact G.visibleRank_lt .replace a l (G.layout_visible a l hl)
  exact mem_postorder hrank _ _ _ (Nat.lt_succ_self _)

omit [LinearOrder Agent] in
theorem mem_visiblePlinks {l : Link} :
    l ∈ G.visiblePlinks e
      ↔ ∃ path, FollowsAll G.childAgent (G.visibleChildren path) (G.origin e) l := by
  unfold visiblePlinks
  rw [Finset.mem_union, List.mem_toFinset, List.mem_toFinset, mem_walkVisible, mem_walkVisible]
  constructor
  · intro h
    exact h.elim (fun h => ⟨.compare, h⟩) (fun h => ⟨.replace, h⟩)
  · intro h
    obtain ⟨path, h⟩ := h
    cases path with
    | compare => exact Or.inl h
    | replace => exact Or.inr h

omit [LinearOrder Agent] in
theorem mem_myPlinks {l : Link} :
    l ∈ G.myPlinks e ↔ l ∈ G.visiblePlinks e ∧ l ∉ e.enclosingPlinks := by
  unfold myPlinks
  rw [Finset.mem_filter]

omit [LinearOrder Agent] in
/-- What the replace layout meets is visible. -/
theorem layoutPlinks_visible {l : Link} (h : l ∈ G.layoutPlinks e) : l ∈ G.visiblePlinks e := by
  refine mem_visiblePlinks.mpr ⟨.replace, Relation.ReflTransGen.mono ?_ _ _
    (mem_layoutPlinks.mp h)⟩
  intro a b hab
  exact G.layout_visible _ b hab

omit [LinearOrder Agent] in
/-- What the normal links lead to is visible. -/
theorem follows_visible {l : Link} (h : G.FollowsNormal (G.origin e) l) :
    FollowsAll G.childAgent (G.visibleChildren .compare) (G.origin e) l := by
  refine Relation.ReflTransGen.mono ?_ _ _ h
  intro a b hab
  exact G.query_visible _ b (List.mem_append_left _ hab)

omit [LinearOrder Agent] in
/-- A visible link hangs from an agent that another visible link leads to. -/
theorem parent_of_visible {path : Path} {l : Link} {a : Agent}
    (h : FollowsAll G.childAgent (G.visibleChildren path) (G.origin e) l)
    (ha : G.parent l = some a) : ∃ m ∈ G.visiblePlinks e, G.childAgent m = a := by
  rcases Relation.ReflTransGen.cases_tail h with rfl | h
  · unfold origin at ha
    rw [G.parent_origin] at ha
    cases ha
  · obtain ⟨m, hm, hstep⟩ := h
    have hparent := G.parent_visible path _ l hstep
    rw [ha] at hparent
    exact ⟨m, mem_visiblePlinks.mpr ⟨path, hm⟩, (Option.some.inj hparent).symm⟩

/-! ## §3. What encloses an engine. -/

variable (G)

/-- The enclosing links hang from enclosing agents, and the engine's own origin is not one
of them. -/
structure Enclosed (e : ScrEngine Agent Link) : Prop where
  parent : ∀ l ∈ e.enclosingPlinks, ∀ a, G.parent l = some a → a ∈ G.enclosingAgents e
  origin : ∀ engine, G.originPlink engine ∈ e.enclosingPlinks → engine.length < e.above.length

variable {G}

theorem enclosed_root : G.Enclosed .root := by
  refine ⟨?_, ?_⟩
  · intro l hl
    exact absurd hl (Finset.notMem_empty l)
  · intro engine h
    exact absurd h (Finset.notMem_empty _)

/-- **Every embedded engine is enclosed**: an agent that a link of its parent hangs from is
enclosing already, or its own link is passed down. -/
theorem Enclosed.myEngine (h : G.Enclosed e) (agent : Agent) :
    G.Enclosed (G.myEngine e agent) := by
  have hsub : G.enclosingAgents e ⊆ G.enclosingAgents (G.myEngine e agent) :=
    Finset.image_subset_image Finset.subset_union_left
  refine ⟨?_, ?_⟩
  · intro l hl a ha
    rcases Finset.mem_union.mp hl with hl | hl
    · exact hsub (h.parent l hl a ha)
    · obtain ⟨path, hpath⟩ := mem_visiblePlinks.mp (Finset.mem_filter.mp hl).1
      obtain ⟨m, hm, rfl⟩ := parent_of_visible hpath ha
      by_cases hmem : G.childAgent m ∈ G.enclosingAgents e
      · exact hsub hmem
      · refine Finset.mem_image_of_mem _ (Finset.mem_union_right _ ?_)
        exact Finset.mem_filter.mpr ⟨hm, hmem⟩
  · intro engine horigin
    show engine.length < (agent :: e.above).length
    rw [List.length_cons]
    rcases Finset.mem_union.mp horigin with hl | hl
    · exact Nat.lt_succ_of_lt (h.origin engine hl)
    · -- the only origin that the parent can see is its own
      obtain ⟨path, hpath⟩ := mem_visiblePlinks.mp (Finset.mem_filter.mp hl).1
      rcases Relation.ReflTransGen.cases_tail hpath with heq | hstep
      · rw [G.origin_injective _ _ heq]
        exact Nat.lt_succ_self _
      · obtain ⟨m, _, hstep⟩ := hstep
        have hparent := G.parent_visible path _ _ hstep
        rw [G.parent_origin] at hparent
        cases hparent

/-- **What the solver solves for is the engine's own.** -/
theorem Enclosed.preorder_mine (h : G.Enclosed e) {l : Link}
    (hl : l ∈ G.normalAndBoundaryLinksPreorder (andRuleSurroundings e) (G.origin e)) :
    l ∈ G.myPlinks e := by
  have hfollows := PatternGraph.mem_preorder.mp hl
  refine mem_myPlinks.mpr ⟨mem_visiblePlinks.mpr ⟨.compare, follows_visible hfollows.normal⟩, ?_⟩
  intro henclosing
  rcases Relation.ReflTransGen.cases_tail hfollows with heq | hstep
  · rw [heq] at henclosing
    exact absurd (h.origin _ henclosing) (Nat.lt_irrefl _)
  · obtain ⟨m, _, hstep⟩ := hstep
    obtain ⟨hout, hnormal⟩ := PatternGraph.mem_linksWithin.mp hstep
    have hvisible := G.query_visible _ l (List.mem_append_left _ hnormal)
    exact hout (h.parent l henclosing _ (G.parent_visible _ _ l hvisible))

/-- And so are the abnormal links of the agents it keys. -/
theorem Enclosed.abnormal_mine (h : G.Enclosed e) {a : Agent} {l : Link}
    (ha : a ∈ G.myNormalAgents (andRuleSurroundings e) (G.origin e))
    (hl : l ∈ (G.patternQuery a).abnormalLinks) : l ∈ G.myPlinks e := by
  obtain ⟨hreached, hout⟩ := PatternGraph.mem_myNormalAgents.mp ha
  obtain ⟨m, hm, rfl⟩ := hreached
  have hvisible := G.query_visible _ l (List.mem_append_right _ hl)
  refine mem_myPlinks.mpr ⟨mem_visiblePlinks.mpr
    ⟨.compare, (follows_visible hm).tail hvisible⟩, ?_⟩
  intro henclosing
  exact hout (h.parent l henclosing _ (G.parent_visible _ _ l hvisible))

end ScrPattern

end Inferno.Engine
