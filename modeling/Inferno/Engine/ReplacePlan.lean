/-
  Inferno.Engine.ReplacePlan
  ──────────────────────────
  `SCREngine::Plan::PlanReplace`: which link keys an agent that only the replace path
  reaches.

    • `OverlayPattern`     — a pattern, with what overlay planning does with its agents,
    • `planReplace`        — the function, with its assertions as `none`,
    • `ReplaceKeyed`       — what it is for: it returns, and every agent of the replace
                             path has one keyer, the first completed link to it,
    • `keyReplaceLinks_spec` — when the loop over the replace-only links returns, and
                             which of them it keys,
    • `planReplace_exact`, and the shared agent that it fails on.
-/
import Inferno.Engine.ScrPlan
import Inferno.Lib.FoldM
import Mathlib

namespace Inferno.Engine

open Inferno.Common
open Inferno.Lib

/-! ## §1. The function. -/

/-- `UnionOfSolo` of two sets. -/
def unionOfSolo {α : Type} [DecidableEq α] (s t : Finset α) : Option (Finset α) := do
  ASSERT ((s ∪ t).card = s.card + t.card)
  some (s ∪ t)

/-- A pattern, with what overlay planning does with its agents. -/
structure OverlayPattern (Agent Link X A M : Type) [DecidableEq Link] extends
    ScrPattern Agent Link X A M where
  /-- The overlay and the through link of an agent that `StartsOverlay`. -/
  startsOverlay : Agent → Option (Link × Link)
  /-- The agent is a non-strict supercategory of the bottom layer's, which is a
  `StandardAgent`. -/
  overlays : Agent → Agent → Bool
  /-- The links that `MaybeChildrenPlanOverlay` goes on with, over their bottom layers. -/
  overlayPairs : Agent → Link → List (Link × Link)
  visible_nodup : ∀ path a, (visibleChildren path a).Nodup
  overlay_visible : ∀ a bottom, ∀ pair ∈ overlayPairs a bottom,
    pair.1 ∈ visibleChildren .replace a

/-- What `PlanReplace` finds when it starts: the keyers so far, those of the and-rule
engine and of its subordinates, the agents that engine keys itself, and the map from
agents to their keyers. -/
structure ReplaceInputs (Agent Link : Type) where
  allKeyerPlinks : Finset Link
  andRuleEngineKeyerPlinks : Finset Link
  keyedAgents : Finset Agent
  allAgentsToKeyers : StdMap Agent Link

/-- The state of its loop: `all_keyer_plinks` and `all_agents_to_keyers`. -/
structure ReplaceState (Agent Link : Type) where
  keyers : Finset Link
  agentsToKeyers : StdMap Agent Link

/-- What it leaves in the plan. -/
structure ReplacePlan (Agent Link : Type) extends ReplaceState Agent Link where
  agentsToBottomLayer : StdMap Agent Link
  keyedBeforeReplacePlinks : Finset Link

namespace OverlayPattern

variable {Agent Link X A M : Type} [LinearOrder Agent] [LinearOrder Link]
  (G : OverlayPattern Agent Link X A M) (e : ScrEngine Agent Link)
  (r : ReplaceInputs Agent Link)

/-- `my_replace_only_plinks_postorder`. -/
def myReplaceOnlyPlinksPostorder : List Link :=
  (G.walkVisible e .replace).filter (fun plink =>
    plink ∉ e.enclosingPlinks ∧ plink ∉ G.walkVisible e .compare)

/-- `my_agents`. -/
def myAgents : Finset Agent := (G.myAgentPlinks e).image G.childAgent

/-- `SetOverlayBottomLayer`: the solo insertion of an agent and its bottom layer. -/
def setOverlayBottomLayer (bottoms : StdMap Agent Link) (agent : Agent) (bottom : Link) :
    Option (StdMap Agent Link) :=
  if bottoms.lookup agent = none then some (bottoms.set agent bottom) else none

/-- `AgentCommon::PlanOverlay`.  The number bounds the depth of the recursion. -/
def planOverlay : Nat → StdMap Agent Link → Link → Link → Option (StdMap Agent Link)
  | 0, _, _, _ => none
  | depth + 1, bottoms, me, bottom =>
      if G.childAgent me ∈ r.keyedAgents then some bottoms
      else if G.overlays (G.childAgent me) (G.childAgent bottom) = false then some bottoms
      else do
        let bottoms ← setOverlayBottomLayer bottoms (G.childAgent me) bottom
        (G.overlayPairs (G.childAgent me) bottom).foldlM
          (fun bottoms pair => planOverlay depth bottoms pair.1 pair.2) bottoms

/-- The overlay and through links of the agents that start overlays. -/
def overlayStarts : List (Link × Link) :=
  (inOrder (G.myAgents e)).filterMap G.startsOverlay

/-- `StartPlanOverlay` of each of `my_overlay_starter_agents`. -/
def startPlanOverlays : Option (StdMap Agent Link) :=
  (G.overlayStarts e).foldlM
    (fun bottoms pair =>
      G.planOverlay r (G.visibleRank (G.childAgent pair.1) + 1) bottoms pair.1 pair.2)
    .empty

/-- `IsAgentKeyer`. -/
def isAgentKeyer (keyers : Finset Link) (agent : Agent) : Bool :=
  decide (∃ keyerPlink ∈ keyers, G.childAgent keyerPlink = agent)

/-- One turn of the loop over `my_replace_only_plinks_postorder`. -/
def keyReplaceLink (s : ReplaceState Agent Link) (plink : Link) :
    Option (ReplaceState Agent Link) := do
  ASSERT (plink ∉ s.keyers)
  if G.isAgentKeyer s.keyers (G.childAgent plink) then some s
  else do
    let keyers ← insertSolo s.keyers plink
    some ⟨keyers, s.agentsToKeyers.set (G.childAgent plink) plink⟩

/-- `PlanReplace`. -/
def planReplace : Option (ReplacePlan Agent Link) := do
  let keyers ← unionOfSolo r.allKeyerPlinks r.andRuleEngineKeyerPlinks
  let bottoms ← G.startPlanOverlays e r
  let s ← (G.myReplaceOnlyPlinksPostorder e).foldlM G.keyReplaceLink
    ⟨keyers, r.allAgentsToKeyers⟩
  let before ← unionOfSolo r.andRuleEngineKeyerPlinks e.enclosingPlinks
  some ⟨s, bottoms, before⟩

/-! ## §2. What it is for. -/

/-- The agent is keyed by the and-rule engine or by an enclosing engine. -/
def KeyedBefore (a : Agent) : Prop :=
  ∃ l, (l ∈ r.allKeyerPlinks ∨ l ∈ r.andRuleEngineKeyerPlinks) ∧ G.childAgent l = a

/-- The first link to an agent that the walk of the replace path completes. -/
def firstCompleted (a : Agent) : Option Link :=
  (G.walkVisible e .replace).find? (fun l => decide (G.childAgent l = a))

/-- **Replace planning is total and unique**: it returns, and the first completed link to
an agent of the replace path that was not keyed before is its one keyer. -/
def ReplaceKeyed : Prop :=
  ∃ p, G.planReplace e r = some p ∧ ∀ a, ¬ G.KeyedBefore r a →
    ∀ l, G.firstCompleted e a = some l →
      (∀ k, k ∈ p.keyers ∧ G.childAgent k = a ↔ k = l) ∧ p.agentsToKeyers.lookup a = some l

/-- The agents that overlay planning gives a bottom layer, in order, with repetitions. -/
def overlaid : Nat → Link → Link → List Agent
  | 0, _, _ => []
  | depth + 1, me, bottom =>
      if G.childAgent me ∈ r.keyedAgents then []
      else if G.overlays (G.childAgent me) (G.childAgent bottom) = false then []
      else G.childAgent me :: (G.overlayPairs (G.childAgent me) bottom).flatMap
        fun pair => overlaid depth pair.1 pair.2

/-- All of them. -/
def allOverlaid : List Agent :=
  (G.overlayStarts e).flatMap fun pair =>
    G.overlaid r (G.visibleRank (G.childAgent pair.1) + 1) pair.1 pair.2

/-- When `PlanReplace` does its job.  `shared` is the defect's: below an agent that two
links of the replace path lead to, no link may be the keyer of its agent.  The others are
what the steps before have to see to. -/
structure Plannable : Prop where
  shared : ∀ l ∈ G.myReplaceOnlyPlinksPostorder e, ¬ G.KeyedBefore r (G.childAgent l) →
    G.firstCompleted e (G.childAgent l) = some l →
    ∀ m ∈ G.walkVisible e .replace, ∀ m' ∈ G.walkVisible e .replace, m ≠ m' →
      G.childAgent m = G.childAgent m' →
      ¬ Relation.TransGen (Follows G.childAgent (G.visibleChildren .replace)) m l
  replaceOnly : ∀ a, ¬ G.KeyedBefore r a → ∀ l, G.firstCompleted e a = some l →
    l ∈ G.myReplaceOnlyPlinksPostorder e
  fresh : ∀ l ∈ G.myReplaceOnlyPlinksPostorder e,
    l ∉ r.allKeyerPlinks ∧ l ∉ r.andRuleEngineKeyerPlinks
  keyersApart : Disjoint r.allKeyerPlinks r.andRuleEngineKeyerPlinks
  keyersInside : Disjoint r.andRuleEngineKeyerPlinks e.enclosingPlinks
  overlaidOnce : (G.allOverlaid e r).Nodup

/-! ## §3. The loop over the replace-only links. -/

/-- Some keyer leads to the agent. -/
def Keyed (keyers : Finset Link) (a : Agent) : Prop := ∃ k ∈ keyers, G.childAgent k = a

/-- The first link of a list that leads to an agent. -/
def firstTo (l : List Link) (a : Agent) : Option Link :=
  l.find? (fun x => decide (G.childAgent x = a))

/-- What lets the loop return: no link is a keyer already, and one that comes twice is
not the first to an agent without a keyer. -/
def LoopFree (keyers : Finset Link) (l : List Link) : Prop :=
  (∀ x ∈ l, x ∉ keyers) ∧ ∀ x, 2 ≤ l.count x →
    G.Keyed keyers (G.childAgent x) ∨ G.firstTo l (G.childAgent x) ≠ some x

variable {G e r}

theorem isAgentKeyer_eq {keyers : Finset Link} {a : Agent} :
    G.isAgentKeyer keyers a = true ↔ G.Keyed keyers a := decide_eq_true_iff

theorem firstTo_cons_self (x : Link) (l : List Link) :
    G.firstTo (x :: l) (G.childAgent x) = some x := by
  unfold firstTo
  rw [List.find?_cons_of_pos (by simp)]

theorem firstTo_cons_ne {x : Link} {a : Agent} (h : G.childAgent x ≠ a) (l : List Link) :
    G.firstTo (x :: l) a = G.firstTo l a := by
  unfold firstTo
  rw [List.find?_cons_of_neg (by simpa using h)]

theorem firstTo_some {l : List Link} {a : Agent} {x : Link} (h : G.firstTo l a = some x) :
    x ∈ l ∧ G.childAgent x = a := by
  unfold firstTo at h
  exact ⟨List.mem_of_find?_eq_some h, by simpa using List.find?_some h⟩

omit [LinearOrder Agent] in
theorem keyed_insert {keyers : Finset Link} {x : Link} {a : Agent} :
    G.Keyed (insert x keyers) a ↔ G.childAgent x = a ∨ G.Keyed keyers a := by
  unfold Keyed
  simp

/-- One turn: the link is not a keyer yet, and becomes one where its agent has none. -/
theorem keyReplaceLink_cases (s : ReplaceState Agent Link) (x : Link) :
    (x ∈ s.keyers ∧ G.keyReplaceLink s x = none) ∨
    (x ∉ s.keyers ∧ G.Keyed s.keyers (G.childAgent x) ∧ G.keyReplaceLink s x = some s) ∨
    (x ∉ s.keyers ∧ ¬ G.Keyed s.keyers (G.childAgent x) ∧ G.keyReplaceLink s x =
      some ⟨insert x s.keyers, s.agentsToKeyers.set (G.childAgent x) x⟩) := by
  unfold keyReplaceLink ASSERT insertSolo
  by_cases hx : x ∈ s.keyers
  · exact Or.inl ⟨hx, by simp [hx]⟩
  · by_cases hk : G.Keyed s.keyers (G.childAgent x)
    · exact Or.inr (Or.inl ⟨hx, hk, by simp [hx, isAgentKeyer_eq.mpr hk]⟩)
    · have hfalse : G.isAgentKeyer s.keyers (G.childAgent x) = false :=
        Bool.eq_false_iff.mpr fun h => hk (isAgentKeyer_eq.mp h)
      exact Or.inr (Or.inr ⟨hx, hk, by simp [hx, hfalse]⟩)

theorem loopFree_cons_keyed {keyers : Finset Link} {x : Link} {l : List Link}
    (hk : G.Keyed keyers (G.childAgent x)) :
    G.LoopFree keyers (x :: l) ↔ x ∉ keyers ∧ G.LoopFree keyers l := by
  -- to other agents than that of `x` nothing changes
  have hcount : ∀ y, ¬ G.Keyed keyers (G.childAgent y) →
      (x :: l).count y = l.count y ∧
        G.firstTo (x :: l) (G.childAgent y) = G.firstTo l (G.childAgent y) := by
    intro y hy
    have hne : G.childAgent x ≠ G.childAgent y := fun h => hy (h ▸ hk)
    have hxy : x ≠ y := fun h => hne (by rw [h])
    exact ⟨List.count_cons_of_ne hxy, firstTo_cons_ne hne l⟩
  unfold LoopFree
  rw [List.forall_mem_cons]
  constructor
  · rintro ⟨⟨hx, hl⟩, htwice⟩
    refine ⟨hx, hl, ?_⟩
    intro y hy
    by_cases hky : G.Keyed keyers (G.childAgent y)
    · exact Or.inl hky
    · obtain ⟨hc, hf⟩ := hcount y hky
      rw [← hf]
      exact htwice y (by rw [hc]; exact hy)
  · rintro ⟨hx, hl, htwice⟩
    refine ⟨⟨hx, hl⟩, ?_⟩
    intro y hy
    by_cases hky : G.Keyed keyers (G.childAgent y)
    · exact Or.inl hky
    · obtain ⟨hc, hf⟩ := hcount y hky
      rw [hf]
      exact htwice y (by rw [← hc]; exact hy)

theorem loopFree_cons_new {keyers : Finset Link} {x : Link} {l : List Link}
    (hk : ¬ G.Keyed keyers (G.childAgent x)) :
    G.LoopFree keyers (x :: l)
      ↔ x ∉ keyers ∧ G.LoopFree (insert x keyers) l := by
  -- an other agent's links do not see `x`
  have hcount : ∀ y, G.childAgent x ≠ G.childAgent y →
      (x :: l).count y = l.count y ∧
        G.firstTo (x :: l) (G.childAgent y) = G.firstTo l (G.childAgent y) := by
    intro y hne
    have hxy : x ≠ y := fun h => hne (by rw [h])
    exact ⟨List.count_cons_of_ne hxy, firstTo_cons_ne hne l⟩
  unfold LoopFree
  rw [List.forall_mem_cons]
  constructor
  · rintro ⟨⟨hx, hl⟩, htwice⟩
    refine ⟨hx, ?_, ?_⟩
    · intro y hy hmem
      rcases Finset.mem_insert.mp hmem with rfl | hmem
      · -- the link itself comes again
        have htwo : 2 ≤ (y :: l).count y := by
          rw [List.count_cons_self]
          have := List.count_pos_iff.mpr hy
          omega
        rcases htwice y htwo with h | h
        · exact hk h
        · exact h (firstTo_cons_self y l)
      · exact hl y hy hmem
    · intro y hy
      -- a link that comes twice: to the agent of `x`, or not
      by_cases hky : G.childAgent x = G.childAgent y ∨ G.Keyed keyers (G.childAgent y)
      · exact Or.inl (keyed_insert.mpr hky)
      · obtain ⟨hne, hky⟩ := not_or.mp hky
        obtain ⟨hc, hf⟩ := hcount y hne
        rw [← hf]
        exact Or.inr ((htwice y (by rw [hc]; exact hy)).resolve_left hky)
  · -- and back: `x` does not come again, for its agent is keyed from here on
    rintro ⟨hx, hl, htwice⟩
    refine ⟨⟨hx, fun y hy hmem => hl y hy (Finset.mem_insert_of_mem hmem)⟩, ?_⟩
    intro y hy
    by_cases hyx : y = x
    · subst hyx
      have hmem : y ∈ l := by
        rw [List.count_cons_self] at hy
        exact List.count_pos_iff.mp (by omega)
      exact absurd (Finset.mem_insert_self y keyers) (hl y hmem)
    · by_cases hsame : G.childAgent x = G.childAgent y
      · right
        rw [← hsame, firstTo_cons_self]
        exact fun h => hyx (Option.some.inj h).symm
      · obtain ⟨hc, hf⟩ := hcount y hsame
        rw [hf]
        rcases htwice y (by rw [← hc]; exact hy) with h | h
        · exact Or.inl ((keyed_insert.mp h).resolve_left hsame)
        · exact Or.inr h

/-- **When the loop returns**, by induction on the list. -/
theorem keyReplaceLinks_returns (l : List Link) : ∀ s : ReplaceState Agent Link,
    (∃ s', l.foldlM G.keyReplaceLink s = some s') ↔ G.LoopFree s.keyers l := by
  induction l with
  | nil =>
      intro s
      refine iff_of_true ⟨s, rfl⟩ ⟨by simp, ?_⟩
      intro x hx
      simp at hx
  | cons x l ih =>
      intro s
      have hcons : ∀ s₁, G.keyReplaceLink s x = some s₁ →
          ((∃ s', (x :: l).foldlM G.keyReplaceLink s = some s')
            ↔ G.LoopFree s₁.keyers l) := by
        intro s₁ hs₁
        rw [← ih s₁, List.foldlM_cons, hs₁]
        rfl
      rcases keyReplaceLink_cases s x with ⟨hx, hnone⟩ | ⟨hx, hk, hsome⟩ | ⟨hx, hk, hsome⟩
      · refine iff_of_false ?_ ?_
        · rintro ⟨s', h⟩
          rw [List.foldlM_cons, hnone] at h
          cases h
        · intro h
          exact h.1 x List.mem_cons_self hx
      · rw [hcons s hsome, loopFree_cons_keyed hk]
        exact ⟨fun h => ⟨hx, h⟩, fun h => h.2⟩
      · rw [hcons _ hsome, loopFree_cons_new hk]
        exact ⟨fun h => ⟨hx, h⟩, fun h => h.2⟩

/-- **What the loop keys**: the first link to each agent that had no keyer. -/
theorem keyReplaceLinks_keys (l : List Link) : ∀ s s' : ReplaceState Agent Link,
    l.foldlM G.keyReplaceLink s = some s' →
      (∀ x, x ∈ s'.keyers ↔ x ∈ s.keyers ∨
        (¬ G.Keyed s.keyers (G.childAgent x) ∧ G.firstTo l (G.childAgent x) = some x)) ∧
      (∀ a, G.Keyed s.keyers a → s'.agentsToKeyers.lookup a = s.agentsToKeyers.lookup a) ∧
      ∀ a x, ¬ G.Keyed s.keyers a → G.firstTo l a = some x →
        s'.agentsToKeyers.lookup a = some x := by
  induction l with
  | nil =>
      intro s s' h
      -- no link: nothing is keyed
      cases h
      refine ⟨?_, fun _ _ => rfl, ?_⟩
      · intro x
        simp [firstTo]
      · intro a x _ hx
        cases hx
  | cons x l ih =>
      intro s s' h
      obtain ⟨s₁, hs₁, hrest⟩ := foldlM_cons_eq_some.mp h
      rcases keyReplaceLink_cases s x with ⟨hx, hnone⟩ | ⟨hx, hk, hsome⟩ | ⟨hx, hk, hsome⟩
      · rw [hnone] at hs₁
        cases hs₁
      · -- an agent that has a keyer: the link is passed by
        rw [hsome] at hs₁
        cases hs₁
        obtain ⟨hmem, hkeep, hnew⟩ := ih s s' hrest
        have hfirst : ∀ a, ¬ G.Keyed s.keyers a → G.firstTo (x :: l) a = G.firstTo l a :=
          fun a ha => firstTo_cons_ne (fun h => ha (by rw [← h]; exact hk)) l
        refine ⟨?_, hkeep, ?_⟩
        · intro y
          rw [hmem y]
          constructor
          · rintro (h | ⟨hky, hy⟩)
            · exact Or.inl h
            · exact Or.inr ⟨hky, by rw [hfirst _ hky]; exact hy⟩
          · rintro (h | ⟨hky, hy⟩)
            · exact Or.inl h
            · exact Or.inr ⟨hky, by rw [← hfirst _ hky]; exact hy⟩
        · intro a y ha hy
          rw [hfirst a ha] at hy
          exact hnew a y ha hy
      · -- the link becomes its agent's keyer
        rw [hsome] at hs₁
        cases hs₁
        obtain ⟨hmem, hkeep, hnew⟩ := ih _ s' hrest
        refine ⟨?_, ?_, ?_⟩
        · intro y
          rw [hmem y, Finset.mem_insert, keyed_insert]
          -- to the same agent the link itself is the first one, to others nothing changes
          by_cases hsame : G.childAgent x = G.childAgent y
          · rw [← hsame, firstTo_cons_self]
            constructor
            · rintro ((rfl | h) | ⟨hky, _⟩)
              · exact Or.inr ⟨hk, rfl⟩
              · exact Or.inl h
              · exact absurd (Or.inl rfl) hky
            · rintro (h | ⟨_, hy⟩)
              · exact Or.inl (Or.inr h)
              · exact Or.inl (Or.inl (Option.some.inj hy).symm)
          · rw [firstTo_cons_ne hsame]
            constructor
            · rintro ((rfl | h) | ⟨hky, hy⟩)
              · exact absurd rfl hsame
              · exact Or.inl h
              · exact Or.inr ⟨fun h => hky (Or.inr h), hy⟩
            · rintro (h | ⟨hky, hy⟩)
              · exact Or.inl (Or.inr h)
              · exact Or.inr ⟨fun h => h.elim hsame hky, hy⟩
        · -- the map is written once for each agent
          intro a ha
          rw [hkeep a (keyed_insert.mpr (Or.inr ha))]
          have hne : a ≠ G.childAgent x := fun h => hk (h ▸ ha)
          simp [hne]
        · intro a y ha hy
          by_cases hsame : G.childAgent x = a
          · rw [← hsame, firstTo_cons_self] at hy
            rw [← hsame, hkeep _ (keyed_insert.mpr (Or.inl rfl)), ← hy]
            simp
          · rw [firstTo_cons_ne hsame] at hy
            exact hnew a y (fun h => (keyed_insert.mp h).elim hsame ha) hy

/-! ## §4. Overlay planning. -/

/-- The agent has no bottom layer yet. -/
def Free (bottoms : StdMap Agent Link) (a : Agent) : Prop := bottoms.lookup a = none

omit [LinearOrder Link] in
theorem setOverlayBottomLayer_takesOnce (agent : Agent) (bottom : Link) :
    TakesOnce Free (fun bottoms => setOverlayBottomLayer bottoms agent bottom) [agent] := by
  intro bottoms
  unfold setOverlayBottomLayer Free
  by_cases h : bottoms.lookup agent = none
  · simp only [h, if_true, Option.some.injEq]
    refine ⟨by simp [h], ?_⟩
    rintro bottoms' rfl a
    rw [StdMap.lookup_set, List.mem_singleton]
    by_cases ha : a = agent
    · simp [ha]
    · simp [ha]
  · simp [h]

/-- **Overlay planning gives each agent one bottom layer or fails**, by induction on the
depth. -/
theorem planOverlay_takesOnce (depth : Nat) : ∀ me bottom : Link,
    G.visibleRank (G.childAgent me) < depth →
      TakesOnce Free (fun bottoms => G.planOverlay r depth bottoms me bottom)
        (G.overlaid r depth me bottom) := by
  induction depth with
  | zero =>
      intro me bottom hlt
      exact absurd hlt (Nat.not_lt_zero _)
  | succ depth ih =>
      intro me bottom hlt
      unfold planOverlay overlaid
      split
      next _ => exact TakesOnce.nil
      next _ =>
        split
        next _ => exact TakesOnce.nil
        next _ =>
          have hbelow := TakesOnce.foldlM (f := fun bottoms (pair : Link × Link) =>
              G.planOverlay r depth bottoms pair.1 pair.2)
            (G.overlayPairs (G.childAgent me) bottom) fun pair hpair =>
              ih pair.1 pair.2 (lt_of_lt_of_le
                (G.visibleRank_lt .replace _ _ (G.overlay_visible _ _ pair hpair))
                (Nat.lt_succ_iff.mp hlt))
          exact (setOverlayBottomLayer_takesOnce _ bottom).bind hbelow

/-- When overlay planning returns. -/
theorem startPlanOverlays_returns :
    (∃ bottoms, G.startPlanOverlays e r = some bottoms) ↔ (G.allOverlaid e r).Nodup := by
  have h := TakesOnce.foldlM (f := fun bottoms (pair : Link × Link) =>
      G.planOverlay r (G.visibleRank (G.childAgent pair.1) + 1) bottoms pair.1 pair.2)
    (G.overlayStarts e) fun pair _ =>
      planOverlay_takesOnce (r := r) _ pair.1 pair.2 (Nat.lt_succ_self _)
  have hempty := (h .empty).1
  unfold startPlanOverlays allOverlaid
  rw [hempty]
  constructor
  · intro h
    exact h.1
  · intro h
    exact ⟨h, fun a _ => rfl⟩

/-! ## §5. Exactly when it does its job. -/

theorem unionOfSolo_some {α : Type} [DecidableEq α] {s t u : Finset α} :
    unionOfSolo s t = some u ↔ Disjoint s t ∧ u = s ∪ t := by
  unfold unionOfSolo
  rw [ASSERT_bind_eq_some, Finset.card_union_eq_card_add_card]
  constructor
  · rintro ⟨h, hu⟩
    exact ⟨h, (Option.some.inj hu).symm⟩
  · rintro ⟨h, hu⟩
    exact ⟨h, by rw [hu]⟩

/-- The run of the function, part by part. -/
theorem planReplace_some {p : ReplacePlan Agent Link} :
    G.planReplace e r = some p ↔
      Disjoint r.allKeyerPlinks r.andRuleEngineKeyerPlinks ∧
      G.startPlanOverlays e r = some p.agentsToBottomLayer ∧
      (G.myReplaceOnlyPlinksPostorder e).foldlM G.keyReplaceLink
        ⟨r.allKeyerPlinks ∪ r.andRuleEngineKeyerPlinks, r.allAgentsToKeyers⟩
        = some p.toReplaceState ∧
      Disjoint r.andRuleEngineKeyerPlinks e.enclosingPlinks ∧
      p.keyedBeforeReplacePlinks = r.andRuleEngineKeyerPlinks ∪ e.enclosingPlinks := by
  unfold planReplace
  simp only [Option.bind_eq_bind, Option.bind_eq_some_iff, unionOfSolo_some]
  constructor
  · rintro ⟨keyers, ⟨hapart, rfl⟩, bottoms, hbottoms, s, hs, before, ⟨hinside, rfl⟩, hp⟩
    cases hp
    exact ⟨hapart, hbottoms, hs, hinside, rfl⟩
  · rintro ⟨hapart, hbottoms, hs, hinside, hbefore⟩
    refine ⟨_, ⟨hapart, rfl⟩, _, hbottoms, _, hs, _, ⟨hinside, rfl⟩, ?_⟩
    rw [← hbefore]

omit [LinearOrder Agent] in
theorem keyed_union {a : Agent} :
    G.Keyed (r.allKeyerPlinks ∪ r.andRuleEngineKeyerPlinks) a ↔ G.KeyedBefore r a := by
  unfold Keyed KeyedBefore
  simp only [Finset.mem_union]

omit [LinearOrder Agent] in
theorem mem_replaceOnly {l : Link} :
    l ∈ G.myReplaceOnlyPlinksPostorder e ↔ l ∈ G.walkVisible e .replace ∧
      l ∉ e.enclosingPlinks ∧ l ∉ G.walkVisible e .compare := by
  unfold myReplaceOnlyPlinksPostorder
  rw [List.mem_filter, decide_eq_true_iff]

omit [LinearOrder Agent] in
/-- A replace-only link comes as often as the walk completes it. -/
theorem count_replaceOnly {l : Link} (h : l ∈ G.myReplaceOnlyPlinksPostorder e) :
    (G.myReplaceOnlyPlinksPostorder e).count l = (G.walkVisible e .replace).count l := by
  unfold myReplaceOnlyPlinksPostorder
  exact List.count_filter (decide_eq_true (mem_replaceOnly.mp h).2)

/-- Where the first completed link to an agent is replace-only, it is the first of those. -/
theorem firstTo_replaceOnly {a : Agent} {l : Link} (h : G.firstCompleted e a = some l)
    (hl : l ∈ G.myReplaceOnlyPlinksPostorder e) :
    G.firstTo (G.myReplaceOnlyPlinksPostorder e) a = some l := by
  unfold firstCompleted at h
  unfold firstTo myReplaceOnlyPlinksPostorder
  rw [List.find?_filter]
  rw [List.find?_eq_some_iff_append] at h ⊢
  obtain ⟨hla, front, back, hsplit, hfront⟩ := h
  refine ⟨?_, front, back, hsplit, ?_⟩
  · simp only [decide_eq_true_eq] at hla ⊢
    exact ⟨(mem_replaceOnly.mp hl).2, hla⟩
  · intro x hx
    have := hfront x hx
    simp only [Bool.not_eq_true', decide_eq_false_iff_not] at this
    simp [this]

omit [LinearOrder Agent] in
/-- The walk completes a link twice exactly below an agent that two links lead to. -/
theorem two_le_count_walkVisible {l : Link} :
    2 ≤ (G.walkVisible e .replace).count l ↔
      ∃ m m', m ≠ m' ∧ m ∈ G.walkVisible e .replace ∧ m' ∈ G.walkVisible e .replace ∧
        G.childAgent m = G.childAgent m' ∧
        Relation.TransGen (Follows G.childAgent (G.visibleChildren .replace)) m l := by
  have hmem : ∀ m, m ∈ postorder G.childAgent (G.visibleChildren .replace)
      (G.visibleRank (G.childAgent (G.origin e)) + 1) (G.origin e)
      ↔ FollowsAll G.childAgent (G.visibleChildren .replace) (G.origin e) m := fun m =>
    mem_postorder (G.visibleRank_lt .replace) _ _ _ (Nat.lt_succ_self _)
  unfold ScrPattern.walkVisible
  rw [two_le_count_postorder (G.visibleRank_lt .replace) (G.visible_nodup .replace)
    (Nat.lt_succ_self _)]
  simp only [hmem]
  constructor
  · rintro ⟨m, m', k, hne, hm, hm', hk, hk', hchain⟩
    have hparent := (G.parent_visible .replace _ k hk).symm.trans
      (G.parent_visible .replace _ k hk')
    exact ⟨m, m', hne, hm, hm', Option.some.inj hparent,
      Relation.TransGen.head' hk hchain⟩
  · rintro ⟨m, m', hne, hm, hm', hagent, hchain⟩
    obtain ⟨k, hk, hrest⟩ := Relation.TransGen.head'_iff.mp hchain
    have hk' : k ∈ G.visibleChildren .replace (G.childAgent m') := by
      rw [← hagent]
      exact hk
    exact ⟨m, m', k, hne, hm, hm', hk, hk', hrest⟩

/-- **Replace keyer planning, exactly.**  Below an agent that two links of the replace path
lead to, every link is met again after it has become a keyer; the loop asserts then. -/
theorem planReplace_exact : G.ReplaceKeyed e r ↔ G.Plannable e r := by
  constructor
  · rintro ⟨p, hp, hkeyed⟩
    obtain ⟨hapart, hbottoms, hs, hinside, _⟩ := planReplace_some.mp hp
    obtain ⟨hfresh, htwice⟩ := (keyReplaceLinks_returns _ _).mp ⟨_, hs⟩
    obtain ⟨hmem, _, _⟩ := keyReplaceLinks_keys _ _ _ hs
    -- an agent with no keyer before gets one, so its first link is replace-only
    have hreplaceOnly : ∀ a, ¬ G.KeyedBefore r a → ∀ l, G.firstCompleted e a = some l →
        l ∈ G.myReplaceOnlyPlinksPostorder e := by
      intro a ha l hl
      obtain ⟨hin, hla⟩ := ((hkeyed a ha l hl).1 l).mpr rfl
      rcases (hmem l).mp hin with hold | ⟨_, hfirst⟩
      · exact absurd (keyed_union.mp ⟨l, hold, hla⟩) ha
      · exact (firstTo_some hfirst).1
    refine ⟨?_, hreplaceOnly, ?_, hapart, hinside, startPlanOverlays_returns.mp ⟨_, hbottoms⟩⟩
    · -- a link that comes twice is keyed before, or not its agent's first
      intro l hl hnot hfirst m hm m' hm' hne hagent hchain
      have hcount : 2 ≤ (G.myReplaceOnlyPlinksPostorder e).count l := by
        rw [count_replaceOnly hl]
        exact two_le_count_walkVisible.mpr ⟨m, m', hne, hm, hm', hagent, hchain⟩
      rcases htwice l hcount with h | h
      · exact hnot (keyed_union.mp h)
      · exact h (firstTo_replaceOnly hfirst hl)
    · intro l hl
      have h := hfresh l hl
      rw [Finset.mem_union] at h
      exact not_or.mp h
  · -- the other way: the loop passes, and keys the first link of every agent
    rintro ⟨hshared, hreplaceOnly, hfresh, hapart, hinside, honce⟩
    obtain ⟨bottoms, hbottoms⟩ := startPlanOverlays_returns.mpr honce
    have hloop : G.LoopFree (r.allKeyerPlinks ∪ r.andRuleEngineKeyerPlinks)
        (G.myReplaceOnlyPlinksPostorder e) := by
      constructor
      · -- no link was a keyer before
        intro l hl
        rw [Finset.mem_union]
        exact not_or.mpr (hfresh l hl)
      · intro l htwo
        by_cases hk : G.KeyedBefore r (G.childAgent l)
        · exact Or.inl (keyed_union.mpr hk)
        · refine Or.inr ?_
          intro hfirst
          have hl : l ∈ G.myReplaceOnlyPlinksPostorder e := (firstTo_some hfirst).1
          -- the first link of all to the agent is replace-only, so it is this one
          have hcompleted : G.firstCompleted e (G.childAgent l) = some l := by
            cases hc : G.firstCompleted e (G.childAgent l) with
            | none =>
                have hno := List.find?_eq_none.mp hc l (mem_replaceOnly.mp hl).1
                simp at hno
            | some x =>
                have hx := firstTo_replaceOnly hc (hreplaceOnly _ hk x hc)
                rw [hfirst] at hx
                exact hx.symm
          rw [count_replaceOnly hl] at htwo
          obtain ⟨m, m', hne, hm, hm', hagent, hchain⟩ := two_le_count_walkVisible.mp htwo
          exact hshared l hl hk hcompleted m hm m' hm' hne hagent hchain
    obtain ⟨s, hs⟩ := (keyReplaceLinks_returns _ ⟨_, r.allAgentsToKeyers⟩).mpr hloop
    obtain ⟨hmem, _, hnew⟩ := keyReplaceLinks_keys _ _ _ hs
    refine ⟨⟨s, bottoms, _⟩, planReplace_some.mpr ⟨hapart, hbottoms, hs, hinside, rfl⟩, ?_⟩
    intro a ha l hl
    have hfirst := firstTo_replaceOnly hl (hreplaceOnly a ha l hl)
    have hnot : ¬ G.Keyed (r.allKeyerPlinks ∪ r.andRuleEngineKeyerPlinks) a :=
      fun h => ha (keyed_union.mp h)
    refine ⟨?_, hnew a l hnot hfirst⟩
    intro k
    constructor
    · rintro ⟨hk, rfl⟩
      rcases (hmem k).mp hk with hold | ⟨_, hkfirst⟩
      · exact absurd ⟨k, hold, rfl⟩ hnot
      · rw [hfirst] at hkfirst
        exact (Option.some.inj hkfirst).symm
    · rintro rfl
      have hka := (firstTo_some hfirst).2
      exact ⟨(hmem k).mpr (Or.inr ⟨by rw [hka]; exact hnot, by rw [hka]; exact hfirst⟩), hka⟩

end OverlayPattern

/-! ## §6. A shared agent with a child. -/

local instance fiveAgents : NeZero 5 := ⟨by decide⟩

/-- Which agent a link leads to; even links are origins. -/
def sharedChild : Nat → Fin 5
  | 1 => 1
  | 3 => 2
  | 5 => 3
  | 7 => 3
  | 9 => 4
  | _ => 0

/-- Which agent a link hangs from. -/
def sharedParent : Nat → Option (Fin 5)
  | 1 => some 0
  | 3 => some 0
  | 5 => some 2
  | 7 => some 2
  | 9 => some 3
  | _ => none

/-- What can be seen of each agent: the delta `0` shows its through link `1` to compare and
its overlay link `3` to replace. -/
def sharedChildren : Path → Fin 5 → List Nat
  | .compare => ![[1], [], [5, 7], [9], []]
  | .replace => ![[3], [], [5, 7], [9], []]

/-- How far an agent is from the leaves. -/
def sharedRank : Fin 5 → Nat := ![3, 0, 2, 1, 0]

theorem sharedRank_lt (a : Fin 5) (l : Nat) (h : sharedParent l = some a) :
    sharedRank (sharedChild l) < sharedRank a := by
  unfold sharedParent at h
  split at h <;> cases h <;> decide

/-- A delta whose overlay, agent `2`, has the links `5` and `7` to one agent, which has a
child. -/
def sharedPattern : OverlayPattern (Fin 5) Nat Unit Unit Unit where
  childAgent := sharedChild
  patternQuery a := ⟨sharedChildren .compare a, [], []⟩
  isDisjunction _ := false
  symbolicNormalLinkedQuery _ _ := .constant true
  owner l := (sharedParent l).map (·, .normal)
  rank := sharedRank
  owner_normal := by decide
  owner_abnormal := by simp
  owner_multiplicity := by simp
  rank_lt := by
    intro a l kind h
    rw [Option.map_eq_some_iff] at h
    obtain ⟨b, hb, heq⟩ := h
    cases heq
    exact sharedRank_lt a l hb
  required := by
    intro a keyer v hv
    exact absurd hv (Finset.notMem_empty v)
  visibleChildren := sharedChildren
  layoutChildren := sharedChildren .replace
  isEmbedded _ := false
  originPlink engine := 2 * Encodable.encode engine
  parent := sharedParent
  visibleRank := sharedRank
  parent_visible := by
    intro path
    cases path <;> decide
  parent_origin := by
    intro engine
    unfold sharedParent
    split <;> first | omega | rfl
  origin_injective := by
    intro engine engine' h
    exact Encodable.encode_injective (Nat.eq_of_mul_eq_mul_left (by decide) h)
  visibleRank_lt := by
    intro path
    cases path <;> decide
  query_visible := by
    intro a l hl
    rw [List.append_nil] at hl
    exact hl
  layout_visible := by
    intro a l hl
    exact hl
  startsOverlay := ![some (3, 1), none, none, none, none]
  overlays a b := a = 2 ∧ b = 1
  overlayPairs _ _ := []
  visible_nodup := by
    intro path
    cases path <;> decide
  overlay_visible := by simp

/-- What the and-rule engine keys of it: the delta and what is under its through link. -/
def sharedInputs : ReplaceInputs (Fin 5) Nat :=
  ⟨∅, {0, 1}, {0, 1}, (StdMap.empty.set 0 0).set 1 1⟩

/-- **The assertion fires**: `9` is completed below `5`, becomes the keyer of the leaf, and
is completed again below `7`. -/
theorem sharedPattern_asserts :
    sharedPattern.determineKeyers (sharedPattern.depth 0) ∅ ∅ 0
        = some sharedInputs.andRuleEngineKeyerPlinks ∧
      sharedPattern.myReplaceOnlyPlinksPostorder .root = [9, 5, 9, 7, 3] ∧
      sharedPattern.planReplace .root sharedInputs = none ∧
      ¬ sharedPattern.ReplaceKeyed .root sharedInputs := by
  have hnone : sharedPattern.planReplace .root sharedInputs = none := by decide +kernel
  refine ⟨by decide +kernel, by decide +kernel, hnone, ?_⟩
  rintro ⟨p, hp, _⟩
  rw [hnone] at hp
  cases hp

end Inferno.Engine
