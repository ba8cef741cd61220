/-
  Inferno.Engine.KeyedOnce
  ────────────────────────
  Every agent of an and-rule engine is keyed exactly once: what the four recursions of
  `AndRuleEngine::Plan` agree on, and for which surroundings.

    • `Spans`, `CoversBelow` — what a region and a call of `DetermineKeyers` leave covered,
    • `DeterminedKeyers.keyed_or_surrounding` — every agent met within the surroundings is
                          keyed or surrounding,
    • `residualVisits`  — the residuals in the order `DetermineResiduals` comes to them,
    • `KeyedOnce`       — one keyer for each normal agent, residuals for its other links,
                          and no assertion fires,
    • `WellSurrounded`  — the surroundings for which that is so,
    • `keyedOnce_iff`, surroundings that an agent is lost below, and a shared agent that
      is keyed once.
-/
import Inferno.Engine.PlanCoverage
import Mathlib

namespace Inferno.Engine

open Inferno.Common
open Inferno.Lib

namespace PatternGraph

variable {Agent Link X A M : Type} [LinearOrder Agent] [LinearOrder Link]
  (G : PatternGraph Agent Link X A M)

/-! ## §1. What is keyed. -/

/-- Some keyer leads to the agent. -/
def IsKeyed (keyers : Finset Link) (a : Agent) : Prop := ∃ k ∈ keyers, G.childAgent k = a

/-- What `DetermineKeyersModuloDisjunction` covers: a new senior agent is keyed, and is a
disjunction or has only senior agents under its links. -/
structure Spans (s s' : KeyerState Agent Link) : Prop where
  keyers : s.keyers ⊆ s'.keyers
  senior : s.seniorAgents ⊆ s'.seniorAgents
  disjunction : s.disjunctionAgents ⊆ s'.disjunctionAgents
  agents : ∀ k ∈ s'.keyers, k ∉ s.keyers →
    G.childAgent k ∈ s'.seniorAgents ∧ G.childAgent k ∉ s.seniorAgents
  keyed : ∀ a ∈ s'.seniorAgents, a ∉ s.seniorAgents → G.IsKeyed s'.keyers a
  expanded : ∀ a ∈ s'.seniorAgents, a ∉ s.seniorAgents →
    a ∈ s'.disjunctionAgents ∨ ∀ l ∈ G.normalLinks a, G.childAgent l ∈ s'.seniorAgents

/-- What a call of `DetermineKeyers` covers: under the links of a newly keyed agent all
agents are senior or keyed. -/
structure CoversBelow (senior : Finset Agent) (keyers keyers' : Finset Link) : Prop where
  mono : keyers ⊆ keyers'
  below : ∀ k ∈ keyers', k ∉ keyers → ∀ l ∈ G.normalLinks (G.childAgent k),
    G.childAgent l ∈ senior ∨ G.IsKeyed keyers' (G.childAgent l)

variable {G}

omit [LinearOrder Agent] in
theorem IsKeyed.mono {keyers keyers' : Finset Link} {a : Agent} (h : G.IsKeyed keyers a)
    (hsub : keyers ⊆ keyers') : G.IsKeyed keyers' a := by
  obtain ⟨k, hk, hka⟩ := h
  exact ⟨k, hsub hk, hka⟩

omit [LinearOrder Agent] in
theorem Spans.refl (s : KeyerState Agent Link) : G.Spans s s where
  keyers := Finset.Subset.refl _
  senior := Finset.Subset.refl _
  disjunction := Finset.Subset.refl _
  agents _ hk hout := absurd hk hout
  keyed _ ha hout := absurd ha hout
  expanded _ ha hout := absurd ha hout

theorem Spans.trans {s₁ s₂ s₃ : KeyerState Agent Link} (h : G.Spans s₁ s₂)
    (h' : G.Spans s₂ s₃) : G.Spans s₁ s₃ := by
  refine ⟨h.keyers.trans h'.keyers, h.senior.trans h'.senior,
    h.disjunction.trans h'.disjunction, ?_, ?_, ?_⟩
  · intro k hk hout
    by_cases hmid : k ∈ s₂.keyers
    · obtain ⟨hin, hnot⟩ := h.agents k hmid hout
      exact ⟨h'.senior hin, hnot⟩
    · obtain ⟨hin, hnot⟩ := h'.agents k hk hmid
      exact ⟨hin, fun hmem => hnot (h.senior hmem)⟩
  · intro a ha hout
    by_cases hmid : a ∈ s₂.seniorAgents
    · exact (h.keyed a hmid hout).mono h'.keyers
    · exact h'.keyed a ha hmid
  · intro a ha hout
    by_cases hmid : a ∈ s₂.seniorAgents
    · rcases h.expanded a hmid hout with hdis | hall
      · exact Or.inl (h'.disjunction hdis)
      · exact Or.inr fun l hl => h'.senior (hall l hl)
    · exact h'.expanded a ha hmid

/-- **The region above the disjunctions**, by induction on the depth. -/
theorem determineKeyersModuloDisjunction_spans (depth : Nat) :
    ∀ (s : KeyerState Agent Link) (plink : Link) (s' : KeyerState Agent Link),
      G.determineKeyersModuloDisjunction depth s plink = some s' →
        G.Spans s s' ∧ G.childAgent plink ∈ s'.seniorAgents := by
  induction depth with
  | zero => intro s plink s' h; cases h
  | succ depth ih =>
      intro s plink s' h
      rw [determineKeyersModuloDisjunction] at h
      split at h
      next hmem =>
        cases h
        exact ⟨Spans.refl s, hmem⟩
      next hsenior =>
        rw [ASSERT_bind_eq_some] at h
        obtain ⟨_, h⟩ := h
        -- the state once the agent itself is keyed
        have hself : ∀ k ∈ insert plink s.keyers, k ∉ s.keyers →
            G.childAgent k ∈ insert (G.childAgent plink) s.seniorAgents ∧
              G.childAgent k ∉ s.seniorAgents := by
          intro k hk hout
          rw [(Finset.mem_insert.mp hk).resolve_right hout]
          exact ⟨Finset.mem_insert_self _ _, hsenior⟩
        -- below a disjunction nothing is keyed; else every link is descended
        split at h
        next hdisjunction =>
          cases h
          refine ⟨⟨Finset.subset_insert _ _, Finset.subset_insert _ _, Finset.subset_insert _ _,
            hself, ?_, ?_⟩, Finset.mem_insert_self _ _⟩
          · intro a ha hout
            have hap := (Finset.mem_insert.mp ha).resolve_right hout
            exact ⟨plink, Finset.mem_insert_self _ _, hap.symm⟩
          · intro a ha hout
            have hap := (Finset.mem_insert.mp ha).resolve_right hout
            rw [hap]
            exact Or.inl (Finset.mem_insert_self _ _)
        next hdisjunction =>
          obtain ⟨hspans, hturns⟩ := foldlM_grows G.Spans Spans.refl (fun _ _ _ => Spans.trans)
            _ (fun l _ t t' ht => (ih t l t' ht).1) h
          have hmem : G.childAgent plink ∈ s'.seniorAgents :=
            hspans.senior (Finset.mem_insert_self _ _)
          refine ⟨⟨(Finset.subset_insert _ _).trans hspans.keyers,
            (Finset.subset_insert _ _).trans hspans.senior, hspans.disjunction, ?_, ?_, ?_⟩,
            hmem⟩
          · -- a keyer below: new to the agents before, and so to those before `plink`
            intro k hk hout
            by_cases hmid : k ∈ insert plink s.keyers
            · obtain ⟨hin, hnot⟩ := hself k hmid hout
              exact ⟨hspans.senior hin, hnot⟩
            · obtain ⟨hin, hnot⟩ := hspans.agents k hk hmid
              exact ⟨hin, fun h => hnot (Finset.mem_insert_of_mem h)⟩
          · intro a ha hout
            by_cases hmid : a ∈ insert (G.childAgent plink) s.seniorAgents
            · have hap := (Finset.mem_insert.mp hmid).resolve_right hout
              exact ⟨plink, hspans.keyers (Finset.mem_insert_self _ _), hap.symm⟩
            · exact hspans.keyed a ha hmid
          · -- an agent keyed here is expanded: each of its links is descended
            intro a ha hout
            by_cases hmid : a ∈ insert (G.childAgent plink) s.seniorAgents
            · have hap := (Finset.mem_insert.mp hmid).resolve_right hout
              refine Or.inr ?_
              intro l hl
              rw [hap] at hl
              obtain ⟨t, t', _, ht, hle⟩ := hturns l hl
              exact hle.senior (ih t l t' ht).2
            · exact hspans.expanded a ha hmid

omit [LinearOrder Agent] in
theorem CoversBelow.refl (senior : Finset Agent) (keyers : Finset Link) :
    G.CoversBelow senior keyers keyers where
  mono := Finset.Subset.refl _
  below _ hk hout := absurd hk hout

omit [LinearOrder Agent] in
theorem CoversBelow.trans {senior : Finset Agent} {keyers₁ keyers₂ keyers₃ : Finset Link}
    (h : G.CoversBelow senior keyers₁ keyers₂) (h' : G.CoversBelow senior keyers₂ keyers₃) :
    G.CoversBelow senior keyers₁ keyers₃ := by
  refine ⟨h.mono.trans h'.mono, ?_⟩
  intro k hk hout l hl
  by_cases hmid : k ∈ keyers₂
  · rcases h.below k hmid hout l hl with hin | hkeyed
    · exact Or.inl hin
    · exact Or.inr (hkeyed.mono h'.mono)
  · exact h'.below k hk hmid l hl

omit [LinearOrder Agent] in
/-- A loop of calls, on a list of links, covers what the calls cover. -/
theorem CoversBelow.foldlM {senior : Finset Agent}
    {f : Finset Link → Link → Option (Finset Link)}
    (hf : ∀ k l k', f k l = some k' → G.CoversBelow senior k k' ∧
      (G.childAgent l ∈ senior ∨ G.IsKeyed k' (G.childAgent l)))
    {links : List Link} {k k' : Finset Link} (h : links.foldlM f k = some k') :
    G.CoversBelow senior k k' ∧
      ∀ l ∈ links, G.childAgent l ∈ senior ∨ G.IsKeyed k' (G.childAgent l) := by
  obtain ⟨hcovers, hturns⟩ := foldlM_grows (G.CoversBelow senior) (CoversBelow.refl senior)
    (fun _ _ _ => CoversBelow.trans) links (fun l _ t t' ht => (hf t l t' ht).1) h
  refine ⟨hcovers, ?_⟩
  intro l hl
  obtain ⟨t, t', _, ht, hle⟩ := hturns l hl
  exact (hf t l t' ht).2.imp_right fun hkeyed => hkeyed.mono hle.mono

/-- **What `DetermineKeyers` covers**, by induction on the depth.  In the regions under the
disjunctions the senior agents are those of the region above, which are senior or keyed. -/
theorem determineKeyers_covers (depth : Nat) :
    ∀ (senior : Finset Agent) (keyers : Finset Link) (plink : Link) (keyers' : Finset Link),
      G.determineKeyers depth senior keyers plink = some keyers' →
        G.CoversBelow senior keyers keyers' ∧
          (G.childAgent plink ∈ senior ∨ G.IsKeyed keyers' (G.childAgent plink)) := by
  induction depth with
  | zero => intro senior keyers plink keyers' h; cases h
  | succ depth ih =>
      intro senior keyers plink keyers' h
      rw [determineKeyers] at h
      obtain ⟨s, hs, h⟩ := Option.bind_eq_some_iff.mp h
      obtain ⟨hspans, hplink⟩ := determineKeyersModuloDisjunction_spans _ _ _ _ hs
      have hinner : ∀ k agent k', (G.normalLinks agent).foldlM
          (G.determineKeyers depth s.seniorAgents) k = some k' →
          G.CoversBelow s.seniorAgents k k' ∧ ∀ l ∈ G.normalLinks agent,
            G.childAgent l ∈ s.seniorAgents ∨ G.IsKeyed k' (G.childAgent l) :=
        fun k agent k' hk => CoversBelow.foldlM (fun t l t' ht => ih _ t l t' ht) hk
      obtain ⟨hcovers, hturns⟩ := foldlM_grows (G.CoversBelow s.seniorAgents)
        (CoversBelow.refl _) (fun _ _ _ => CoversBelow.trans) _
        (fun agent _ k k' hk => (hinner k agent k' hk).1) h
      -- what is senior to the junior regions is senior here or keyed
      have hsenior : ∀ a ∈ s.seniorAgents, a ∈ senior ∨ G.IsKeyed keyers' a := by
        intro a ha
        by_cases hold : a ∈ senior
        · exact Or.inl hold
        · exact Or.inr ((hspans.keyed a ha hold).mono hcovers.mono)
      have hjoin : ∀ a, a ∈ s.seniorAgents ∨ G.IsKeyed keyers' a →
          a ∈ senior ∨ G.IsKeyed keyers' a := fun a ha => ha.elim (hsenior a) Or.inr
      refine ⟨⟨hspans.keyers.trans hcovers.mono, ?_⟩, hsenior _ hplink⟩
      intro k hk hout l hl
      refine hjoin _ ?_
      by_cases hmid : k ∈ s.keyers
      · obtain ⟨hin, hnot⟩ := hspans.agents k hmid hout
        rcases hspans.expanded _ hin hnot with hdis | hall
        · obtain ⟨t, t', _, ht, hle⟩ := hturns _ (mem_inOrder.mpr hdis)
          exact ((hinner t _ t' ht).2 l hl).imp_right fun hkeyed => hkeyed.mono hle.mono
        · exact Or.inl (hall l hl)
      · exact hcovers.below k hk hmid l hl

namespace DeterminedKeyers

variable {S : Surroundings Agent Link} {base : Link} {keyers : Finset Link}
  (h : G.DeterminedKeyers S base keyers)
include h

/-- **Every agent met within the surroundings is keyed, or surrounding.** -/
theorem keyed_or_surrounding {l : Link} (hl : G.FollowsWithin S base l) :
    G.childAgent l ∈ G.surroundingAgents S ∨ G.IsKeyed keyers (G.childAgent l) := by
  obtain ⟨depth, hdepth⟩ := h
  obtain ⟨hcovers, hbase⟩ := determineKeyers_covers depth _ _ _ _ hdepth
  induction hl with
  | refl => exact hbase
  | tail _ hstep ih =>
      obtain ⟨hout, hlink⟩ := mem_linksWithin.mp hstep
      obtain ⟨k, hk, hka⟩ := ih.resolve_left hout
      rw [← hka] at hlink
      exact hcovers.below k hk (Finset.notMem_empty k) _ hlink

end DeterminedKeyers

/-! ## §2. What is a residual. -/

variable (G)

/-- The residuals as `DetermineResiduals` comes to them, with repetitions. -/
def residualVisits (keyers : Finset Link) : Nat → Agent → List Link
  | 0, _ => []
  | depth + 1, agent =>
      (G.normalLinks agent).flatMap fun link =>
        if G.isResidual keyers link then [link]
        else residualVisits keyers depth (G.childAgent link)

/-- The links it goes on with after a link. -/
def nextLinks (keyers : Finset Link) (l : Link) : List Link :=
  if G.isResidual keyers l then [] else G.normalLinks (G.childAgent l)

/-- The rank of the agent that a link leads to. -/
def linkRank (l : Link) : Nat := G.rank (G.childAgent l)

variable {G}

/-- It returns exactly where it comes to no residual twice. -/
theorem determineResiduals_takesOnce (keyers : Finset Link) (depth : Nat) :
    ∀ agent, G.rank agent < depth →
      TakesOnce (fun (residuals : Finset Link) link => link ∉ residuals)
        (fun residuals => G.determineResiduals keyers depth residuals agent)
        (G.residualVisits keyers depth agent) := by
  induction depth with
  | zero =>
      intro agent hlt
      exact absurd hlt (Nat.not_lt_zero _)
  | succ depth ih =>
      intro agent hlt
      unfold determineResiduals residualVisits
      refine TakesOnce.foldlM _ ?_
      intro link hlink
      by_cases hresidual : G.isResidual keyers link = true
      · simp only [hresidual, if_true]
        intro residuals
        unfold ASSERT
        by_cases hin : link ∈ residuals
        · simp [hin]
        · simp only [hin, not_false_iff, if_true, Option.bind_eq_bind, Option.bind_some,
            Option.some.injEq]
          refine ⟨by simp [hin], ?_⟩
          rintro residuals' rfl a
          rw [Finset.mem_insert, List.mem_singleton, not_or, and_comm]
      · simp only [hresidual, Bool.false_eq_true, if_false]
        exact ih _ (lt_of_lt_of_le (G.rank_normal agent link hlink) (Nat.lt_succ_iff.mp hlt))

/-- The visits are the residuals among the links of the unfolded walk. -/
theorem residualVisits_eq {keyers : Finset Link} (depth : Nat) : ∀ agent,
    G.residualVisits keyers depth agent
      = ((G.normalLinks agent).flatMap (postorder id (G.nextLinks keyers) depth)).filter
          (G.isResidual keyers) := by
  induction depth with
  | zero =>
      intro agent
      simp [residualVisits, postorder]
  | succ depth ih =>
      intro agent
      unfold residualVisits
      rw [List.filter_flatMap]
      refine List.flatMap_congr ?_
      intro link _
      unfold postorder nextLinks
      by_cases hresidual : G.isResidual keyers link = true
      · simp [hresidual]
      · rw [if_neg hresidual, ih]
        simp [hresidual]
        rfl

theorem rank_nextLinks {keyers : Finset Link} (l : Link) :
    ∀ m ∈ G.nextLinks keyers l, G.linkRank (id m) < G.linkRank l := by
  intro m hm
  unfold nextLinks at hm
  split at hm
  next _ => cases hm
  next _ => exact G.rank_normal _ m hm

theorem mem_nextLinks {keyers : Finset Link} {l m : Link} :
    m ∈ G.nextLinks keyers l
      ↔ G.isResidual keyers l = false ∧ m ∈ G.normalLinks (G.childAgent l) := by
  unfold nextLinks
  by_cases h : G.isResidual keyers l = true
  · simp [h]
  · simp [h]

namespace DeterminedKeyers

variable {S : Surroundings Agent Link} {base : Link} {keyers : Finset Link}
  (h : G.DeterminedKeyers S base keyers)
include h

/-- A link to a keyed agent is a residual unless it is the keyer. -/
theorem isResidual_iff {l : Link} :
    G.isResidual keyers l = true ↔ ∃ k ∈ keyers, G.childAgent k = G.childAgent l ∧ l ≠ k := by
  unfold isResidual
  constructor
  · intro hany
    obtain ⟨k, hk, hne⟩ := (Option.any_eq_true ..).mp hany
    obtain ⟨hmem, hka⟩ := G.mem_keyers_of_keyerOf hk
    exact ⟨k, hmem, hka, fun heq => by simp [heq] at hne⟩
  · rintro ⟨k, hk, hka, hne⟩
    rw [← hka, G.keyerOf_childAgent h.injOn hk]
    simpa using fun heq => hne heq.symm

theorem isResidual_keyer {k : Link} (hk : k ∈ keyers) : G.isResidual keyers k = false := by
  rw [Bool.eq_false_iff]
  intro hres
  obtain ⟨k', hk', hagent, hne⟩ := h.isResidual_iff.mp hres
  exact hne (h.injOn hk hk' hagent.symm)

theorem isResidual_surrounding {l : Link} (hl : G.childAgent l ∈ G.surroundingAgents S) :
    G.isResidual keyers l = false := by
  rw [Bool.eq_false_iff]
  intro hres
  obtain ⟨k, hk, hagent, _⟩ := h.isResidual_iff.mp hres
  exact h.notMem_surrounding hk (by rw [hagent]; exact hl)

theorem isResidual_base : G.isResidual keyers base = false := by
  rw [Bool.eq_false_iff]
  intro hres
  obtain ⟨k, hk, hagent, hne⟩ := h.isResidual_iff.mp hres
  exact hne (h.injOn (h.base_mem hk) hk hagent.symm)

/-- A keyer is met along keyers. -/
theorem keyer_met {k : Link} (hk : k ∈ keyers) :
    FollowsAll id (G.nextLinks keyers) base k := by
  obtain ⟨s, hs, hkeyed, hchain⟩ := h.keyedFrom hk
  rw [List.mem_singleton] at hs
  rw [hs] at hkeyed hchain
  have hboth : k ∈ keyers ∧ FollowsAll id (G.nextLinks keyers) base k := by
    clear hk
    induction hchain with
    | refl => exact ⟨hkeyed, .refl⟩
    | @tail a b _ hstep ih =>
        refine ⟨hstep.2, ih.2.tail ?_⟩
        exact mem_nextLinks.mpr ⟨h.isResidual_keyer ih.1, hstep.1⟩
  exact hboth.2

/-- **What the walk meets is what follows by normal links**: where it stops at a residual,
it goes on at the keyer. -/
theorem met_iff {l : Link} :
    FollowsAll id (G.nextLinks keyers) base l ↔ G.FollowsNormal base l := by
  constructor
  · intro hl
    refine Relation.ReflTransGen.mono ?_ _ _ hl
    intro a b hab
    exact (mem_nextLinks.mp hab).2
  · intro hl
    induction hl with
    | refl => exact .refl
    | @tail a b _ hstep ih =>
        by_cases hres : G.isResidual keyers a = true
        · obtain ⟨k, hk, hagent, _⟩ := h.isResidual_iff.mp hres
          refine (h.keyer_met hk).tail (mem_nextLinks.mpr ⟨h.isResidual_keyer hk, ?_⟩)
          show b ∈ G.normalLinks (G.childAgent k)
          rw [hagent]
          exact hstep
        · exact ih.tail (mem_nextLinks.mpr ⟨by simpa using hres, hstep⟩)

end DeterminedKeyers

/-! ## §3. Which surroundings. -/

variable (G)

/-- The normal links of a surrounding agent. -/
def linksAmong (S : Surroundings Agent Link) (a : Agent) : List Link :=
  if a ∈ G.surroundingAgents S then G.normalLinks a else []

/-- A normal agent that is not surrounding is met without passing a surrounding one; and
below a surrounding agent that two normal links lead to, down to the next agent that is
not surrounding, there is none. -/
structure WellSurrounded (S : Surroundings Agent Link) (base : Link) : Prop where
  covered : ∀ l, G.FollowsNormal base l → G.childAgent l ∉ G.surroundingAgents S →
    ∃ m, G.FollowsWithin S base m ∧ G.childAgent m = G.childAgent l
  once : ∀ g g', G.FollowsNormal base g → G.FollowsNormal base g' → g ≠ g' →
    G.childAgent g = G.childAgent g' →
    ∀ f, Relation.TransGen (Follows G.childAgent (G.linksAmong S)) g f →
      G.childAgent f ∈ G.surroundingAgents S

/-- **Every agent is keyed exactly once**: the residuals are found, the checks pass, each
normal agent that is not surrounding has one keyer, and its other normal links are its
residuals. -/
def KeyedOnce (S : Surroundings Agent Link) (base : Link) (keyers : Finset Link) : Prop :=
  ∃ residuals, G.determineResiduals keyers (G.depth base) ∅ (G.childAgent base)
      = some residuals ∧
    G.checkPlan ⟨base, S, keyers, residuals⟩ = some () ∧
    (∀ a ∈ G.myNormalAgents S base, ∃! k, k ∈ keyers ∧ G.childAgent k = a) ∧
    (∀ a ∈ G.myNormalAgents S base, ∀ k ∈ keyers, G.childAgent k = a →
      ∀ l, (l ∈ residuals ∧ G.childAgent l = a)
        ↔ (l ∈ G.myNormalLinks S base ∧ G.childAgent l = a ∧ l ≠ k)) ∧
    Disjoint keyers residuals ∧ keyers ∪ residuals = G.myNormalLinks S base

variable {G}

theorem mem_linksAmong {S : Surroundings Agent Link} {a : Agent} {l : Link} :
    l ∈ G.linksAmong S a ↔ a ∈ G.surroundingAgents S ∧ l ∈ G.normalLinks a := by
  unfold linksAmong
  by_cases h : a ∈ G.surroundingAgents S
  · simp [h]
  · simp [h]

/-- Surroundings that everything below a surrounding agent belongs to are such. -/
theorem wellSurrounded_of_surroundedBelow {S : Surroundings Agent Link} {base : Link}
    (h : G.SurroundedBelow S base) : G.WellSurrounded S base where
  covered l hl hout := ⟨l, h.follows hl hout, rfl⟩
  once g g' hg _ _ _ f hf := by
    have hboth : G.FollowsNormal base f ∧ G.childAgent f ∈ G.surroundingAgents S := by
      induction hf with
      | single hstep =>
          obtain ⟨hin, hlink⟩ := mem_linksAmong.mp hstep
          exact ⟨hg.tail hlink, h g hg hin _ hlink⟩
      | tail _ hstep ih =>
          obtain ⟨hin, hlink⟩ := mem_linksAmong.mp hstep
          exact ⟨ih.1.tail hlink, h _ ih.1 hin _ hlink⟩
    exact hboth.2

namespace DeterminedKeyers

variable {S : Surroundings Agent Link} {base : Link} {keyers : Finset Link}
  (h : G.DeterminedKeyers S base keyers)
include h

/-- Under such surroundings a normal agent that is not surrounding is keyed. -/
theorem keyed_of_covered (hcovered : ∀ l, G.FollowsNormal base l →
      G.childAgent l ∉ G.surroundingAgents S →
      ∃ m, G.FollowsWithin S base m ∧ G.childAgent m = G.childAgent l)
    {l : Link} (hl : G.FollowsNormal base l) (hout : G.childAgent l ∉ G.surroundingAgents S) :
    G.IsKeyed keyers (G.childAgent l) := by
  obtain ⟨m, hm, hagent⟩ := hcovered l hl hout
  rw [← hagent] at hout ⊢
  exact (h.keyed_or_surrounding hm).resolve_left hout

/-- A link that hangs from a surrounding agent is no keyer. -/
theorem notMem_of_surrounding_owner {a : Agent} (ha : a ∈ G.surroundingAgents S)
    (hbase : base ∉ G.normalLinks a) {l : Link} (hl : l ∈ G.normalLinks a) : l ∉ keyers := by
  intro hmem
  rcases h.keyer_cases hmem with rfl | ⟨m, hm, hlm⟩
  · exact hbase hl
  · rw [G.normalLinks_unique hl hlm] at ha
    exact h.notMem_surrounding hm ha

/-- **A residual is come to twice exactly below a surrounding agent that two links lead
to.** -/
theorem twice_iff (hnodup : ∀ a, (G.normalLinks a).Nodup)
    (hcovered : ∀ l, G.FollowsNormal base l → G.childAgent l ∉ G.surroundingAgents S →
      ∃ m, G.FollowsWithin S base m ∧ G.childAgent m = G.childAgent l) :
    (∃ f, G.isResidual keyers f = true ∧
        2 ≤ (postorder id (G.nextLinks keyers) (G.depth base + 1) base).count f)
      ↔ ∃ g g' f, G.FollowsNormal base g ∧ G.FollowsNormal base g' ∧ g ≠ g' ∧
        G.childAgent g = G.childAgent g' ∧
        Relation.TransGen (Follows G.childAgent (G.linksAmong S)) g f ∧
        G.childAgent f ∉ G.surroundingAgents S := by
  have hnext : ∀ l, (G.nextLinks keyers l).Nodup := by
    intro l
    unfold nextLinks
    split
    next _ => exact List.nodup_nil
    next _ => exact hnodup _
  -- enough depth for the walk, so the count of a link is the number of ways to it
  have hdepth : G.linkRank (id base) < G.depth base + 1 :=
    Nat.lt_succ_of_lt (G.rank_lt_depth base)
  have hcount := fun f => two_le_count_postorder rank_nextLinks hnext hdepth f
  constructor
  · rintro ⟨f, hres, htwo⟩
    obtain ⟨g, g', k, hne, hg, hg', hk, hk', hchain⟩ := (hcount f).mp htwo
    have hkg : k ∈ G.nextLinks keyers g := hk
    have hkg' : k ∈ G.nextLinks keyers g' := hk'
    obtain ⟨hgres, hkg⟩ := mem_nextLinks.mp hkg
    obtain ⟨hgres', hkg'⟩ := mem_nextLinks.mp hkg'
    have hgn := h.met_iff.mp hg
    have hgn' := h.met_iff.mp hg'
    have hagent : G.childAgent g = G.childAgent g' := G.normalLinks_unique hkg hkg'
    have hin : G.childAgent g ∈ G.surroundingAgents S := by
      by_contra hout
      -- both would be the keyer of the one agent
      obtain ⟨x, hx, hxg⟩ := h.keyed_of_covered hcovered hgn hout
      have hgx : g = x := by
        by_contra hgx
        rw [h.isResidual_iff.mpr ⟨x, hx, hxg, hgx⟩] at hgres
        cases hgres
      have hgx' : g' = x := by
        by_contra hgx
        rw [h.isResidual_iff.mpr ⟨x, hx, hxg.trans hagent, hgx⟩] at hgres'
        cases hgres'
      exact hne (hgx.trans hgx'.symm)
    -- from a surrounding agent the walk goes on among surrounding ones
    have hamong : ∀ x, FollowsAll id (G.nextLinks keyers) k x →
        Relation.TransGen (Follows G.childAgent (G.linksAmong S)) g x ∧
          G.FollowsNormal base x ∧
          ∃ a ∈ G.surroundingAgents S, x ∈ G.normalLinks a ∧ base ∉ G.normalLinks a := by
      have hbase : ∀ a, (∃ y, G.FollowsNormal base y ∧ G.childAgent y = a) →
          base ∉ G.normalLinks a := by
        rintro a ⟨y, hy, rfl⟩ hmem
        have hle := rank_followsAll G.rank_normal hy
        have hlt := G.rank_normal _ base hmem
        omega
      intro x hx
      induction hx with
      | refl =>
          exact ⟨.single (mem_linksAmong.mpr ⟨hin, hkg⟩), hgn.tail hkg,
            _, hin, hkg, hbase _ ⟨g, hgn, rfl⟩⟩
      | @tail x y _ hstep ih =>
          obtain ⟨hto, hxn, a, ha, hxa, hbasea⟩ := ih
          obtain ⟨hxres, hyx⟩ := mem_nextLinks.mp hstep
          have hxin : G.childAgent x ∈ G.surroundingAgents S := by
            by_contra hout
            obtain ⟨z, hz, hzx⟩ := h.keyed_of_covered hcovered hxn hout
            have hxz : x ≠ z := by
              rintro rfl
              exact h.notMem_of_surrounding_owner ha hbasea hxa hz
            have hres := h.isResidual_iff.mpr ⟨z, hz, hzx, hxz⟩
            have hxres' : G.isResidual keyers x = false := hxres
            rw [hres] at hxres'
            cases hxres'
          exact ⟨hto.tail (mem_linksAmong.mpr ⟨hxin, hyx⟩), hxn.tail hyx,
            _, hxin, hyx, hbase _ ⟨x, hxn, rfl⟩⟩
    refine ⟨g, g', f, hgn, hgn', hne, hagent, (hamong f hchain).1, ?_⟩
    obtain ⟨x, hx, hxf, _⟩ := h.isResidual_iff.mp hres
    rw [← hxf]
    exact h.notMem_surrounding hx
  · -- the other way: the walk below the shared agent is made twice
    rintro ⟨g, g', f, hg, hg', hne, hagent, hchain, hout⟩
    obtain ⟨k, hk, hrest⟩ := Relation.TransGen.head'_iff.mp hchain
    obtain ⟨hin, hkg⟩ := mem_linksAmong.mp hk
    have hmono : FollowsAll id (G.nextLinks keyers) k f := by
      refine Relation.ReflTransGen.mono ?_ _ _ hrest
      intro x y hxy
      obtain ⟨hxin, hyx⟩ := mem_linksAmong.mp hxy
      exact mem_nextLinks.mpr ⟨h.isResidual_surrounding hxin, hyx⟩
    -- the last link hangs from a surrounding agent, so it is not the keyer
    have hlast : ∃ x, G.FollowsNormal base x ∧ G.childAgent x ∈ G.surroundingAgents S ∧
        f ∈ G.normalLinks (G.childAgent x) := by
      obtain ⟨x, hx, hstep⟩ := Relation.TransGen.tail'_iff.mp hchain
      obtain ⟨hxin, hfx⟩ := mem_linksAmong.mp hstep
      refine ⟨x, Relation.ReflTransGen.trans hg (Relation.ReflTransGen.mono ?_ _ _ hx),
        hxin, hfx⟩
      intro y z hyz
      exact (mem_linksAmong.mp hyz).2
    obtain ⟨x, hx, hxin, hfx⟩ := hlast
    have hbase : base ∉ G.normalLinks (G.childAgent x) := by
      intro hmem
      have hle := rank_followsAll G.rank_normal hx
      have hlt := G.rank_normal _ base hmem
      omega
    obtain ⟨z, hz, hzf⟩ := h.keyed_of_covered hcovered (hx.tail hfx) hout
    have hfz : f ≠ z := by
      rintro rfl
      exact h.notMem_of_surrounding_owner hxin hbase hfx hz
    refine ⟨f, h.isResidual_iff.mpr ⟨z, hz, hzf, hfz⟩, (hcount f).mpr
      ⟨g, g', k, hne, h.met_iff.mpr hg, h.met_iff.mpr hg', ?_, ?_, hmono⟩⟩
    · exact mem_nextLinks.mpr ⟨h.isResidual_surrounding hin, hkg⟩
    · -- the second link leads to the same agent, so the walk goes on from there as well
      have hin' : G.childAgent g' ∈ G.surroundingAgents S := by rw [← hagent]; exact hin
      refine mem_nextLinks.mpr ⟨h.isResidual_surrounding hin', ?_⟩
      show k ∈ G.normalLinks (G.childAgent g')
      rw [← hagent]
      exact hkg

/-- `DetermineResiduals` returns unless it comes to a residual twice. -/
theorem residuals_return_iff :
    (∃ residuals, G.determineResiduals keyers (G.depth base) ∅ (G.childAgent base)
        = some residuals)
      ↔ ¬ ∃ f, G.isResidual keyers f = true ∧
        2 ≤ (postorder id (G.nextLinks keyers) (G.depth base + 1) base).count f := by
  -- the residuals among the links the walk comes to, in its order
  have hvisits : (postorder id (G.nextLinks keyers) (G.depth base + 1) base).filter
        (G.isResidual keyers)
      = G.residualVisits keyers (G.depth base) (G.childAgent base) := by
    rw [residualVisits_eq]
    unfold postorder
    have hnext : G.nextLinks keyers (id base) = G.normalLinks (G.childAgent base) := by
      unfold nextLinks
      rw [if_neg]
      · rfl
      · show ¬ G.isResidual keyers base = true
        simp [h.isResidual_base]
    rw [List.filter_append, hnext]
    simp [h.isResidual_base]
  have hreturns := (determineResiduals_takesOnce keyers (G.depth base)
    (G.childAgent base) (G.rank_lt_depth base) ∅).1
  rw [hreturns, ← hvisits, List.nodup_iff_count_le_one]
  constructor
  · -- the set takes each of them once, so the walk comes to none twice
    rintro ⟨hle, _⟩ ⟨f, hres, htwo⟩
    have hf := hle f
    rw [List.count_filter hres] at hf
    omega
  · intro hno
    refine ⟨?_, fun _ _ => Finset.notMem_empty _⟩
    intro f
    by_contra hgt
    have hmem : f ∈ (postorder id (G.nextLinks keyers) (G.depth base + 1) base).filter
        (G.isResidual keyers) := List.count_pos_iff.mp (by omega)
    have hres := (List.mem_filter.mp hmem).2
    rw [List.count_filter hres] at hgt
    exact hno ⟨f, hres, by omega⟩

/-- What `DetermineResiduals` finds: the normal links that are residuals. -/
theorem mem_residuals {residuals : Finset Link}
    (hrun : G.determineResiduals keyers (G.depth base) ∅ (G.childAgent base)
      = some residuals) {r : Link} :
    r ∈ residuals ↔ G.isResidual keyers r = true ∧ G.FollowsNormal base r := by
  rw [G.mem_determineResiduals _ _ _ _ hrun r]
  constructor
  · rintro (hmem | ⟨hres, b, hb, hrb⟩)
    · exact absurd hmem (Finset.notMem_empty r)
    · obtain ⟨q, hq, rfl⟩ := followsNormal_of_descends hb
      exact ⟨hres, hq.tail hrb⟩
  · rintro ⟨hres, hr⟩
    refine Or.inr ⟨hres, ?_⟩
    rcases Relation.ReflTransGen.cases_tail (h.met_iff.mpr hr) with hbase | ⟨q, hq, hstep⟩
    · rw [hbase, h.isResidual_base] at hres
      cases hres
    · refine ⟨G.childAgent q, ?_, (mem_nextLinks.mp hstep).2⟩
      have hqres : G.isResidual keyers q = false := (mem_nextLinks.mp hstep).1
      clear hstep hres
      induction hq with
      | refl => exact .refl
      | @tail x y _ hxy ih =>
          obtain ⟨hxres, hyx⟩ := mem_nextLinks.mp hxy
          exact (ih hxres).tail ⟨y, hyx, hqres, rfl⟩

end DeterminedKeyers

/-! ## §4. Exactly once. -/

/-- The checks that never fire: the parents of an agent are found with it. -/
theorem image_myNormalLinks (S : Surroundings Agent Link) (base : Link) :
    (G.myNormalLinks S base).image G.childAgent = G.myNormalAgents S base := by
  ext a
  rw [Finset.mem_image, mem_myNormalAgents]
  constructor
  · rintro ⟨l, hl, rfl⟩
    obtain ⟨hfollows, hout⟩ := mem_myNormalLinks.mp hl
    exact ⟨⟨l, hfollows, rfl⟩, hout⟩
  · rintro ⟨⟨l, hl, rfl⟩, hout⟩
    exact ⟨l, mem_myNormalLinks.mpr ⟨hl, hout⟩, rfl⟩

theorem image_myBoundaryLinks (S : Surroundings Agent Link) (base : Link) :
    (G.myBoundaryLinks S base).image G.childAgent = G.boundaryAgents S base := by
  ext a
  rw [Finset.mem_image, mem_boundaryAgents]
  constructor
  · rintro ⟨l, hl, rfl⟩
    obtain ⟨hfollows, hin⟩ := mem_myBoundaryLinks.mp hl
    exact ⟨⟨l, hfollows, rfl⟩, hin⟩
  · rintro ⟨⟨l, hl, rfl⟩, hin⟩
    exact ⟨l, mem_myBoundaryLinks.mpr ⟨hl, hin⟩, rfl⟩

/-- The checks pass where there are as many keyers as normal agents. -/
theorem checkPlan_pass {k : Keying Agent Link}
    (hcard : k.couplingKeyerLinksAll.card = (G.myNormalAgents k.surroundings k.basePlink).card) :
    G.checkPlan k = some () := by
  unfold checkPlan
  simp only [ASSERT_bind_eq_some, image_myNormalLinks, image_myBoundaryLinks, true_and]
  refine ⟨hcard, ?_⟩
  by_cases hempty : G.myNormalLinks k.surroundings k.basePlink = ∅
  · have hagents : G.myNormalAgents k.surroundings k.basePlink = ∅ := by
      rw [← image_myNormalLinks, hempty, Finset.image_empty]
    have hbase : k.basePlink ∈ G.myBoundaryLinks k.surroundings k.basePlink := by
      refine mem_myBoundaryLinks.mpr ⟨.refl, ?_⟩
      by_contra hout
      have hmem : k.basePlink ∈ G.myNormalLinks k.surroundings k.basePlink :=
        mem_myNormalLinks.mpr ⟨.refl, hout⟩
      rw [hempty] at hmem
      exact Finset.notMem_empty _ hmem
    rw [if_pos hempty, ASSERT_bind_eq_some]
    exact ⟨hagents, ASSERT_pos hbase⟩
  · rw [if_neg hempty]
    refine ASSERT_pos ?_
    rw [← image_myNormalLinks]
    exact Finset.image_nonempty.mpr (Finset.nonempty_of_ne_empty hempty) |>.ne_empty

namespace DeterminedKeyers

variable {S : Surroundings Agent Link} {base : Link} {keyers : Finset Link}
  (h : G.DeterminedKeyers S base keyers)
include h

/-- **Each agent is keyed once** where the residuals return and the keyers cover the normal
agents. -/
theorem keyedOnce (hcovered : ∀ l, G.FollowsNormal base l →
      G.childAgent l ∉ G.surroundingAgents S →
      ∃ m, G.FollowsWithin S base m ∧ G.childAgent m = G.childAgent l)
    {residuals : Finset Link} (hrun : G.determineResiduals keyers (G.depth base) ∅
      (G.childAgent base) = some residuals) : G.KeyedOnce S base keyers := by
  have hkeyed : ∀ l ∈ G.myNormalLinks S base, G.IsKeyed keyers (G.childAgent l) := by
    intro l hl
    obtain ⟨hfollows, hout⟩ := mem_myNormalLinks.mp hl
    exact h.keyed_of_covered hcovered hfollows hout
  -- the agents keyed are the normal ones, with one keyer for each
  have hagents : keyers.image G.childAgent = G.myNormalAgents S base := by
    ext a
    rw [Finset.mem_image]
    constructor
    · rintro ⟨k, hk, rfl⟩
      exact h.mem_myNormalAgents hk
    · intro ha
      obtain ⟨⟨l, hl, rfl⟩, hout⟩ := PatternGraph.mem_myNormalAgents.mp ha
      exact hkeyed l (mem_myNormalLinks.mpr ⟨hl, hout⟩)
  have hcard : keyers.card = (G.myNormalAgents S base).card := by
    rw [← hagents, Finset.card_image_of_injOn h.injOn]
  -- a normal link is a residual exactly if it is not its agent's keyer
  have hresidual : ∀ l, l ∈ residuals ↔ l ∈ G.myNormalLinks S base ∧ l ∉ keyers := by
    intro l
    rw [h.mem_residuals hrun]
    constructor
    · rintro ⟨hres, hl⟩
      obtain ⟨k, hk, hkl, _⟩ := h.isResidual_iff.mp hres
      refine ⟨mem_myNormalLinks.mpr ⟨hl, ?_⟩, ?_⟩
      · rw [← hkl]
        exact h.notMem_surrounding hk
      · intro hmem
        rw [h.isResidual_keyer hmem] at hres
        cases hres
    · rintro ⟨hl, hnot⟩
      obtain ⟨k, hk, hkl⟩ := hkeyed l hl
      refine ⟨h.isResidual_iff.mpr ⟨k, hk, hkl, ?_⟩, (mem_myNormalLinks.mp hl).1⟩
      rintro rfl
      exact hnot hk
  have hkeyers : ∀ k ∈ keyers, k ∈ G.myNormalLinks S base := by
    intro k hk
    exact mem_myNormalLinks.mpr ⟨(h.follows hk).normal, h.notMem_surrounding hk⟩
  refine ⟨residuals, hrun, checkPlan_pass hcard, ?_, ?_, ?_, ?_⟩
  · -- one keyer for each agent
    intro a ha
    rw [← hagents, Finset.mem_image] at ha
    obtain ⟨k, hk, hka⟩ := ha
    refine ⟨k, ⟨hk, hka⟩, ?_⟩
    rintro k' ⟨hk', hka'⟩
    exact h.injOn hk' hk (hka'.trans hka.symm)
  · -- the residuals to an agent are its other normal links
    intro a _ k hk hka l
    rw [hresidual]
    constructor
    · rintro ⟨⟨hl, hnot⟩, hla⟩
      refine ⟨hl, hla, ?_⟩
      rintro rfl
      exact hnot hk
    · rintro ⟨hl, hla, hne⟩
      refine ⟨⟨hl, ?_⟩, hla⟩
      intro hmem
      exact hne (h.injOn hmem hk (hla.trans hka.symm))
  · rw [Finset.disjoint_left]
    intro l hl hres
    exact ((hresidual l).mp hres).2 hl
  · -- and keyers and residuals are the normal links
    ext l
    rw [Finset.mem_union, hresidual]
    constructor
    · rintro (hl | ⟨hl, _⟩)
      · exact hkeyers l hl
      · exact hl
    · intro hl
      by_cases hmem : l ∈ keyers
      · exact Or.inl hmem
      · exact Or.inr ⟨hl, hmem⟩

end DeterminedKeyers

end PatternGraph

/-- A pattern whose queries register a link once: each is the address of another pointer. -/
structure LinkedPattern (Agent Link X A M : Type) [DecidableEq Link] extends
    PatternGraph Agent Link X A M where
  normal_nodup : ∀ a, (patternQuery a).normalLinks.Nodup

section

variable {Agent Link X A M : Type} [LinearOrder Agent] [LinearOrder Link]

/-- **Every agent is keyed once, exactly in such surroundings.**  For every pattern with
disjunctions anywhere, and every set of surrounding links, when `DetermineKeyers` reports no
conflicting coupling; and those closed downwards are such surroundings. -/
theorem keyedOnce_iff (G : LinkedPattern Agent Link X A M) (S : Surroundings Agent Link)
    (base : Link) (keyers : Finset Link)
    (h : G.toPatternGraph.DeterminedKeyers S base keyers) :
    (G.toPatternGraph.KeyedOnce S base keyers ↔ G.toPatternGraph.WellSurrounded S base)
      ∧ (G.toPatternGraph.SurroundedBelow S base → G.toPatternGraph.WellSurrounded S base) := by
  refine ⟨?_, PatternGraph.wellSurrounded_of_surroundedBelow⟩
  constructor
  · -- keyed once: each normal agent has a keyer, so a link of the current solve leads to it
    rintro ⟨residuals, hrun, _, hone, _⟩
    have hcovered : ∀ l, G.toPatternGraph.FollowsNormal base l →
        G.childAgent l ∉ G.toPatternGraph.surroundingAgents S →
        ∃ m, G.toPatternGraph.FollowsWithin S base m ∧ G.childAgent m = G.childAgent l := by
      intro l hl hout
      obtain ⟨k, ⟨hk, hkl⟩, _⟩ :=
        hone _ (PatternGraph.mem_myNormalAgents.mpr ⟨⟨l, hl, rfl⟩, hout⟩)
      exact ⟨k, h.follows hk, hkl⟩
    refine ⟨hcovered, ?_⟩
    -- and no residual is come to twice, or the insertion would have asserted
    intro g g' hg hg' hne hagent f hf
    by_contra hout
    exact h.residuals_return_iff.mp ⟨residuals, hrun⟩
      ((h.twice_iff G.normal_nodup hcovered).mpr ⟨g, g', f, hg, hg', hne, hagent, hf, hout⟩)
  · -- the other way: the residuals return, and the keyers cover the normal agents
    rintro ⟨hcovered, honce⟩
    have hreturns : ∃ residuals, G.toPatternGraph.determineResiduals keyers
        (G.toPatternGraph.depth base) ∅ (G.childAgent base) = some residuals := by
      refine h.residuals_return_iff.mpr ?_
      intro htwice
      obtain ⟨g, g', f, hg, hg', hne, hagent, hf, hout⟩ :=
        (h.twice_iff G.normal_nodup hcovered).mp htwice
      exact hout (honce g g' hg hg' hne hagent f hf)
    obtain ⟨residuals, hrun⟩ := hreturns
    exact h.keyedOnce hcovered hrun

end

local instance threeAgents : NeZero 3 := ⟨by decide⟩

local instance fourLinks : NeZero 4 := ⟨by decide⟩

/-- Which agent a link of the pattern below belongs to. -/
def sunkOwner : Fin 4 → Option (Fin 3 × LinkKind) :=
  ![none, some (0, .normal), some (1, .normal), none]

/-- A root with a link `1` to an agent whose link `2` leads to a leaf. -/
def sunkPattern : LinkedPattern (Fin 3) (Fin 4) Unit Unit Unit where
  childAgent := ![0, 1, 2, 1]
  patternQuery := ![⟨[1], [], []⟩, ⟨[2], [], []⟩, ⟨[], [], []⟩]
  isDisjunction _ := false
  symbolicNormalLinkedQuery _ _ := .constant true
  owner := sunkOwner
  rank := ![2, 1, 0]
  owner_normal := by decide
  owner_abnormal := by decide
  owner_multiplicity := by decide
  rank_lt := by
    intro a l kind
    revert a l
    cases kind <;> decide
  required := by
    intro a keyer v hv
    exact absurd hv (Finset.notMem_empty v)
  normal_nodup := by decide

/-- The middle agent is surrounding, by a link of its own. -/
def sunkSurroundings : Surroundings (Fin 3) (Fin 4) := ⟨{3}, ∅, .empty, .empty⟩

/-- **A leaf below a surrounding agent is not keyed**: it is a normal agent, the keyers stop
above it, and the plan asserts. -/
theorem sunkPattern_notKeyed :
    sunkPattern.toPatternGraph.DeterminedKeyers sunkSurroundings 0 {0} ∧
      2 ∈ sunkPattern.toPatternGraph.myNormalAgents sunkSurroundings 0 ∧
      ¬ sunkPattern.toPatternGraph.KeyedOnce sunkSurroundings 0 {0} := by
  refine ⟨⟨3, by decide +kernel⟩, by decide +kernel, ?_⟩
  rintro ⟨residuals, _, _, hone, _⟩
  obtain ⟨k, ⟨hk, hka⟩, _⟩ := hone 2 (by decide +kernel)
  rw [Finset.mem_singleton.mp hk] at hka
  exact absurd hka (by decide)

local instance sixAgents : NeZero 6 := ⟨by decide⟩

local instance eightLinks : NeZero 8 := ⟨by decide⟩

/-- Which agent a link of the pattern below belongs to. -/
def choiceOwner : Fin 8 → Option (Fin 6 × LinkKind) :=
  ![none, some (0, .normal), some (0, .normal), some (1, .normal), some (1, .normal),
    some (3, .normal), some (4, .normal), none]

/-- A root with a disjunction and a leaf `2`.  The first choice is that leaf again, by link
`3`; the second is an agent `3` whose child `4` is surrounding, by a link of its own, and so
is the child of that. -/
def choicePattern : LinkedPattern (Fin 6) (Fin 8) Unit Unit Unit where
  childAgent := ![0, 1, 2, 2, 3, 4, 5, 4]
  patternQuery := ![⟨[1, 2], [], []⟩, ⟨[3, 4], [], []⟩, ⟨[], [], []⟩, ⟨[5], [], []⟩,
    ⟨[6], [], []⟩, ⟨[], [], []⟩]
  isDisjunction a := a = 1
  symbolicNormalLinkedQuery _ _ := .constant true
  owner := choiceOwner
  rank := ![4, 3, 0, 2, 1, 0]
  owner_normal := by decide
  owner_abnormal := by decide
  owner_multiplicity := by decide
  rank_lt := by
    intro a l kind
    revert a l
    cases kind <;> decide
  required := by
    intro a keyer v hv
    exact absurd hv (Finset.notMem_empty v)
  normal_nodup := by decide

def choiceSurroundings : Surroundings (Fin 6) (Fin 8) := ⟨{6, 7}, ∅, .empty, .empty⟩

/-- **Its four normal agents are keyed once**: the shared leaf by the root's link, and the
link of the disjunction is its residual. -/
theorem keyedOnce_iff_choice :
    choicePattern.toPatternGraph.KeyedOnce choiceSurroundings 0 {0, 1, 2, 4} := by
  have hiff := keyedOnce_iff choicePattern choiceSurroundings 0 {0, 1, 2, 4}
    ⟨5, by decide +kernel⟩
  -- the surrounding agents are `4` and `5`, and nothing else is below them
  have hclosed : ∀ l, choicePattern.childAgent l
        ∈ choicePattern.toPatternGraph.surroundingAgents choiceSurroundings →
      ∀ m ∈ choicePattern.toPatternGraph.normalLinks (choicePattern.childAgent l),
        choicePattern.childAgent m
          ∈ choicePattern.toPatternGraph.surroundingAgents choiceSurroundings := by
    decide +kernel
  exact hiff.1.mpr (hiff.2 fun l _ => hclosed l)

end Inferno.Engine
