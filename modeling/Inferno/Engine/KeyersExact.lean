/-
  Inferno.Engine.KeyersExact
  ──────────────────────────
  What `DetermineKeyers` and `DetermineResiduals` find.

    • `KeyedFrom`       — a chain of keyers, each a normal link of the agent before,
    • `Keys`            — what a call of `DetermineKeyers` adds: chains of keyers, one
                          for each agent, none for a senior one,
    • `determineKeyers_keys` — every call adds just that,
    • `mem_determineResiduals` — a residual is met exactly where the walk through
                          keyers and unkeyed agents comes by.
-/
import Inferno.Engine.AndRulePlan
import Inferno.Lib.FoldM
import Mathlib.Data.Set.Function

namespace Inferno.Engine

open Inferno.Common
open Inferno.Lib

namespace PatternGraph

variable {Agent Link X A M : Type} [LinearOrder Agent] [LinearOrder Link]
  (G : PatternGraph Agent Link X A M)

/-! ## §1. Chains of keyers. -/

/-- From a link to a normal link of its agent that is a keyer. -/
def KeyedStep (keyers : Finset Link) (l l' : Link) : Prop :=
  l' ∈ G.normalLinks (G.childAgent l) ∧ l' ∈ keyers

/-- Such steps, from a keyer among `starts`. -/
def KeyedFrom (starts : List Link) (keyers : Finset Link) (l : Link) : Prop :=
  ∃ s ∈ starts, s ∈ keyers ∧ Relation.ReflTransGen (G.KeyedStep keyers) s l

variable {G}

omit [LinearOrder Agent] in
theorem KeyedFrom.mono {starts starts' : List Link} {keyers keyers' : Finset Link} {l : Link}
    (h : G.KeyedFrom starts keyers l) (hstarts : ∀ s ∈ starts, s ∈ starts')
    (hkeyers : keyers ⊆ keyers') : G.KeyedFrom starts' keyers' l := by
  obtain ⟨s, hs, hkeyed, hchain⟩ := h
  refine ⟨s, hstarts s hs, hkeyers hkeyed, Relation.ReflTransGen.mono ?_ _ _ hchain⟩
  intro a b hab
  exact ⟨hab.1, hkeyers hab.2⟩

omit [LinearOrder Agent] in
/-- A chain from a normal link of an agent that a chain leads to. -/
theorem KeyedFrom.trans {starts : List Link} {keyers : Finset Link} {l m : Link}
    (h : G.KeyedFrom starts keyers l)
    (h' : G.KeyedFrom (G.normalLinks (G.childAgent l)) keyers m) :
    G.KeyedFrom starts keyers m := by
  obtain ⟨s, hs, hkeyed, hchain⟩ := h
  obtain ⟨t, ht, htkeyed, htchain⟩ := h'
  exact ⟨s, hs, hkeyed, (hchain.tail ⟨ht, htkeyed⟩).trans htchain⟩

omit [LinearOrder Agent] in
theorem KeyedFrom.mem {starts : List Link} {keyers : Finset Link} {l : Link}
    (h : G.KeyedFrom starts keyers l) : l ∈ keyers := by
  obtain ⟨s, _, hkeyed, hchain⟩ := h
  cases hchain with
  | refl => exact hkeyed
  | tail _ hstep => exact hstep.2

/-! ## §2. What a call adds. -/

variable (G)

/-- The keyers that a call from `starts` adds, when the agents `senior` are excluded. -/
structure Keys (starts : List Link) (senior : Finset Agent) (keyers keyers' : Finset Link) :
    Prop where
  mono : keyers ⊆ keyers'
  fresh : ∀ l ∈ keyers', l ∉ keyers → G.childAgent l ∉ senior
  chain : ∀ l ∈ keyers', l ∉ keyers → G.KeyedFrom starts keyers' l
  unique : Set.InjOn G.childAgent keyers → Set.InjOn G.childAgent keyers'

variable {G}

omit [LinearOrder Agent] in
theorem Keys.refl (starts : List Link) (senior : Finset Agent) (keyers : Finset Link) :
    G.Keys starts senior keyers keyers := by
  refine ⟨Finset.Subset.refl _, ?_, ?_, id⟩
  · intro l hl hout
    exact absurd hl hout
  · intro l hl hout
    exact absurd hl hout

omit [LinearOrder Agent] in
theorem Keys.trans {starts : List Link} {senior senior' : Finset Agent}
    {keyers₁ keyers₂ keyers₃ : Finset Link} (h : G.Keys starts senior keyers₁ keyers₂)
    (h' : G.Keys starts senior' keyers₂ keyers₃) (hsenior : senior ⊆ senior') :
    G.Keys starts senior keyers₁ keyers₃ := by
  refine ⟨h.mono.trans h'.mono, ?_, ?_, fun hinj => h'.unique (h.unique hinj)⟩
  · intro l hl hout
    by_cases hmid : l ∈ keyers₂
    · exact h.fresh l hmid hout
    · exact fun hmem => h'.fresh l hl hmid (hsenior hmem)
  · intro l hl hout
    by_cases hmid : l ∈ keyers₂
    · exact (h.chain l hmid hout).mono (fun s hs => hs) h'.mono
    · exact h'.chain l hl hmid

omit [LinearOrder Agent] in
theorem Keys.starts {starts starts' : List Link} {senior : Finset Agent}
    {keyers keyers' : Finset Link} (h : G.Keys starts senior keyers keyers')
    (hstarts : ∀ s ∈ starts, s ∈ starts') : G.Keys starts' senior keyers keyers' := by
  refine ⟨h.mono, h.fresh, ?_, h.unique⟩
  intro l hl hout
  exact (h.chain l hl hout).mono hstarts (Finset.Subset.refl _)

omit [LinearOrder Agent] in
/-- What is added from the links of an agent is added from where its keyer comes from. -/
theorem Keys.under {starts : List Link} {senior : Finset Agent} {keyers keyers' : Finset Link}
    {m : Link} (hm : G.KeyedFrom starts keyers m)
    (h : G.Keys (G.normalLinks (G.childAgent m)) senior keyers keyers') :
    G.Keys starts senior keyers keyers' := by
  refine ⟨h.mono, h.fresh, ?_, h.unique⟩
  intro l hl hout
  exact (hm.mono (fun s hs => hs) h.mono).trans (h.chain l hl hout)

omit [LinearOrder Agent] in
/-- One new keyer, of an agent that has none. -/
theorem Keys.insert {senior : Finset Agent} {keyers : Finset Link} {plink : Link}
    (hsenior : G.childAgent plink ∉ senior)
    (hnew : ∀ l ∈ keyers, G.childAgent l ≠ G.childAgent plink) :
    G.Keys [plink] senior keyers (insert plink keyers) := by
  have honly : ∀ l ∈ Insert.insert plink keyers, l ∉ keyers → l = plink := by
    intro l hl hout
    exact (Finset.mem_insert.mp hl).resolve_right hout
  refine ⟨Finset.subset_insert _ _, ?_, ?_, ?_⟩
  · intro l hl hout
    rw [honly l hl hout]
    exact hsenior
  · intro l hl hout
    rw [honly l hl hout]
    exact ⟨plink, List.mem_cons_self, Finset.mem_insert_self _ _, .refl⟩
  · intro hinj l hl m hm hlm
    rcases Finset.mem_insert.mp hl with hl | hl
    · rcases Finset.mem_insert.mp hm with hm | hm
      · rw [hl, hm]
      · exact absurd (by rw [← hlm, hl]) (hnew m hm)
    · rcases Finset.mem_insert.mp hm with hm | hm
      · exact absurd (by rw [hlm, hm]) (hnew l hl)
      · exact hinj hl hm hlm

/-! ## §3. The region above the disjunctions. -/

variable (G)

/-- What `DetermineKeyersModuloDisjunction` does to its state. -/
structure Region (starts : List Link) (s s' : KeyerState Agent Link) : Prop where
  keys : G.Keys starts s.seniorAgents s.keyers s'.keyers
  senior : s.seniorAgents ⊆ s'.seniorAgents
  disjunction : ∀ a ∈ s'.disjunctionAgents, a ∉ s.disjunctionAgents →
    ∃ l, G.KeyedFrom starts s'.keyers l ∧ G.childAgent l = a

variable {G}

omit [LinearOrder Agent] in
theorem Region.refl (starts : List Link) (s : KeyerState Agent Link) : G.Region starts s s := by
  refine ⟨Keys.refl _ _ _, Finset.Subset.refl _, ?_⟩
  intro a ha hout
  exact absurd ha hout

theorem Region.trans {starts : List Link} {s₁ s₂ s₃ : KeyerState Agent Link}
    (h : G.Region starts s₁ s₂) (h' : G.Region starts s₂ s₃) : G.Region starts s₁ s₃ := by
  refine ⟨h.keys.trans h'.keys h.senior, h.senior.trans h'.senior, ?_⟩
  intro a ha hout
  by_cases hmid : a ∈ s₂.disjunctionAgents
  · obtain ⟨l, hl, hla⟩ := h.disjunction a hmid hout
    exact ⟨l, hl.mono (fun s hs => hs) h'.keys.mono, hla⟩
  · exact h'.disjunction a ha hmid

omit [LinearOrder Agent] in
theorem Region.starts {starts starts' : List Link} {s s' : KeyerState Agent Link}
    (h : G.Region starts s s') (hstarts : ∀ l ∈ starts, l ∈ starts') :
    G.Region starts' s s' := by
  refine ⟨h.keys.starts hstarts, h.senior, ?_⟩
  intro a ha hout
  obtain ⟨l, hl, hla⟩ := h.disjunction a ha hout
  exact ⟨l, hl.mono hstarts (Finset.Subset.refl _), hla⟩

omit [LinearOrder Agent] in
theorem Region.under {starts : List Link} {s s' : KeyerState Agent Link} {m : Link}
    (hm : G.KeyedFrom starts s.keyers m)
    (h : G.Region (G.normalLinks (G.childAgent m)) s s') : G.Region starts s s' := by
  refine ⟨h.keys.under hm, h.senior, ?_⟩
  intro a ha hout
  obtain ⟨l, hl, hla⟩ := h.disjunction a ha hout
  exact ⟨l, (hm.mono (fun s hs => hs) h.keys.mono).trans hl, hla⟩

/-- A loop over the links of a list. -/
theorem Region.foldlM {f : KeyerState Agent Link → Link → Option (KeyerState Agent Link)}
    (hf : ∀ s l s', f s l = some s' → G.Region [l] s s') {links : List Link}
    {s s' : KeyerState Agent Link} (h : links.foldlM f s = some s') : G.Region links s s' := by
  refine (foldlM_grows (G.Region links) (Region.refl links) (fun _ _ _ => Region.trans) links
    ?_ h).1
  intro l hl t t' ht
  refine (hf t l t' ht).starts ?_
  intro m hm
  rw [List.mem_singleton.mp hm]
  exact hl

/-- **The region above the disjunctions**, by induction on the depth. -/
theorem determineKeyersModuloDisjunction_region (depth : Nat) :
    ∀ (s : KeyerState Agent Link) (plink : Link) (s' : KeyerState Agent Link),
      G.determineKeyersModuloDisjunction depth s plink = some s' → G.Region [plink] s s' := by
  induction depth with
  | zero => intro s plink s' h; cases h
  | succ depth ih =>
      intro s plink s' h
      rw [determineKeyersModuloDisjunction] at h
      split at h
      next hmem =>
        cases h
        exact Region.refl _ _
      next hsenior =>
        rw [ASSERT_bind_eq_some] at h
        obtain ⟨hnew, h⟩ := h
        have hkeys := Keys.insert hsenior hnew
        have hplink : G.KeyedFrom [plink] (Insert.insert plink s.keyers) plink :=
          ⟨plink, List.mem_cons_self, Finset.mem_insert_self _ _, .refl⟩
        split at h
        next hdisjunction =>
          cases h
          refine ⟨hkeys, Finset.subset_insert _ _, ?_⟩
          intro a ha hout
          exact ⟨plink, hplink, ((Finset.mem_insert.mp ha).resolve_right hout).symm⟩
        next hdisjunction =>
          -- the agent itself first, then what its links lead to
          have hself : G.Region [plink] s ⟨Insert.insert plink s.keyers,
              Insert.insert (G.childAgent plink) s.seniorAgents, s.disjunctionAgents⟩ := by
            refine ⟨hkeys, Finset.subset_insert _ _, ?_⟩
            intro a ha hout
            exact absurd ha hout
          exact hself.trans ((Region.foldlM ih h).under hplink)

/-! ## §4. All keyers. -/

/-- **What `DetermineKeyers` adds.**  The regions under the disjunctions start from agents
that chains lead to. -/
theorem determineKeyers_keys (depth : Nat) :
    ∀ (senior : Finset Agent) (keyers : Finset Link) (plink : Link) (keyers' : Finset Link),
      G.determineKeyers depth senior keyers plink = some keyers' →
        G.Keys [plink] senior keyers keyers' := by
  induction depth with
  | zero => intro senior keyers plink keyers' h; cases h
  | succ depth ih =>
      intro senior keyers plink keyers' h
      rw [determineKeyers] at h
      obtain ⟨s, hs, h⟩ := Option.bind_eq_some_iff.mp h
      have hregion := determineKeyersModuloDisjunction_region _ _ _ _ hs
      refine hregion.keys.trans ?_ hregion.senior
      -- each disjunction adds the keyers of the regions under it
      have hloop := foldlM_grows
        (fun k k' => s.keyers ⊆ k → G.Keys [plink] s.seniorAgents k k')
        (fun k _ => Keys.refl _ _ _)
        (fun a b c hab hbc ha =>
          (hab ha).trans (hbc (ha.trans (hab ha).mono)) (Finset.Subset.refl _))
        _ ?_ h
      · exact hloop.1 (Finset.Subset.refl _)
      · intro agent hagent k k' hk hsub
        obtain ⟨l, hl, rfl⟩ := hregion.disjunction agent (mem_inOrder.mp hagent)
          (Finset.notMem_empty _)
        refine Keys.under (hl.mono (fun s hs => hs) hsub) ?_
        -- one region for each of its links, by the hypothesis on the depth
        refine (foldlM_grows (G.Keys (G.normalLinks (G.childAgent l)) s.seniorAgents)
          (Keys.refl _ _) (fun _ _ _ h h' => h.trans h' (Finset.Subset.refl _)) _ ?_ hk).1
        intro m hm t t' ht
        refine (ih _ _ _ _ ht).starts ?_
        intro n hn
        rw [List.mem_singleton.mp hn]
        exact hm

/-! ## §5. Residuals. -/

variable (G)

theorem mem_keyers_of_keyerOf {keyers : Finset Link} {a : Agent} {keyer : Link}
    (h : G.keyerOf keyers a = some keyer) : keyer ∈ keyers ∧ G.childAgent keyer = a := by
  have hmem := List.mem_of_getLast? h
  rw [List.mem_filter, mem_inOrder, decide_eq_true_eq] at hmem
  exact hmem

/-- With one keyer for an agent, that is the one the loop ends up with. -/
theorem keyerOf_childAgent {keyers : Finset Link} (hinj : Set.InjOn G.childAgent keyers)
    {keyer : Link} (h : keyer ∈ keyers) :
    G.keyerOf keyers (G.childAgent keyer) = some keyer := by
  cases hlast : G.keyerOf keyers (G.childAgent keyer) with
  | none =>
      have hnil := List.getLast?_eq_none_iff.mp hlast
      have hmem : keyer ∈ (inOrder keyers).filter
          (fun l => G.childAgent l = G.childAgent keyer) := by
        rw [List.mem_filter, mem_inOrder, decide_eq_true_eq]
        exact ⟨h, rfl⟩
      rw [hnil] at hmem
      exact absurd hmem List.not_mem_nil
  | some other =>
      obtain ⟨hother, hagent⟩ := G.mem_keyers_of_keyerOf hlast
      rw [hinj hother h hagent]

/-- From an agent to one that `DetermineResiduals` recurses into. -/
def Descends (keyers : Finset Link) (a b : Agent) : Prop :=
  ∃ link ∈ G.normalLinks a, G.isResidual keyers link = false ∧ G.childAgent link = b

/-- **What `DetermineResiduals` inserts**: the residuals among the links of the agents it
descends to, by induction on the depth. -/
theorem mem_determineResiduals {keyers : Finset Link} (depth : Nat) :
    ∀ (residuals : Finset Link) (agent : Agent) (residuals' : Finset Link),
      G.determineResiduals keyers depth residuals agent = some residuals' →
        ∀ r, r ∈ residuals' ↔ r ∈ residuals ∨ (G.isResidual keyers r = true
          ∧ ∃ b, Relation.ReflTransGen (G.Descends keyers) agent b ∧ r ∈ G.normalLinks b) := by
  induction depth with
  | zero => intro residuals agent residuals' h; cases h
  | succ depth ih =>
      intro residuals agent residuals' h r
      rw [determineResiduals] at h
      constructor
      · intro hr
        -- nothing else is inserted: an invariant of the loop
        refine foldlM_invariant (fun k => ∀ r ∈ k, r ∈ residuals ∨ (G.isResidual keyers r = true
          ∧ ∃ b, Relation.ReflTransGen (G.Descends keyers) agent b ∧ r ∈ G.normalLinks b))
          _ ?_ (fun r hr => Or.inl hr) h r hr
        intro link hlink k k' hk hstep q hq
        split at hstep
        next hresidual =>
          -- a residual is inserted, and is a link of the agent itself
          rw [ASSERT_bind_eq_some, Option.some.injEq] at hstep
          rw [← hstep.2, Finset.mem_insert] at hq
          rcases hq with rfl | hq
          · exact Or.inr ⟨hresidual, agent, .refl, hlink⟩
          · exact hk q hq
        next hresidual =>
          -- another link is descended, and what comes from below has one more step above it
          rcases (ih _ _ _ hstep q).mp hq with hq | hq
          · exact hk q hq
          · obtain ⟨hqres, b, hb, hqb⟩ := hq
            have hdescends : G.Descends keyers agent (G.childAgent link) :=
              ⟨link, hlink, by simpa using hresidual, rfl⟩
            exact Or.inr ⟨hqres, b, .head hdescends hb, hqb⟩
      · -- the other way: the set only grows, so what one turn inserts stays
        intro hr
        have hgrows : ∀ link ∈ G.normalLinks agent, ∀ k k' : Finset Link,
            (if G.isResidual keyers link then do
              ASSERT (link ∉ k)
              some (insert link k)
            else G.determineResiduals keyers depth k (G.childAgent link)) = some k' →
              k ⊆ k' := by
          intro link hlink k k' hstep q hq
          split at hstep
          next hresidual =>
            rw [ASSERT_bind_eq_some, Option.some.injEq] at hstep
            rw [← hstep.2]
            exact Finset.mem_insert_of_mem hq
          next hresidual => exact (ih _ _ _ hstep q).mpr (Or.inl hq)
        obtain ⟨hmono, hturn⟩ := foldlM_grows (fun k k' : Finset Link => k ⊆ k')
          Finset.Subset.refl (fun _ _ _ => Finset.Subset.trans) _ hgrows h
        rcases hr with hr | hr
        · exact hmono hr
        · obtain ⟨hresidual, b, hb, hrb⟩ := hr
          -- the agent itself, or one under one of its links
          rcases Relation.ReflTransGen.cases_head hb with rfl | hb
          · obtain ⟨k, k', _, hstep, hle⟩ := hturn r hrb
            rw [if_pos hresidual, ASSERT_bind_eq_some, Option.some.injEq] at hstep
            refine hle ?_
            rw [← hstep.2]
            exact Finset.mem_insert_self _ _
          · obtain ⟨c, hc, hcb⟩ := hb
            -- under the link of the first step, by the induction hypothesis
            obtain ⟨link, hlink, hnot, rfl⟩ := hc
            obtain ⟨k, k', _, hstep, hle⟩ := hturn link hlink
            rw [if_neg (by simp [hnot])] at hstep
            exact hle ((ih _ _ _ hstep r).mpr (Or.inr ⟨hresidual, b, hcb, hrb⟩))

variable {G}

/-- A chain of keyers is a descent. -/
theorem KeyedFrom.descends {keyers : Finset Link} (hinj : Set.InjOn G.childAgent keyers)
    {base l : Link} (h : G.KeyedFrom [base] keyers l) :
    Relation.ReflTransGen (G.Descends keyers) (G.childAgent base) (G.childAgent l) := by
  obtain ⟨s, hs, _, hchain⟩ := h
  rw [List.mem_singleton.mp hs] at hchain
  induction hchain with
  | refl => exact .refl
  | @tail a b _ hstep ih =>
      refine ih.tail ⟨b, hstep.1, ?_, rfl⟩
      unfold isResidual
      rw [G.keyerOf_childAgent hinj hstep.2]
      simp

end PatternGraph

end Inferno.Engine
