/-
  Inferno.Engine.ScrUncoupled
  ───────────────────────────
  **NESTS WHOSE RUNS ARE SCOPED.**

    • `engineAt`, `InNest` — the engines of a nest, by the embedded agents above them,
    • `Uncoupled`          — the condition on the nest alone: no engine's links are those of
                             an engine around it, and what its replace layout meets outside
                             is solved for there,
    • `Covered`            — what is assigned when an engine is called: links of the engines
                             around it, and among them all that these solve for,
    • `entered_of_uncoupled` — every call of every run is then entered well,
    • `scoped_of_uncoupled`  — and ends well,
    • `layeredPattern`     — a nest of two levels that is coupled and meets the condition.
-/
import Inferno.Engine.ScrScope

namespace Inferno.Engine

open Inferno.Common

namespace ScrPattern

/-! ## §1. The engines of a nest. -/

/-- The engines around an embedded one: the one that embeds it, and those around that. -/
theorem suffix_cons_ne {α : Type} (agent : α) {above outer : List α} :
    outer <:+ agent :: above ∧ outer ≠ agent :: above ↔ outer <:+ above := by
  rw [List.suffix_cons_iff]
  constructor
  · intro h
    exact h.1.resolve_left h.2
  · intro h
    refine ⟨Or.inr h, ?_⟩
    rintro rfl
    have hlen := h.length_le
    rw [List.length_cons] at hlen
    omega

variable {Agent Link X A M : Type} [LinearOrder Agent] [LinearOrder Link]

section

variable (G : ScrPattern Agent Link X A M)

/-- The engine that embedded agents lead to, innermost first. -/
def engineAt : List Agent → ScrEngine Agent Link
  | [] => .root
  | agent :: above => G.myEngine (engineAt above) agent

/-- The agents that lead to an engine which is made. -/
inductive InNest : List Agent → Prop
  | root : InNest []
  | embedded {above : List Agent} {plink : Link} : InNest above →
      plink ∈ G.myEmbeddedPlinksPostorder (G.engineAt above) →
      InNest (G.childAgent plink :: above)

/-- The links that the engine's solver solves for, with its base link. -/
def solvedPlinks (e : ScrEngine Agent Link) : List Link :=
  G.normalAndBoundaryLinksPreorder (andRuleSurroundings e) (G.origin e)

/-- **The condition on the nest.**  `outer` goes through the engines around `above`'s. -/
structure Uncoupled : Prop where
  disjoint : ∀ above, G.InNest above → ∀ outer, outer <:+ above → outer ≠ above →
    Disjoint (G.myPlinks (G.engineAt outer)) (G.myPlinks (G.engineAt above))
  solved : ∀ above, G.InNest above → ∀ l ∈ G.layoutPlinks (G.engineAt above),
    l ∈ (G.engineAt above).enclosingPlinks →
    ∃ outer, outer <:+ above ∧ outer ≠ above ∧ l ∈ G.solvedPlinks (G.engineAt outer)

/-- **The keys when the engine is called**: links of the engines around it, and all of those
that they solve for. -/
structure Covered (above : List Agent) (keys : Finset Link) : Prop where
  outside : ∀ l ∈ keys, ∃ outer, outer <:+ above ∧ outer ≠ above
    ∧ l ∈ G.myPlinks (G.engineAt outer)
  solved : ∀ outer, outer <:+ above → outer ≠ above → ∀ l ∈ G.solvedPlinks (G.engineAt outer),
    l ∈ keys

end

variable {G : ScrPattern Agent Link X A M} {Val W : Type} {env : Environment G Val W}

theorem enclosed_engineAt (above : List Agent) : G.Enclosed (G.engineAt above) := by
  induction above with
  | nil => exact enclosed_root
  | cons agent above ih => exact ih.myEngine agent

theorem covered_root : G.Covered [] (StdMap.empty : StdMap Link Val).keys := by
  refine ⟨?_, ?_⟩
  · intro l hl
    exact absurd hl (Finset.notMem_empty l)
  · intro outer houter hne
    exact absurd (List.suffix_nil.mp houter) hne

/-! ## §2. One call. -/

/-- A match assigns all that the engine solves for. -/
theorem compare_solved {e : ScrEngine Agent Link} {x : Val} {universal hit : StdMap Link Val}
    {w : W} (h : compare env e x universal w = some (some hit)) :
    ∀ l ∈ G.solvedPlinks e, l ∈ hit.keys := by
  -- regenerating only adds to what the solver has found
  have hregenerate : ∀ (agents : List Agent) (subordinates basic hit : StdMap Link Val),
      regenerateAll env e subordinates w agents basic = some (some hit) →
      basic.keys ⊆ hit.keys := by
    intro agents subordinates
    induction agents with
    | nil =>
        intro basic hit h
        cases h
        exact Finset.Subset.refl _
    | cons a agents ih =>
        intro basic hit h
        rw [regenerateAll] at h
        split at h
        next => cases h
        next => cases h
        next nodes _ =>
          split at h
          next =>
            refine Finset.Subset.trans ?_ (ih _ hit h)
            rw [keys_assignAll]
            exact Finset.subset_union_right
          next => cases h
  unfold compare at h
  obtain ⟨solutions, hsolve, h⟩ := Option.bind_eq_some_iff.mp h
  obtain ⟨s, hs, h⟩ := firstHit_eq solutions h
  unfold onSolution at h
  dsimp only at h
  split at h
  next =>
    -- the solver finds all but the origin, which is the node it was given
    intro l hl
    refine hregenerate _ _ _ _ h ?_
    rw [StdMap.keys_set, env.solve_keys _ _ _ _ _ hsolve s hs, Finset.mem_insert,
      Finset.mem_erase, List.mem_toFinset]
    by_cases heq : l = G.origin e
    · exact Or.inl heq
    · exact Or.inr ⟨heq, hl⟩
  next => cases h

/-- **A call of an engine of the nest is entered well.** -/
theorem Covered.entered (hG : G.Uncoupled) {above : List Agent} (hnest : G.InNest above)
    {c : Call Agent Link Val} (hengine : c.engine = G.engineAt above)
    (hcovered : G.Covered above c.entry.keys) : Call.Entered G c := by
  unfold Call.Entered
  rw [hengine]
  refine ⟨?_, ?_⟩
  · rw [Finset.disjoint_left]
    intro l hl
    obtain ⟨outer, houter, hne, hmine⟩ := hcovered.outside l hl
    exact Finset.disjoint_left.mp (hG.disjoint above hnest outer houter hne) hmine
  · intro l hl henclosing
    obtain ⟨outer, houter, hne, hsolved⟩ := hG.solved above hnest l hl henclosing
    exact hcovered.solved outer houter hne l hsolved

/-- **What a match and an update leave** covers the engines embedded in this one. -/
theorem Covered.embedded (hG : G.Uncoupled) {above : List Agent} (hnest : G.InNest above)
    {x : Val} {m solution assignments : StdMap Link Val} {w w₁ w' : W}
    (hcovered : G.Covered above m.keys)
    (hcompare : compare env (G.engineAt above) x m w = some (some solution))
    (hupdate : env.updateMainTree (G.engineAt above) x (assignAll m solution) w₁
      = some (assignments, w')) (agent : Agent) :
    G.Covered (agent :: above) (assignAll (assignAll m solution) assignments).keys := by
  have hkeys : (assignAll (assignAll m solution) assignments).keys
      = assignments.keys ∪ (solution.keys ∪ m.keys) := rfl
  rw [hkeys]
  refine ⟨?_, ?_⟩
  · intro l hl
    -- a link of this engine, or of one around it
    have hmine : l ∈ G.myPlinks (G.engineAt above) ∨ l ∈ m.keys := by
      rcases Finset.mem_union.mp hl with hl | hl
      · have hlayout := env.update_keys _ _ _ _ _ _ hupdate l hl
        by_cases henclosing : l ∈ (G.engineAt above).enclosingPlinks
        · obtain ⟨outer, houter, hne, hsolved⟩ := hG.solved above hnest l hlayout henclosing
          exact Or.inr (hcovered.solved outer houter hne l hsolved)
        · exact Or.inl (mem_myPlinks.mpr ⟨layoutPlinks_visible hlayout, henclosing⟩)
      · rcases Finset.mem_union.mp hl with hl | hl
        · exact Or.inl (compare_mine (enclosed_engineAt above) hcompare l hl)
        · exact Or.inr hl
    rcases hmine with hmine | hmine
    · obtain ⟨hsuffix, hne⟩ := (suffix_cons_ne agent).mpr (List.suffix_refl above)
      exact ⟨above, hsuffix, hne, hmine⟩
    · obtain ⟨outer, houter, _, hl⟩ := hcovered.outside l hmine
      obtain ⟨hsuffix, hne⟩ := (suffix_cons_ne agent).mpr houter
      exact ⟨outer, hsuffix, hne, hl⟩
  · intro outer houter hne l hl
    have hsuffix := (suffix_cons_ne agent).mp ⟨houter, hne⟩
    by_cases heq : outer = above
    · subst heq
      exact Finset.mem_union_right _ (Finset.mem_union_left _ (compare_solved hcompare l hl))
    · exact Finset.mem_union_right _ (Finset.mem_union_right _
        (hcovered.solved outer hsuffix heq l hl))

/-! ## §3. Runs. -/

variable (G) in
/-- Every call of a run that matches is entered well. -/
def EntersWell (r : Run Agent Link Val W) : Prop :=
  ∀ c ∈ r.log, c.matched = true → Call.Entered G c

omit [LinearOrder Agent] in
/-- What follows begins with the same keys, for the run before it has kept them. -/
theorem EntersWell.andThen {entry : StdMap Link Val} {r : Run Agent Link Val W}
    {next : StdMap Link Val → W → Run Agent Link Val W} (hr : EntersWell G r)
    (hkeeps : Keeps G entry r) (hnext : ∀ m w, m.keys = entry.keys → EntersWell G (next m w)) :
    EntersWell G (r.andThen next) := by
  have hkept := (hkeeps hr).2
  unfold Run.andThen
  cases hout : r.outcome with
  | returned m =>
      rw [hout] at hkept
      intro c hc
      rcases List.mem_append.mp hc with hc | hc
      · exact hr c hc
      · exact hnext m r.world hkept c hc
  | mismatch m => exact hr
  | stopped => exact hr
  | sizeAssertion => exact hr

omit [LinearOrder Agent] in
theorem entersWell_repeating (keys : Finset Link)
    {single : StdMap Link Val → W → Run Agent Link Val W} {limit : Bool}
    (hkeeps : ∀ m w, Keeps G m (single m w))
    (hsingle : ∀ m w, m.keys = keys → EntersWell G (single m w)) (attempts : Nat) :
    ∀ (m : StdMap Link Val) (w : W), m.keys = keys →
      EntersWell G (repeating single limit attempts m w) := by
  induction attempts with
  | zero =>
      intro m w _ c hc
      exact absurd hc List.not_mem_nil
  | succ attempts ih =>
      intro m w hm
      rw [repeating]
      split
      next => exact hsingle m w hm
      next =>
        exact (hsingle m w hm).andThen (hkeeps m w) (fun m' w' hm' => ih m' w' (hm'.trans hm))

omit [LinearOrder Agent] in
theorem entersWell_runEmbeddeds (keys : Finset Link)
    {rcr : Agent → Val → StdMap Link Val → W → Run Agent Link Val W}
    (hkeeps : ∀ agent x m w, Keeps G m (rcr agent x m w)) (plinks : List Link)
    (hrcr : ∀ plink ∈ plinks, ∀ x m w, m.keys = keys →
      EntersWell G (rcr (G.childAgent plink) x m w)) :
    ∀ (m : StdMap Link Val) (w : W), m.keys = keys →
      EntersWell G (runEmbeddeds (G := G) rcr plinks m w) := by
  induction plinks with
  | nil =>
      intro m w _ c hc
      exact absurd hc List.not_mem_nil
  | cons plink plinks ih =>
      intro m w hm
      rw [runEmbeddeds]
      split
      next =>
        intro c hc
        exact absurd hc List.not_mem_nil
      next embeddedOrigin _ =>
        refine (hrcr plink List.mem_cons_self _ m w hm).andThen (hkeeps _ _ _ _) ?_
        intro m' w' hm'
        exact ih (fun p hp => hrcr p (List.mem_cons_of_mem plink hp)) m' w' (hm'.trans hm)

/-- **All calls**, by induction on the nest. -/
theorem entersWell_singleCompareReplace (hG : G.Uncoupled) (depth : Nat) :
    ∀ above, G.InNest above → ∀ (x : Val) (m : StdMap Link Val) (w : W),
      G.Covered above m.keys →
      EntersWell G (singleCompareReplace env depth (G.engineAt above) x m w) := by
  induction depth with
  | zero =>
      intro above _ x m w _ c hc
      exact absurd hc List.not_mem_nil
  | succ depth ih =>
      intro above hnest x m w hcovered
      rw [singleCompareReplace]
      split
      next =>
        intro c hc hmatched
        rw [List.mem_singleton.mp hc] at hmatched
        cases hmatched
      next =>
        intro c hc hmatched
        rw [List.mem_singleton.mp hc] at hmatched
        cases hmatched
      next solution hcompare =>
        split
        next =>
          intro c hc _
          rw [List.mem_singleton.mp hc]
          exact hcovered.entered hG hnest rfl
        next assignments w' hupdate =>
          -- an embedded engine leaves the keys as it finds them
          have hkeeps : ∀ agent y n v, Keeps G n
              (repeating (singleCompareReplace env depth (G.myEngine (G.engineAt above) agent) y)
                (env.limit (G.myEngine (G.engineAt above) agent) v)
                (env.attempts (G.myEngine (G.engineAt above) agent) v) n v) := by
            intro agent y n v
            exact keeps_repeating (fun n' v' => scoped_singleCompareReplace depth _ y n' v'
              (enclosed_engineAt (agent :: above))) _ n v
          intro c hc hmatched
          rcases List.mem_append.mp hc with hc | hc
          · -- what an embedded engine finds: the same links as this one, and this one's own
            refine entersWell_runEmbeddeds _ hkeeps _ ?_ _ w' rfl c hc hmatched
            intro plink hplink y n v hn
            refine entersWell_repeating n.keys (fun n' v' => scoped_singleCompareReplace
              depth _ y n' v' (enclosed_engineAt (G.childAgent plink :: above))) ?_ _ n v rfl
            intro n' v' hn'
            refine ih (G.childAgent plink :: above) (hnest.embedded hplink) y n' v' ?_
            rw [hn', hn]
            exact hcovered.embedded hG hnest hcompare hupdate _
          · rw [List.mem_singleton.mp hc]
            exact hcovered.entered hG hnest rfl

/-- **Every call of every run is entered well** in an uncoupled nest. -/
theorem entered_of_uncoupled (hG : G.Uncoupled) (env : Environment G Val W) (depth : Nat)
    (x : Val) (w : W) : EntersWell G (repeatingCompareReplace env depth x w) := by
  refine entersWell_repeating (StdMap.empty : StdMap Link Val).keys
    (fun m v => scoped_singleCompareReplace depth .root x m v enclosed_root) ?_ _ _ _ rfl
  intro m v hm
  refine entersWell_singleCompareReplace hG depth [] .root x m v ?_
  rw [hm]
  exact covered_root

/-- **And so every call ends well**: assignments are scoped to their engines. -/
theorem scoped_of_uncoupled (hG : G.Uncoupled) (env : Environment G Val W) (depth : Nat)
    (x : Val) (w : W) :
    ∀ c ∈ (repeatingCompareReplace env depth x w).log, c.outcome.Scoped c.entry := by
  have hkeeps : Keeps G .empty (repeatingCompareReplace env depth x w) :=
    keeps_repeating (fun m v => scoped_singleCompareReplace depth .root x m v enclosed_root) _ _ _
  exact (hkeeps (entered_of_uncoupled hG env depth x w)).1

/-! ## §4. A coupling that is allowed. -/

local instance layeredAgents : NeZero 5 := ⟨by decide⟩

/-- The links of the pattern below that are not origins, with the agents they hang from. -/
def layeredParent : Nat → Option (Fin 5)
  | 1 => some 0
  | 3 => some 0
  | 5 => some 3
  | 7 => some 1
  | _ => none

/-- The origins are the even links. -/
def layeredOrigin (engine : List (Fin 5)) : Nat := 2 * Encodable.encode engine

/-- The agents that the links lead to. -/
def layeredChild (l : Nat) : Fin 5 :=
  if l = 1 ∨ l = 5 then 1
  else if l = 3 then 2
  else if l = 7 then 4
  else if l = layeredOrigin [2] then 3
  else 0

def layeredLinks : Fin 5 → List Nat := ![[1, 3], [7], [], [5], []]

def layeredRank : Fin 5 → Nat := ![2, 1, 0, 2, 0]

theorem layeredRank_lt (a : Fin 5) (l : Nat) (h : layeredParent l = some a) :
    layeredRank (layeredChild l) < layeredRank a := by
  unfold layeredParent at h
  split at h <;> cases h <;> decide

theorem layeredParent_origin (engine : List (Fin 5)) :
    layeredParent (layeredOrigin engine) = none := by
  unfold layeredParent layeredOrigin
  split <;> first | omega | rfl

theorem layeredOrigin_injective {engine engine' : List (Fin 5)}
    (h : layeredOrigin engine = layeredOrigin engine') : engine = engine' :=
  Encodable.encode_injective (Nat.eq_of_mul_eq_mul_left (by decide) h)

/-- Two levels.  The outermost pattern (agent `0`) has an agent `1` with a child `4`, and an
embedded pattern `2`; that one (agent `3`) refers to `1` by its link `5`. -/
def layeredPattern : ScrPattern (Fin 5) Nat Unit Unit Unit where
  childAgent := layeredChild
  patternQuery a := ⟨layeredLinks a, [], []⟩
  isDisjunction _ := false
  symbolicNormalLinkedQuery _ _ := .constant true
  owner l := (layeredParent l).map (·, .normal)
  rank := layeredRank
  owner_normal := by decide
  owner_abnormal := by simp
  owner_multiplicity := by simp
  rank_lt := by
    intro a l kind h
    rw [Option.map_eq_some_iff] at h
    obtain ⟨b, hb, heq⟩ := h
    cases heq
    exact layeredRank_lt a l hb
  required := by
    intro a keyer v hv
    exact absurd hv (Finset.notMem_empty v)
  visibleChildren _ := layeredLinks
  layoutChildren := layeredLinks
  isEmbedded a := a = 2
  originPlink := layeredOrigin
  parent := layeredParent
  visibleRank := layeredRank
  parent_visible := by
    intro path
    decide
  parent_origin := layeredParent_origin
  origin_injective _ _ := layeredOrigin_injective
  visibleRank_lt := by
    intro path
    decide
  query_visible := by
    intro a l hl
    rw [List.append_nil] at hl
    exact hl
  layout_visible := by
    intro a l hl
    exact hl

/-- Its engines. -/
theorem layeredPattern_nest {above : List (Fin 5)} (h : layeredPattern.InNest above) :
    above = [] ∨ above = [2] := by
  induction h with
  | root => exact Or.inl rfl
  | @embedded above plink _ hplink ih =>
      rcases ih with rfl | rfl
      · have hthree : plink = 3 := by
          have hlinks :
              layeredPattern.myEmbeddedPlinksPostorder (layeredPattern.engineAt []) = [3] := by
            decide +kernel
          rw [hlinks] at hplink
          exact List.mem_singleton.mp hplink
        rw [hthree]
        exact Or.inr rfl
      · have hlinks :
            layeredPattern.myEmbeddedPlinksPostorder (layeredPattern.engineAt [2]) = [] := by
          decide +kernel
        rw [hlinks] at hplink
        exact absurd hplink List.not_mem_nil

/-- The embedded engine's links are its origin and `5`; what it sees below `1` was passed
down, and is solved for by the engine around it. -/
theorem layeredPattern_uncoupled : layeredPattern.Uncoupled where
  disjoint := by
    intro above hnest outer houter hne
    rcases layeredPattern_nest hnest with rfl | rfl
    · exact absurd (List.suffix_nil.mp houter) hne
    · have houter := (suffix_cons_ne (2 : Fin 5)).mp ⟨houter, hne⟩
      rw [List.suffix_nil.mp houter]
      decide +kernel
  solved := by
    intro above hnest
    rcases layeredPattern_nest hnest with rfl | rfl
    · intro l _ henclosing
      exact absurd henclosing (Finset.notMem_empty l)
    · intro l hl henclosing
      refine ⟨[], List.nil_suffix, by decide, ?_⟩
      revert l
      decide +kernel

end ScrPattern

end Inferno.Engine
