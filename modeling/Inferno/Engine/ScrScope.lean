/-
  Inferno.Engine.ScrScope
  ───────────────────────
  Whether assignments are scoped to their engine.

    • `Call.Entered`  — at the entry of a call, none of the links that its engine will
                        erase is assigned, and the enclosing links that its replace layout
                        meets all are,
    • `compare_mine`  — a match assigns links of the engine only,
    • `finish_scoped` — one call: what it erases is what it has added,
    • `scoped_singleCompareReplace` — all calls of a run, by induction on the nest,
    • `disjoint_of_scoped` — a call that matches and is scoped had none of its links
                        assigned,
    • `assignments_scoped`, and three levels of coupling where the size assertion fires.
-/
import Inferno.Engine.ScrRun
import Mathlib.Data.Fin.VecNotation
import Mathlib.Data.Fintype.Basic
import Mathlib.Logic.Equiv.List

namespace Inferno.Engine

open Inferno.Common

namespace ScrPattern

variable {Agent Link X A M : Type} [LinearOrder Agent] [LinearOrder Link]
variable {G : ScrPattern Agent Link X A M} {Val W : Type} {env : Environment G Val W}

/-! ## §1. What a match assigns. -/

theorem regenerateAll_keys {P : Link → Prop} {e : ScrEngine Agent Link}
    {subordinates : StdMap Link Val} {w : W} (agents : List Agent)
    (habnormal : ∀ a ∈ agents, ∀ l ∈ (G.patternQuery a).abnormalLinks, P l) :
    ∀ (basic hit : StdMap Link Val), (∀ l ∈ basic.keys, P l) →
      regenerateAll env e subordinates w agents basic = some (some hit) → ∀ l ∈ hit.keys, P l := by
  induction agents with
  | nil =>
      intro basic hit hbasic h
      cases h
      exact hbasic
  | cons a agents ih =>
      intro basic hit hbasic h
      rw [regenerateAll] at h
      split at h
      next => cases h
      next => cases h
      next nodes hnodes =>
        split at h
        next =>
          refine ih (fun b hb => habnormal b (List.mem_cons_of_mem a hb)) _ hit ?_ h
          intro l hl
          rw [keys_assignAll, Finset.mem_union] at hl
          rcases hl with hl | hl
          · exact habnormal a List.mem_cons_self l (env.regenerate_keys _ _ _ _ _ _ hnodes l hl)
          · exact hbasic l hl
        next => cases h

omit [LinearOrder Link] in
theorem firstHit_eq {f : StdMap Link Val → Option (Option (StdMap Link Val))}
    {hit : StdMap Link Val} (solutions : List (StdMap Link Val))
    (h : firstHit f solutions = some (some hit)) : ∃ s ∈ solutions, f s = some (some hit) := by
  induction solutions with
  | nil => cases h
  | cons s solutions ih =>
      rw [firstHit] at h
      split at h
      next => cases h
      next =>
        obtain ⟨t, ht, hft⟩ := ih h
        exact ⟨t, List.mem_cons_of_mem s ht, hft⟩
      next hit' hs =>
        cases h
        exact ⟨s, List.mem_cons_self, hs⟩

/-- **A match assigns the engine's own links only**: the base link, what the solver solves
for, and abnormal links of the agents it keys. -/
theorem compare_mine {e : ScrEngine Agent Link} (he : G.Enclosed e) {x : Val}
    {universal hit : StdMap Link Val} {w : W}
    (h : compare env e x universal w = some (some hit)) : ∀ l ∈ hit.keys, l ∈ G.myPlinks e := by
  unfold compare at h
  obtain ⟨solutions, hsolve, h⟩ := Option.bind_eq_some_iff.mp h
  obtain ⟨s, hs, h⟩ := firstHit_eq solutions h
  unfold onSolution at h
  dsimp only at h
  split at h
  next =>
    refine regenerateAll_keys _ ?_ _ _ ?_ h
    · intro a ha l hl
      exact he.abnormal_mine (mem_inOrder.mp ha) hl
    · intro l hl
      refine he.preorder_mine ?_
      rw [StdMap.keys_set, Finset.mem_insert] at hl
      rcases hl with rfl | hl
      · exact PatternGraph.mem_preorder.mpr .refl
      · rw [env.solve_keys _ _ _ _ _ hsolve s hs] at hl
        exact List.mem_toFinset.mp (Finset.mem_of_mem_erase hl)
  next => cases h

/-! ## §2. One call. -/

/-- The entry of a call: no link that its engine will erase is assigned, and every enclosing
link that its replace layout meets is. -/
def Call.Entered (G : ScrPattern Agent Link X A M) (c : Call Agent Link Val) : Prop :=
  Disjoint c.entry.keys (G.myPlinks c.engine)
    ∧ ∀ l ∈ G.layoutPlinks c.engine, l ∈ c.engine.enclosingPlinks → l ∈ c.entry.keys

/-- The end of a loop: the keys are those it began with. -/
def Outcome.KeysKept (entry : StdMap Link Val) : Outcome Link Val → Prop
  | .returned m => m.keys = entry.keys
  | .mismatch m => m.keys = entry.keys
  | .stopped => True
  | .sizeAssertion => False

omit [LinearOrder Link] in
theorem Outcome.Scoped.keysKept {entry : StdMap Link Val} {o : Outcome Link Val}
    (h : o.Scoped entry) : o.KeysKept entry := by
  cases o with
  | returned m => exact h
  | mismatch m =>
      have hm : m = entry := h
      show m.keys = entry.keys
      rw [hm]
  | stopped => trivial
  | sizeAssertion => exact h

omit [LinearOrder Agent] in
/-- **One call**: after a match, an update and embedded engines that keep the keys, erasing
the engine's links leaves the keys of the entry. -/
theorem finish_scoped {e : ScrEngine Agent Link} {entry solution assignments : StdMap Link Val}
    {r : Run Agent Link Val W} (hdisjoint : Disjoint entry.keys (G.myPlinks e))
    (hassigned : ∀ l ∈ G.layoutPlinks e, l ∈ e.enclosingPlinks → l ∈ entry.keys)
    (hsolution : ∀ l ∈ solution.keys, l ∈ G.myPlinks e)
    (hassignments : ∀ l ∈ assignments.keys, l ∈ G.layoutPlinks e)
    (hr : r.outcome.KeysKept (assignAll (assignAll entry solution) assignments)) :
    (finish (G := G) e entry r).Scoped entry := by
  unfold finish
  cases hout : r.outcome with
  | returned m =>
      rw [hout] at hr
      have hm : m.keys = assignments.keys ∪ (solution.keys ∪ entry.keys) := hr
      have hkeys : (eraseAll m (G.myPlinks e)).keys = entry.keys := by
        rw [keys_eraseAll, hm]
        ext l
        rw [Finset.mem_sdiff, Finset.mem_union, Finset.mem_union]
        constructor
        · intro h
          rcases h.1 with hl | hl | hl
          · -- an enclosing link of the layout was assigned before
            refine hassigned l (hassignments l hl) ?_
            by_contra hout
            exact h.2 (mem_myPlinks.mpr ⟨layoutPlinks_visible (hassignments l hl), hout⟩)
          · exact absurd (hsolution l hl) h.2
          · exact hl
        · intro hl
          exact ⟨Or.inr (Or.inr hl), Finset.disjoint_left.mp hdisjoint hl⟩
      show Outcome.Scoped entry (if (eraseAll m (G.myPlinks e)).keys.card = entry.keys.card then
        .returned (eraseAll m (G.myPlinks e)) else .sizeAssertion)
      rw [if_pos (by rw [hkeys])]
      exact hkeys
  | mismatch m => trivial
  | stopped => trivial
  | sizeAssertion =>
      rw [hout] at hr
      exact hr.elim

/-! ## §3. Loops. -/

variable (G)

/-- What is proved of every run: when all calls that match are entered well, all calls end
well, and the run keeps the keys it began with. -/
def Keeps (entry : StdMap Link Val) (r : Run Agent Link Val W) : Prop :=
  (∀ c ∈ r.log, c.matched = true → Call.Entered G c) →
    (∀ c ∈ r.log, c.outcome.Scoped c.entry) ∧ r.outcome.KeysKept entry

variable {G}

omit [LinearOrder Agent] in
theorem Keeps.andThen {entry : StdMap Link Val} {r : Run Agent Link Val W}
    {next : StdMap Link Val → W → Run Agent Link Val W} (hr : Keeps G entry r)
    (hnext : ∀ m w, m.keys = entry.keys → Keeps G m (next m w)) :
    Keeps G entry (r.andThen next) := by
  unfold Run.andThen
  cases hout : r.outcome with
  | returned m =>
      intro hentered
      have hlog : ∀ c ∈ r.log, c.matched = true → Call.Entered G c := by
        intro c hc
        exact hentered c (List.mem_append_left _ hc)
      obtain ⟨hscoped, hkeys⟩ := hr hlog
      -- the first part keeps the keys, so the next starts with those of the entry
      rw [hout] at hkeys
      have hm : m.keys = entry.keys := hkeys
      obtain ⟨hscoped', hkeys'⟩ := hnext m r.world hm
        (fun c hc => hentered c (List.mem_append_right _ hc))
      refine ⟨?_, ?_⟩
      · intro c hc
        rcases List.mem_append.mp hc with hc | hc
        · exact hscoped c hc
        · exact hscoped' c hc
      · show (next m r.world).outcome.KeysKept entry
        cases hout' : (next m r.world).outcome with
        | returned m' =>
            rw [hout'] at hkeys'
            exact (show m'.keys = m.keys from hkeys').trans hm
        | mismatch m' =>
            rw [hout'] at hkeys'
            exact (show m'.keys = m.keys from hkeys').trans hm
        | stopped => trivial
        | sizeAssertion =>
            rw [hout'] at hkeys'
            exact hkeys'
  | mismatch m =>
      show Keeps G entry r
      exact hr
  | stopped =>
      show Keeps G entry r
      exact hr
  | sizeAssertion =>
      show Keeps G entry r
      exact hr

omit [LinearOrder Agent] in
/-- The loop of repetitions. -/
theorem keeps_repeating {single : StdMap Link Val → W → Run Agent Link Val W} {limit : Bool}
    (hsingle : ∀ m w, Keeps G m (single m w)) (attempts : Nat) :
    ∀ (m : StdMap Link Val) (w : W), Keeps G m (repeating single limit attempts m w) := by
  induction attempts with
  | zero =>
      intro m w _
      refine ⟨by simp [repeating], ?_⟩
      unfold repeating
      cases limit with
      | true => trivial
      | false => rfl
  | succ attempts ih =>
      intro m w
      have hkeep := hsingle m w
      rw [repeating]
      split
      next m' hout =>
        intro hentered
        obtain ⟨hscoped, hkeys⟩ := hkeep hentered
        rw [hout] at hkeys
        exact ⟨hscoped, hkeys⟩
      next => exact hkeep.andThen (fun m' w' _ => ih m' w')

omit [LinearOrder Agent] in
/-- The loop over the embedded engines. -/
theorem keeps_runEmbeddeds {rcr : Agent → Val → StdMap Link Val → W → Run Agent Link Val W}
    (hrcr : ∀ agent x m w, Keeps G m (rcr agent x m w)) (plinks : List Link) :
    ∀ (m : StdMap Link Val) (w : W), Keeps G m (runEmbeddeds (G := G) rcr plinks m w) := by
  induction plinks with
  | nil =>
      intro m w _
      exact ⟨by simp [runEmbeddeds], rfl⟩
  | cons plink plinks ih =>
      intro m w
      rw [runEmbeddeds]
      split
      next =>
        intro _
        exact ⟨by simp, trivial⟩
      next embeddedOrigin _ =>
        exact (hrcr _ _ _ _).andThen (fun m' w' _ => ih m' w')

/-! ## §4. All calls. -/

/-- **All calls of a run**, by induction on the nest: the embedded engines are enclosed too. -/
theorem scoped_singleCompareReplace (depth : Nat) :
    ∀ (e : ScrEngine Agent Link) (x : Val) (m : StdMap Link Val) (w : W), G.Enclosed e →
      Keeps G m (singleCompareReplace env depth e x m w) := by
  induction depth with
  | zero =>
      intro e x m w _ _
      exact ⟨by simp [singleCompareReplace], trivial⟩
  | succ depth ih =>
      intro e x m w he
      rw [singleCompareReplace]
      split
      next =>
        intro _
        exact ⟨List.forall_mem_singleton.mpr trivial, trivial⟩
      next =>
        intro _
        exact ⟨List.forall_mem_singleton.mpr rfl, rfl⟩
      next solution hcompare =>
        split
        next =>
          intro _
          exact ⟨List.forall_mem_singleton.mpr trivial, trivial⟩
        next assignments w' hupdate =>
          intro hentered
          -- an embedded engine keeps what it finds, however often it repeats
          have hrcr : ∀ agent y n v,
              Keeps G n (repeating (singleCompareReplace env depth (G.myEngine e agent) y)
                (env.limit (G.myEngine e agent) v) (env.attempts (G.myEngine e agent) v) n v) := by
            intro agent y n v
            exact keeps_repeating (fun n' v' => ih _ y n' v' (he.myEngine agent)) _ n v
          have hloop := keeps_runEmbeddeds hrcr (G.myEmbeddedPlinksPostorder e)
            (assignAll (assignAll m solution) assignments) w'
          obtain ⟨hscoped, hkeys⟩ := hloop (fun c hc => hentered c (List.mem_append_left _ hc))
          -- and the engine itself was entered well
          obtain ⟨hdisjoint, hassigned⟩ := hentered _
            (List.mem_append_right _ List.mem_cons_self) rfl
          have hfinish := finish_scoped hdisjoint hassigned (compare_mine he hcompare)
            (env.update_keys _ _ _ _ _ _ hupdate) hkeys
          refine ⟨?_, hfinish.keysKept⟩
          intro c hc
          rcases List.mem_append.mp hc with hc | hc
          · exact hscoped c hc
          · rw [List.mem_singleton.mp hc]
            exact hfinish

/-! ## §5. The condition is needed. -/

omit [LinearOrder Agent] [LinearOrder Link] in
/-- A property of every call that an engine logs holds of the log of a run. -/
theorem log_andThen {P : Call Agent Link Val → Prop} {r : Run Agent Link Val W}
    {next : StdMap Link Val → W → Run Agent Link Val W} (hr : ∀ c ∈ r.log, P c)
    (hnext : ∀ m w, ∀ c ∈ (next m w).log, P c) : ∀ c ∈ (r.andThen next).log, P c := by
  unfold Run.andThen
  cases r.outcome with
  | returned m =>
      intro c hc
      rcases List.mem_append.mp hc with hc | hc
      · exact hr c hc
      · exact hnext _ _ c hc
  | mismatch m => exact hr
  | stopped => exact hr
  | sizeAssertion => exact hr

omit [LinearOrder Agent] [LinearOrder Link] in
theorem log_repeating {P : Call Agent Link Val → Prop}
    {single : StdMap Link Val → W → Run Agent Link Val W} {limit : Bool}
    (hsingle : ∀ m w, ∀ c ∈ (single m w).log, P c) (attempts : Nat) :
    ∀ (m : StdMap Link Val) (w : W), ∀ c ∈ (repeating single limit attempts m w).log, P c := by
  induction attempts with
  | zero =>
      intro m w c hc
      exact absurd hc List.not_mem_nil
  | succ attempts ih =>
      intro m w
      rw [repeating]
      split
      next => exact hsingle m w
      next => exact log_andThen (hsingle m w) ih

omit [LinearOrder Agent] in
theorem log_runEmbeddeds {P : Call Agent Link Val → Prop}
    {rcr : Agent → Val → StdMap Link Val → W → Run Agent Link Val W}
    (hrcr : ∀ agent x m w, ∀ c ∈ (rcr agent x m w).log, P c) (plinks : List Link) :
    ∀ (m : StdMap Link Val) (w : W), ∀ c ∈ (runEmbeddeds (G := G) rcr plinks m w).log, P c := by
  induction plinks with
  | nil =>
      intro m w c hc
      exact absurd hc List.not_mem_nil
  | cons plink plinks ih =>
      intro m w
      rw [runEmbeddeds]
      split
      next =>
        intro c hc
        exact absurd hc List.not_mem_nil
      next => exact log_andThen (hrcr _ _ _ _) ih

/-- A call that matches and returns leaves none of its engine's links assigned. -/
theorem log_singleCompareReplace (depth : Nat) :
    ∀ (e : ScrEngine Agent Link) (x : Val) (m : StdMap Link Val) (w : W),
      ∀ c ∈ (singleCompareReplace env depth e x m w).log, c.matched = true →
        ∀ m', c.outcome = .returned m' → Disjoint m'.keys (G.myPlinks c.engine) := by
  induction depth with
  | zero =>
      intro e x m w c hc
      exact absurd hc List.not_mem_nil
  | succ depth ih =>
      intro e x m w
      rw [singleCompareReplace]
      split
      next => simp
      next => simp
      next =>
        split
        next => simp
        next =>
          -- a call of an embedded engine, or the one of this engine, which is the last
          intro c hc
          rcases List.mem_append.mp hc with hc | hc
          · exact log_runEmbeddeds
              (fun agent y n v => log_repeating (fun n' v' => ih _ y n' v') _ n v)
              _ _ _ c hc
          · rw [List.mem_singleton.mp hc]
            intro _ m' hout
            have hfinish : finish (G := G) e m _ = Outcome.returned m' := hout
            unfold finish at hfinish
            split at hfinish
            next m₃ _ =>
              dsimp only at hfinish
              split at hfinish
              next =>
                cases hfinish
                rw [keys_eraseAll]
                exact Finset.sdiff_disjoint
              next => cases hfinish
            next => cases hfinish

/-- **A call that matches, ends and is scoped was entered with none of its engine's links
assigned**: those links are erased, whoever assigned them. -/
theorem disjoint_of_scoped {depth : Nat} {x : Val} {w : W} {c : Call Agent Link Val}
    (hc : c ∈ (repeatingCompareReplace env depth x w).log) (hmatched : c.matched = true)
    (hscoped : c.outcome.Scoped c.entry) {m : StdMap Link Val} (hout : c.outcome = .returned m) :
    Disjoint c.entry.keys (G.myPlinks c.engine) := by
  have hdisjoint := log_repeating (fun n v => log_singleCompareReplace depth .root x n v)
    _ _ _ c hc hmatched m hout
  rw [hout] at hscoped
  have hkeys : m.keys = c.entry.keys := hscoped
  rwa [hkeys] at hdisjoint

/-! ## §6. Runs. -/

/-- **Assignments are scoped to their engine**, in every run whose matching calls are all
entered with none of the engine's own links assigned. -/
theorem assignments_scoped (env : Environment G Val W) (depth : Nat) (x : Val) (w : W)
    (h : ∀ c ∈ (repeatingCompareReplace env depth x w).log, c.matched = true →
      Call.Entered G c) :
    ∀ c ∈ (repeatingCompareReplace env depth x w).log, c.outcome.Scoped c.entry := by
  have hkeeps : Keeps G .empty (repeatingCompareReplace env depth x w) :=
    keeps_repeating (fun m v => scoped_singleCompareReplace depth .root x m v enclosed_root) _ _ _
  exact (hkeeps h).1

/-! ## §7. Three levels of coupling. -/

/-- The links of the pattern below that are not origins, with the agents they hang from. -/
def coupledParent : Nat → Option (Fin 9)
  | 1 => some 0
  | 3 => some 0
  | 5 => some 2
  | 7 => some 4
  | 9 => some 5
  | 11 => some 4
  | 13 => some 6
  | 15 => some 8
  | _ => none

/-- And the agents they lead to; an even link is an origin. -/
def coupledChild (l : Nat) : Fin 9 :=
  if l = 1 ∨ l = 9 then 1
  else if l = 3 then 2
  else if l = 5 then 3
  else if l = 7 ∨ l = 15 then 5
  else if l = 11 then 6
  else if l = 13 then 7
  else if l = 2 * Encodable.encode ([2] : List (Fin 9)) then 4
  else if l = 2 * Encodable.encode ([6, 2] : List (Fin 9)) then 8
  else 0

def coupledLinks : Fin 9 → List Nat :=
  ![[1, 3], [], [5], [], [7, 11], [9], [13], [], [15]]

def coupledRank : Fin 9 → Nat := ![2, 0, 1, 0, 2, 1, 1, 0, 2]

theorem coupledRank_lt (a : Fin 9) (l : Nat) (h : coupledParent l = some a) :
    coupledRank (coupledChild l) < coupledRank a := by
  unfold coupledParent at h
  split at h <;> cases h <;> decide

theorem coupledParent_origin (engine : List (Fin 9)) :
    coupledParent (2 * Encodable.encode engine) = none := by
  unfold coupledParent
  split <;> first | omega | rfl

/-- Three levels.  The outermost pattern (agent `0`) has an agent `1` and an embedded pattern
`2`; that one (agent `4`) has an agent `5` whose own link `9` leads to `1`, and an embedded
pattern `6`; and that one (agent `8`) refers to `5` by its link `15`. -/
def coupledPattern : ScrPattern (Fin 9) Nat Unit Unit Unit where
  childAgent := coupledChild
  patternQuery a := ⟨coupledLinks a, [], []⟩
  isDisjunction _ := false
  symbolicNormalLinkedQuery _ _ := .constant true
  owner l := (coupledParent l).map (·, .normal)
  rank := coupledRank
  owner_normal := by decide
  owner_abnormal := by simp
  owner_multiplicity := by simp
  rank_lt := by
    intro a l kind h
    rw [Option.map_eq_some_iff] at h
    obtain ⟨b, hb, heq⟩ := h
    cases heq
    exact coupledRank_lt a l hb
  required := by
    intro a keyer v hv
    exact absurd hv (Finset.notMem_empty v)
  visibleChildren _ := coupledLinks
  layoutChildren := coupledLinks
  isEmbedded a := a = 2 ∨ a = 6
  originPlink engine := 2 * Encodable.encode engine
  parent := coupledParent
  visibleRank := coupledRank
  parent_visible := by
    intro path
    decide
  parent_origin := coupledParent_origin
  origin_injective := by
    intro engine engine' h
    exact Encodable.encode_injective (Nat.eq_of_mul_eq_mul_left (by decide) h)
  visibleRank_lt := by
    intro path
    decide
  query_visible := by
    intro a l hl
    rw [List.append_nil] at hl
    exact hl
  layout_visible := by
    intro a l hl
    exact hl

/-- An assignment of one value to a set of links. -/
def assignEach (plinks : Finset Nat) : StdMap Nat Unit :=
  ⟨fun l => if l ∈ plinks then some () else none, plinks, by
    intro l
    by_cases h : l ∈ plinks <;> simp [h]⟩

/-- Engines under fewer than `depth` others match once; the update assigns all the links of
the layout. -/
def matchAbove (depth : Nat) : Environment coupledPattern Unit Unit where
  solve e _ _ _ :=
    if e.above.length < depth then
      some [assignEach ((coupledPattern.normalAndBoundaryLinksPreorder (andRuleSurroundings e)
        (coupledPattern.origin e)).toFinset.erase (coupledPattern.origin e))]
    else some []
  regenerate _ _ _ _ _ := some (some .empty)
  updateMainTree e _ _ w := some (assignEach (coupledPattern.layoutPlinks e).toFinset, w)
  attempts _ _ := 1
  limit _ _ := false
  solve_keys := by
    intro e x m w solutions h s hs
    split at h
    next =>
      rw [← Option.some.inj h, List.mem_singleton] at hs
      rw [hs]
      rfl
    next =>
      rw [← Option.some.inj h] at hs
      exact absurd hs List.not_mem_nil
  regenerate_keys := by
    intro e a basic subordinates w nodes h l hl
    rw [← Option.some.inj (Option.some.inj h)] at hl
    exact absurd hl (Finset.notMem_empty l)
  update_keys := by
    intro e x m w assignments w' h l hl
    have hkeys : assignments = assignEach (coupledPattern.layoutPlinks e).toFinset :=
      (congrArg Prod.fst (Option.some.inj h)).symm
    rw [hkeys] at hl
    exact List.mem_toFinset.mp hl

/-- The and-rule planner accepts the pattern of an engine and, one by one, those embedded in
it, each with the keyers of those above. -/
def plansAccepted : List (Fin 9) → Surroundings (Fin 9) Nat → ScrEngine (Fin 9) Nat → Bool
  | [], S, e => (coupledPattern.planEngine S (coupledPattern.origin e)).isSome
  | agent :: agents, S, e =>
      match coupledPattern.planEngine S (coupledPattern.origin e) with
      | none => false
      | some p => plansAccepted agents
          ⟨(coupledPattern.myEngine e agent).enclosingPlinks,
            p.couplingKeyerLinksAll ∪ S.keyerPlinks, coupledPattern.agentsToKeyers p.toKeying,
            coupledPattern.agentsToResiduals p.toKeying⟩
          (coupledPattern.myEngine e agent)

/-- Is it the size assertion? -/
def Outcome.isSizeAssertion : Outcome Nat Unit → Bool
  | .sizeAssertion => true
  | _ => false

/-- **The size assertion fires** in the innermost engine: the link `9` is assigned by the
engine above it, which does not pass it down because of the agent that it leads to. -/
theorem assignments_lost :
    plansAccepted [2, 6] .none .root = true
      ∧ ∃ c ∈ (repeatingCompareReplace (matchAbove 3) 3 () ()).log,
          c.matched = true ∧ ¬ c.outcome.Scoped c.entry := by
  refine ⟨by decide +kernel, ?_⟩
  have hfired : (repeatingCompareReplace (matchAbove 3) 3 () ()).log.any
      (fun c => c.matched && c.outcome.isSizeAssertion) = true := by decide +kernel
  obtain ⟨c, hc, hfired⟩ := List.any_eq_true.mp hfired
  rw [Bool.and_eq_true] at hfired
  refine ⟨c, hc, hfired.1, ?_⟩
  intro hscoped
  cases hout : c.outcome with
  | sizeAssertion =>
      rw [hout] at hscoped
      exact hscoped
  | _ =>
      rw [hout] at hfired
      exact absurd hfired.2 Bool.false_ne_true

/-- When the innermost engine finds no match, the other two keep their assignments. -/
theorem assignments_scoped_above :
    (repeatingCompareReplace (matchAbove 2) 3 () ()).log.any (·.matched) = true
      ∧ ∀ c ∈ (repeatingCompareReplace (matchAbove 2) 3 () ()).log,
          c.outcome.Scoped c.entry := by
  refine ⟨by decide +kernel, assignments_scoped (matchAbove 2) 3 () () ?_⟩
  unfold Call.Entered
  decide +kernel

end ScrPattern

end Inferno.Engine
