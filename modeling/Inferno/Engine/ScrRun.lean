/-
  Inferno.Engine.ScrRun
  ─────────────────────
  A run of nested search/replaces over one shared map of assignments.

    • `Environment`           — the solver, the regeneration of an agent and the update
                                of the tree, each with the links it can answer for,
    • `onSolution`, `compare` — `AndRuleEngine::OnSolution` and `Compare`,
    • `singleCompareReplace`  — `SCREngine::SingleCompareReplace`, with what it does to
                                `universal_assignments`,
    • `repeating`, `runEmbeddeds` — the loops around it and inside it,
    • `Call`                  — one call in the log of a run: what it was given, and how
                                it ended.
-/
import Inferno.Engine.ScrPlan

namespace Inferno.Engine

open Inferno.Common

/-! ## §1. Maps of assignments. -/

section

variable {Link Val : Type} [LinearOrder Link]

/-- `for( auto p : solution ) assignments[p.first] = p.second`. -/
def assignAll (assignments solution : StdMap Link Val) : StdMap Link Val :=
  solution.merge assignments

/-- `for( PatternLink plink : plinks ) assignments.erase( plink )`. -/
def eraseAll (assignments : StdMap Link Val) (plinks : Finset Link) : StdMap Link Val :=
  (inOrder plinks).foldl (fun m plink => m.erase plink) assignments

theorem keys_assignAll (assignments solution : StdMap Link Val) :
    (assignAll assignments solution).keys = solution.keys ∪ assignments.keys := rfl

theorem keys_foldl_erase (l : List Link) : ∀ m : StdMap Link Val,
    (l.foldl (fun m plink => m.erase plink) m).keys = m.keys \ l.toFinset := by
  induction l with
  | nil => intro m; simp
  | cons plink l ih =>
      intro m
      rw [List.foldl_cons, ih, StdMap.keys_erase, List.toFinset_cons, Finset.sdiff_insert,
        Finset.erase_sdiff_comm]

theorem keys_eraseAll (assignments : StdMap Link Val) (plinks : Finset Link) :
    (eraseAll assignments plinks).keys = assignments.keys \ plinks := by
  unfold eraseAll
  rw [keys_foldl_erase]
  congr 1
  ext l
  rw [List.mem_toFinset, mem_inOrder]

end

namespace ScrPattern

variable {Agent Link X A M : Type} [LinearOrder Agent] [LinearOrder Link]

/-! ## §2. The environment of a run. -/

/-- What a run does not decide: the values the solver finds, the nodes an agent regenerates,
what the update makes of the tree, and how often the command line lets an engine repeat.
`W` is the state of the tree and its database; `none` is an assertion or a failing `at()`. -/
structure Environment (G : ScrPattern Agent Link X A M) (Val W : Type) where
  /-- The solutions that the CSP solver reports, in order. -/
  solve : ScrEngine Agent Link → Val → StdMap Link Val → W → Option (List (StdMap Link Val))
  /-- The abnormal nodes of a query that matches, or no further query. -/
  regenerate : ScrEngine Agent Link → Agent → StdMap Link Val → StdMap Link Val → W →
    Option (Option (StdMap Link Val))
  /-- `CreateReplaceLayout` and `UpdateMainTree`. -/
  updateMainTree : ScrEngine Agent Link → Val → StdMap Link Val → W →
    Option (StdMap Link Val × W)
  /-- What `repetitions` and `stop_after` allow. -/
  attempts : ScrEngine Agent Link → W → Nat
  /-- To use them up is an error, by `rep_error`. -/
  limit : ScrEngine Agent Link → W → Bool
  /-- The solver reports assignments of the free links. -/
  solve_keys : ∀ e x m w solutions, solve e x m w = some solutions → ∀ s ∈ solutions,
    s.keys = (G.normalAndBoundaryLinksPreorder (andRuleSurroundings e)
      (G.origin e)).toFinset.erase (G.origin e)
  /-- An agent registers nodes for its abnormal links. -/
  regenerate_keys : ∀ e a basic subordinates w nodes,
    regenerate e a basic subordinates w = some (some nodes) →
      ∀ l ∈ nodes.keys, l ∈ (G.patternQuery a).abnormalLinks
  /-- The links assigned by the update are originators of the layout. -/
  update_keys : ∀ e x m w assignments w', updateMainTree e x m w = some (assignments, w') →
    ∀ l ∈ assignments.keys, l ∈ G.layoutPlinks e

variable {G : ScrPattern Agent Link X A M} {Val W : Type} (env : Environment G Val W)

/-! ## §3. Comparing. -/

/-- The loop over `my_normal_agents`: the keys that replace needs are added to the solution.
The inner `none` is a mismatch. -/
def regenerateAll (e : ScrEngine Agent Link) (subordinates : StdMap Link Val) (w : W) :
    List Agent → StdMap Link Val → Option (Option (StdMap Link Val))
  | [], basic => some (some basic)
  | a :: agents, basic =>
      match env.regenerate e a basic subordinates w with
      | none => none
      | some none => some none
      | some (some nodes) =>
          if Disjoint nodes.keys basic.keys then
            regenerateAll e subordinates w agents (assignAll basic nodes)
          else none

/-- `AndRuleEngine::OnSolution`: the solution, or `some none` to try the next one. -/
def onSolution (e : ScrEngine Agent Link) (baseXLink : Val) (universal : StdMap Link Val)
    (w : W) (solution : StdMap Link Val) : Option (Option (StdMap Link Val)) :=
  let basic := solution.set (G.origin e) baseXLink
  if G.myNormalLinks (andRuleSurroundings e) (G.origin e) ⊆ basic.keys then
    regenerateAll env e (assignAll universal basic) w
      (inOrder (G.myNormalAgents (andRuleSurroundings e) (G.origin e))) basic
  else none

/-- The solver's loop: the first solution that succeeds ends it. -/
def firstHit (f : StdMap Link Val → Option (Option (StdMap Link Val))) :
    List (StdMap Link Val) → Option (Option (StdMap Link Val))
  | [] => some none
  | s :: solutions =>
      match f s with
      | none => none
      | some none => firstHit f solutions
      | some (some hit) => some (some hit)

/-- `AndRuleEngine::Compare`: the inner `none` is an `AndRuleMismatch`. -/
def compare (e : ScrEngine Agent Link) (baseXLink : Val) (universal : StdMap Link Val) (w : W) :
    Option (Option (StdMap Link Val)) := do
  let solutions ← env.solve e baseXLink universal w
  firstHit (onSolution env e baseXLink universal w) solutions

/-! ## §4. The run. -/

/-- How a call ends, with the map as it leaves it. -/
inductive Outcome (Link Val : Type) where
  | returned (assignments : StdMap Link Val)
  | mismatch (assignments : StdMap Link Val)
  /-- Another assertion, or an exception that is no mismatch. -/
  | stopped
  /-- The assertion on the size of the map. -/
  | sizeAssertion

/-- One call of `SingleCompareReplace`. -/
structure Call (Agent Link Val : Type) where
  engine : ScrEngine Agent Link
  entry : StdMap Link Val
  /-- Its `Compare` found a match. -/
  matched : Bool
  outcome : Outcome Link Val

/-- What a run leaves: the calls in the order they end, how it ends, and the tree. -/
structure Run (Agent Link Val W : Type) where
  log : List (Call Agent Link Val)
  outcome : Outcome Link Val
  world : W

/-- What follows when a run returns. -/
def Run.andThen (r : Run Agent Link Val W) (next : StdMap Link Val → W → Run Agent Link Val W) :
    Run Agent Link Val W :=
  match r.outcome with
  | .returned m =>
      let r' := next m r.world
      ⟨r.log ++ r'.log, r'.outcome, r'.world⟩
  | _ => r

/-- The loop of `RepeatingCompareReplace`; a mismatch ends it. -/
def repeating (single : StdMap Link Val → W → Run Agent Link Val W) (limit : Bool) :
    Nat → StdMap Link Val → W → Run Agent Link Val W
  | 0, m, w => ⟨[], if limit then .stopped else .returned m, w⟩
  | attempts + 1, m, w =>
      let r := single m w
      match r.outcome with
      | .mismatch m' => ⟨r.log, .returned m', r.world⟩
      | _ => r.andThen (repeating single limit attempts)

/-- The loop over the embedded engines; `RunEmbedded` finds the new origin in the map. -/
def runEmbeddeds (rcr : Agent → Val → StdMap Link Val → W → Run Agent Link Val W) :
    List Link → StdMap Link Val → W → Run Agent Link Val W
  | [], m, w => ⟨[], .returned m, w⟩
  | plink :: plinks, m, w =>
      match m.lookup plink with
      | none => ⟨[], .stopped, w⟩
      | some embeddedOrigin =>
          (rcr (G.childAgent plink) embeddedOrigin m w).andThen (runEmbeddeds rcr plinks)

/-- How `SingleCompareReplace` ends, once its embedded engines have run: it erases its links
and checks the size. -/
def finish (e : ScrEngine Agent Link) (entry : StdMap Link Val) (r : Run Agent Link Val W) :
    Outcome Link Val :=
  match r.outcome with
  | .returned m =>
      let erased := eraseAll m (G.myPlinks e)
      if erased.keys.card = entry.keys.card then .returned erased else .sizeAssertion
  | _ => .stopped

/-- `SCREngine::SingleCompareReplace`.  The number bounds the depth of the nest. -/
def singleCompareReplace :
    Nat → ScrEngine Agent Link → Val → StdMap Link Val → W → Run Agent Link Val W
  | 0, _, _, _, w => ⟨[], .stopped, w⟩
  | depth + 1, e, originXLink, m, w =>
      match compare env e originXLink m w with
      | none => ⟨[⟨e, m, false, .stopped⟩], .stopped, w⟩
      | some none => ⟨[⟨e, m, false, .mismatch m⟩], .mismatch m, w⟩
      | some (some solution) =>
          match env.updateMainTree e originXLink (assignAll m solution) w with
          | none => ⟨[⟨e, m, true, .stopped⟩], .stopped, w⟩
          | some (replaceAssignments, w') =>
              let r := runEmbeddeds (G := G)
                (fun agent x m w => repeating (singleCompareReplace depth (G.myEngine e agent) x)
                  (env.limit (G.myEngine e agent) w) (env.attempts (G.myEngine e agent) w) m w)
                (G.myEmbeddedPlinksPostorder e)
                (assignAll (assignAll m solution) replaceAssignments) w'
              ⟨r.log ++ [⟨e, m, true, finish (G := G) e m r⟩], finish (G := G) e m r, r.world⟩

/-- `RepeatingCompareReplace` of the outermost engine, from an empty map. -/
def repeatingCompareReplace (depth : Nat) (originXLink : Val) (w : W) :
    Run Agent Link Val W :=
  repeating (singleCompareReplace env depth .root originXLink) (env.limit .root w)
    (env.attempts .root w) .empty w

/-! ## §5. What a call is asked for. -/

/-- A call ends well: a mismatch leaves the map unchanged, a return leaves its keys, and the
size assertion does not fire. -/
def Outcome.Scoped (entry : StdMap Link Val) : Outcome Link Val → Prop
  | .returned m => m.keys = entry.keys
  | .mismatch m => m = entry
  | .stopped => True
  | .sizeAssertion => False

end ScrPattern

end Inferno.Engine
