/-
  Inferno.Agents.SequencePlan
  ───────────────────────────
  `StandardAgent::Plan::Sequence`: what planning reads off a pattern sequence.

    • `SequencePlan`        — the plan's fields,
    • `SequencePlan.step`   — the body of the constructor's loop,
    • `SequencePlan.make`   — the constructor,
    • `make_holds_iff`      — constraints on the plan's sets are the constraints on
                              the letters of the pattern.
-/
import Inferno.Common.StdMap
import Inferno.Lib.Wildcard

namespace Inferno.Agents

open Inferno.Lib

/-! ## §1. The plan. -/

/-- `Plan::Sequence::Run`: stars, and the non-stars around them. -/
structure Run (V : Type) where
  predecessor : Option V
  elts : List V
  successor : Option V
deriving DecidableEq

/-- `Plan::Sequence`.  Pattern links are `V`; an iterator is an index, and the set of
runs, which are keyed by address, is listed in the order they are made. -/
structure SequencePlan (V : Type) where
  itemiseIndex : Nat
  numNonStar : Nat
  pitLastStar : Option Nat
  plinkFront : Option V
  plinkBack : Option V
  nonStars : Finset V
  adjacentNonStars : Finset (V × V)
  gappedNonStars : Finset (V × V)
  nonStarAtFront : Option V
  nonStarAtBack : Option V
  starRuns : List (Run V)

namespace SequencePlan

variable {V : Type}

/-- What the constructor's loop updates: the plan, and its two local queues. -/
structure Progress (V : Type) where
  plan : SequencePlan V
  nonStarQueue : Option V
  starsQueue : List V

/-- `run_lambda`. -/
def Progress.run (st : Progress V) (plink : Option V) : Progress V :=
  { st with
    plan := { st.plan with
      starRuns := st.plan.starRuns ++ [⟨st.nonStarQueue, st.starsQueue, plink⟩] }
    starsQueue := [] }

/-- The plan before the loop. -/
def start (itemiseIndex : Nat) : SequencePlan V :=
  ⟨itemiseIndex, 0, none, none, none, ∅, ∅, ∅, none, none, []⟩

section

variable [DecidableEq V]

/-- The pair of the queued non-star and this one goes into one of the two sets. -/
def Progress.pair (st : Progress V) (plink : V) : SequencePlan V :=
  match st.nonStarQueue with
  | none => st.plan
  | some nonStar =>
      if st.starsQueue.length > 0 then
        { st.plan with gappedNonStars := insert (nonStar, plink) st.plan.gappedNonStars }
      else
        { st.plan with adjacentNonStars := insert (nonStar, plink) st.plan.adjacentNonStars }

/-- The body of the loop, at pattern element `pit`. -/
def step (isStar : V → Bool) (st : Progress V) (pit : V × Nat) : Progress V :=
  if isStar pit.1 then
    { st with
      plan := { st.plan with pitLastStar := some pit.2 }
      starsQueue := st.starsQueue ++ [pit.1] }
  else
    let st := { st with plan := st.pair pit.1 }
    let st := st.run (some pit.1)
    { st with
      plan := { st.plan with
        nonStars := insert pit.1 st.plan.nonStars
        numNonStar := st.plan.numNonStar + 1 }
      nonStarQueue := some pit.1 }

/-- The constructor. -/
def make (isStar : V → Bool) (itemiseIndex : Nat) (pattern : List V) : SequencePlan V :=
  let st := pattern.zipIdx.foldl (step isStar) ⟨start itemiseIndex, none, []⟩
  let plan := (st.run none).plan
  { plan with
    plinkFront := pattern.head?
    nonStarAtFront := pattern.head?.filter (fun plink => !isStar plink)
    plinkBack := pattern.getLast?
    nonStarAtBack := pattern.getLast?.filter (fun plink => !isStar plink) }

/-- The pattern as a wildcard: a star is a star, another child a letter. -/
def wildcard (isStar : V → Bool) (pattern : List V) : List (Option V) :=
  pattern.map (fun plink => if isStar plink then none else some plink)

theorem make_itemiseIndex (isStar : V → Bool) (itemiseIndex : Nat) (pattern : List V) :
    (make isStar itemiseIndex pattern).itemiseIndex = itemiseIndex := by
  have hfold : ∀ (l : List (V × Nat)) (st : Progress V),
      (l.foldl (step isStar) st).plan.itemiseIndex = st.plan.itemiseIndex := by
    intro l
    induction l with
    | nil => intro st; rfl
    | cons pit l ih =>
        intro st
        rw [List.foldl_cons, ih]
        unfold step Progress.run Progress.pair
        cases isStar pit.1 with
        | true => rfl
        | false =>
            cases st.nonStarQueue with
            | none => rfl
            | some nonStar =>
                by_cases hgap : st.starsQueue.length > 0 <;> simp [hgap]
  exact hfold _ _

/-! ## §2. Constraints on the plan. -/

/-- Constraints on the members of the three sets. -/
structure SetsHold (In : V → Prop) (Adjacent Gapped : V → V → Prop) (plan : SequencePlan V) :
    Prop where
  isIn : ∀ p ∈ plan.nonStars, In p
  adjacent : ∀ pq ∈ plan.adjacentNonStars, Adjacent pq.1 pq.2
  gapped : ∀ pq ∈ plan.gappedNonStars, Gapped pq.1 pq.2

/-- Constraints on all that the query uses of a plan. -/
structure Holds (In Front Back : V → Prop) (Adjacent Gapped : V → V → Prop)
    (plan : SequencePlan V) : Prop extends SetsHold In Adjacent Gapped plan where
  front : ∀ p ∈ plan.nonStarAtFront, Front p
  back : ∀ p ∈ plan.nonStarAtBack, Back p

variable {isStar : V → Bool} {In Front Back : V → Prop} {Adjacent Gapped : V → V → Prop}

/-- **One element**: a star adds no constraint, a non-star its own and its pair's. -/
theorem step_setsHold (st : Progress V) (pit : V × Nat) :
    SetsHold In Adjacent Gapped (step isStar st pit).plan
      ↔ SetsHold In Adjacent Gapped st.plan
        ∧ (isStar pit.1 = false → In pit.1 ∧ ∀ p ∈ st.nonStarQueue,
            if st.starsQueue.length > 0 then Gapped p pit.1 else Adjacent p pit.1) := by
  unfold step
  cases hstar : isStar pit.1 with
  | true =>
      -- only the queues change
      simp only [if_true, reduceCtorEq, false_imp_iff, and_true]
      exact ⟨fun h => ⟨h.1, h.2, h.3⟩, fun h => ⟨h.1, h.2, h.3⟩⟩
  | false =>
      simp only [Bool.false_eq_true, if_false, forall_const, Progress.run, Progress.pair]
      cases st.nonStarQueue with
      -- the first non-star has no partner
      | none =>
          constructor
          · intro h
            exact ⟨⟨fun p hp => h.isIn p (Finset.mem_insert_of_mem hp), h.adjacent, h.gapped⟩,
              h.isIn _ (Finset.mem_insert_self _ _), by simp⟩
          · intro h
            refine ⟨?_, h.1.adjacent, h.1.gapped⟩
            intro p hp
            rcases Finset.mem_insert.mp hp with rfl | hp
            · exact h.2.1
            · exact h.1.isIn p hp
      | some nonStar =>
          -- the partner is a gap away if a star came between, else a neighbour
          by_cases hgap : st.starsQueue.length > 0
          · simp only [hgap, if_true, Option.mem_some_iff, forall_eq']
            constructor
            · intro h
              exact ⟨⟨fun p hp => h.isIn p (Finset.mem_insert_of_mem hp), h.adjacent,
                fun pq hpq => h.gapped pq (Finset.mem_insert_of_mem hpq)⟩,
                h.isIn _ (Finset.mem_insert_self _ _),
                h.gapped _ (Finset.mem_insert_self _ _)⟩
            · intro h
              refine ⟨?_, h.1.adjacent, ?_⟩
              · intro p hp
                rcases Finset.mem_insert.mp hp with rfl | hp
                · exact h.2.1
                · exact h.1.isIn p hp
              · intro pq hpq
                rcases Finset.mem_insert.mp hpq with rfl | hpq
                · exact h.2.2
                · exact h.1.gapped pq hpq
          · simp only [hgap, if_false, Option.mem_some_iff, forall_eq']
            constructor
            · intro h
              exact ⟨⟨fun p hp => h.isIn p (Finset.mem_insert_of_mem hp),
                fun pq hpq => h.adjacent pq (Finset.mem_insert_of_mem hpq), h.gapped⟩,
                h.isIn _ (Finset.mem_insert_self _ _),
                h.adjacent _ (Finset.mem_insert_self _ _)⟩
            · intro h
              refine ⟨?_, ?_, h.1.gapped⟩
              · intro p hp
                rcases Finset.mem_insert.mp hp with rfl | hp
                · exact h.2.1
                · exact h.1.isIn p hp
              · intro pq hpq
                rcases Finset.mem_insert.mp hpq with rfl | hpq
                · exact h.2.2
                · exact h.1.adjacent pq hpq

/-- The queues after one element. -/
theorem step_queues (st : Progress V) (pit : V × Nat) :
    (step isStar st pit).nonStarQueue
        = (if isStar pit.1 then st.nonStarQueue else some pit.1)
      ∧ (step isStar st pit).starsQueue
        = (if isStar pit.1 then st.starsQueue ++ [pit.1] else []) := by
  unfold step
  cases isStar pit.1 <;> exact ⟨rfl, rfl⟩

/-- What the ends of the pattern add: the front when nothing came before, the back
when a non-star comes last. -/
def EndsHold (isStar : V → Bool) (Front Back : V → Prop) (prev : Option V) (gap : Bool)
    (pattern : List V) : Prop :=
  (prev = none → gap = false → ∀ p ∈ pattern.head?, isStar p = false → Front p)
    ∧ match pattern.getLast? with
      | none => gap = false → ∀ p ∈ prev, Back p
      | some p => isStar p = false → Back p

omit [DecidableEq V] in
/-- Past the first element only the back is left. -/
theorem endsHold_cons (prev prev' : Option V) (gap gap' : Bool) (q : V) (pattern : List V)
    (hpast : prev' = none → gap' = true)
    (hlast : (gap' = false → ∀ p ∈ prev', Back p) ↔ (isStar q = false → Back q)) :
    EndsHold isStar Front Back prev gap (q :: pattern)
      ↔ (prev = none → gap = false → isStar q = false → Front q)
        ∧ EndsHold isStar Front Back prev' gap' pattern := by
  have hfront : prev' = none → gap' = false → ∀ p ∈ pattern.head?, isStar p = false → Front p := by
    intro hn hg
    rw [hpast hn] at hg
    cases hg
  unfold EndsHold
  rw [and_iff_right hfront]
  refine and_congr (by simp) ?_
  cases pattern with
  | nil => exact hlast.symm
  | cons r pattern =>
      obtain ⟨z, hz⟩ : ∃ z, (r :: pattern).getLast? = some z :=
        ⟨_, List.getLast?_eq_some_getLast (by simp)⟩
      rw [List.getLast?_cons_cons, hz]

/-- **The loop**, from any point: the constraints on the sets and the ends are those
of the rest of the pattern. -/
theorem foldl_setsHold (pattern : List V) : ∀ (st : Progress V) (n : Nat),
    (SetsHold In Adjacent Gapped ((pattern.zipIdx n).foldl (step isStar) st).plan
        ∧ EndsHold isStar Front Back st.nonStarQueue (decide (st.starsQueue.length > 0)) pattern)
      ↔ SetsHold In Adjacent Gapped st.plan
        ∧ Wildcard.Constraints In Front Back Adjacent Gapped st.nonStarQueue
            (decide (st.starsQueue.length > 0)) (wildcard isStar pattern) := by
  -- on the pattern; the state holds the last non-star and the stars since then
  induction pattern with
  | nil =>
      intro st n
      simp [EndsHold, wildcard, Wildcard.Constraints]
  | cons q pattern ih =>
      intro st n
      rw [List.zipIdx_cons, List.foldl_cons]
      -- the step's constraints, then those of the rest from its queues
      obtain ⟨hprev, hstars⟩ : (step isStar st (q, n)).nonStarQueue = _
          ∧ (step isStar st (q, n)).starsQueue = _ := step_queues st (q, n)
      have hih := ih (step isStar st (q, n)) (n + 1)
      rw [hprev, hstars, step_setsHold] at hih
      cases hstar : isStar q with
      -- a star: the constraints are the same, one more star waits
      | true =>
          simp only [hstar, if_true, reduceCtorEq, false_imp_iff, and_true] at hih
          have hends : EndsHold isStar Front Back _ _ (q :: pattern) ↔ _ :=
            endsHold_cons st.nonStarQueue st.nonStarQueue (decide (st.starsQueue.length > 0)) true
              q pattern (fun _ => rfl) (by simp [hstar])
          have hlen : decide ((st.starsQueue ++ [q]).length > 0) = true := by simp
          rw [hlen] at hih
          have hwild : wildcard isStar (q :: pattern) = none :: wildcard isStar pattern := by
            simp [wildcard, hstar]
          rw [hends, hwild]
          simp only [hstar, reduceCtorEq, false_imp_iff, implies_true, true_and]
          exact hih
      | false =>
          -- a non-star: its own constraint and its pair's, and no star waits
          simp only [hstar, Bool.false_eq_true, if_false, forall_const] at hih
          have hends : EndsHold isStar Front Back _ _ (q :: pattern) ↔ _ :=
            endsHold_cons st.nonStarQueue (some q) (decide (st.starsQueue.length > 0)) false
              q pattern (by simp) (by simp [hstar])
          have hwild : wildcard isStar (q :: pattern) = some q :: wildcard isStar pattern := by
            simp [wildcard, hstar]
          rw [hends, hwild]
          have hlen : decide (([] : List V).length > 0) = false := by simp
          rw [hlen] at hih
          simp only [Wildcard.Constraints, hstar, forall_const, decide_eq_true_eq]
          constructor
          · intro h
            obtain ⟨hset, hin, hpair⟩ := (hih.mp ⟨h.1, h.2.2⟩).1
            exact ⟨hset, hin, h.2.1, hpair, (hih.mp ⟨h.1, h.2.2⟩).2⟩
          · intro h
            obtain ⟨hset, hin, hfront, hpair, hrest⟩ := h
            have hback := hih.mpr ⟨⟨hset, hin, hpair⟩, hrest⟩
            exact ⟨hback.1, hfront, hback.2⟩

/-- **The plan of a pattern** says of its sets and ends what the pattern says of its
letters. -/
theorem make_holds_iff (itemiseIndex : Nat) (pattern : List V) :
    Holds In Front Back Adjacent Gapped (make isStar itemiseIndex pattern)
      ↔ Wildcard.Constraints In Front Back Adjacent Gapped none false
          (wildcard isStar pattern) := by
  have hloop : SetsHold In Adjacent Gapped _ ∧ EndsHold isStar Front Back _ _ pattern ↔ _ :=
    foldl_setsHold pattern ⟨start itemiseIndex, none, []⟩ 0
  have hstart : SetsHold In Adjacent Gapped (start itemiseIndex) := by
    constructor <;> intro x hx <;> exact absurd hx (Finset.notMem_empty x)
  simp only [hstart, true_and] at hloop
  have hends : EndsHold isStar Front Back none false pattern
      ↔ (∀ p ∈ (make isStar itemiseIndex pattern).nonStarAtFront, Front p)
        ∧ ∀ p ∈ (make isStar itemiseIndex pattern).nonStarAtBack, Back p := by
    unfold EndsHold make
    simp only [forall_const, Option.mem_def, Option.filter_eq_some_iff, Bool.not_eq_true', and_imp]
    refine and_congr Iff.rfl ?_
    cases pattern.getLast? <;> simp
  have hsets : SetsHold In Adjacent Gapped (make isStar itemiseIndex pattern)
      ↔ SetsHold In Adjacent Gapped
          (pattern.zipIdx.foldl (step isStar) ⟨start itemiseIndex, none, []⟩).plan :=
    ⟨fun h => ⟨h.1, h.2, h.3⟩, fun h => ⟨h.1, h.2, h.3⟩⟩
  refine Iff.trans ?_ hloop
  constructor
  · intro h
    exact ⟨hsets.mp h.toSetsHold, hends.mpr ⟨h.front, h.back⟩⟩
  · intro h
    obtain ⟨hfront, hback⟩ := hends.mp h.2
    exact ⟨hsets.mpr h.1, hfront, hback⟩

end

end SequencePlan

end Inferno.Agents
