/-
  Inferno.Agents.StarSplits
  ─────────────────────────
  **STAR RANGES PARTITION THE SEQUENCE, AND EVERY SPLIT IS TRIED.**

    • `StandardPlan.Reads`      — what `ConstructPlan` reads off the items,
    • `sequence_gaps`           — the calls for one sequence are those for its gaps,
    • `decisions_le`            — the conjecture has a decision for each call that needs
                                  one,
    • `star_splits_exact`       — the lambda tries each joint split once, for exactly the
                                  nodes whose empty sequences meet empty sequences.
-/
import Inferno.Agents.StarScript

namespace Inferno.Agents

open Inferno.Common
open Inferno.DB
open Inferno.SYM
open Inferno.Engine
open Inferno.Lib.Odometer

variable {V L A N M : Type}

/-! ## §1. The plan of a node. -/

/-- The plan of an item, when it is a sequence. -/
def sequenceOf [DecidableEq V] (isStar : V → Bool) (item : PatternItem V × Nat) :
    Option (List V × SequencePlan V) :=
  match item.1 with
  | .sequence pattern => some (pattern, SequencePlan.make isStar item.2 pattern)
  | _ => none

/-- What `ConstructPlan` reads off the items. -/
structure StandardPlan.Reads [DecidableEq V] (isStar : V → Bool) (inReplaceOnly : Bool)
    (items : List (PatternItem V × Nat)) (plan : StandardPlan V) : Prop where
  sequences : plan.sequences = items.filterMap (sequenceOf isStar)
  collections : ∀ c ∈ plan.collections, ∃ i, (.collection c.1, i) ∈ items
    ∧ CollectionPlan.make isStar inReplaceOnly i c.1 = some c.2

section

variable [DecidableEq V] {isStar : V → Bool} {inReplaceOnly : Bool} {plan : StandardPlan V}

/-- One item more keeps the reading. -/
theorem StandardPlan.Reads.addItem {items : List (PatternItem V × Nat)}
    (h : Reads isStar inReplaceOnly items plan) {item : PatternItem V × Nat}
    {plan' : StandardPlan V}
    (hadd : StandardPlan.addItem isStar inReplaceOnly plan item = some plan') :
    Reads isStar inReplaceOnly (items ++ [item]) plan' := by
  obtain ⟨it, i⟩ := item
  have hmore : ∀ c ∈ plan.collections, ∃ j, (.collection c.1, j) ∈ items ++ [(it, i)]
      ∧ CollectionPlan.make isStar inReplaceOnly j c.1 = some c.2 := by
    intro c hc
    obtain ⟨j, hj, hmake⟩ := h.collections c hc
    exact ⟨j, List.mem_append_left _ hj, hmake⟩
  unfold StandardPlan.addItem at hadd
  cases it with
  | singular plink =>
      cases plink <;> cases hadd <;> exact ⟨by simp [h.sequences, sequenceOf], hmore⟩
  | sequence pattern =>
      cases hadd
      exact ⟨by simp [h.sequences, sequenceOf], hmore⟩
  | collection pattern =>
      obtain ⟨planCol, hmake, hplan⟩ := Option.bind_eq_some_iff.mp hadd
      cases hplan
      refine ⟨by simp [h.sequences, sequenceOf], ?_⟩
      intro c hc
      rcases List.mem_append.mp hc with hc | hc
      · exact hmore c hc
      · rw [List.mem_singleton] at hc
        subst hc
        exact ⟨i, by simp, hmake⟩

/-- **The plan that is constructed reads the items.** -/
theorem StandardPlan.reads_of_constructPlan {items : List (PatternItem V)}
    (h : constructPlan isStar inReplaceOnly items = some plan) :
    Reads isStar inReplaceOnly items.zipIdx plan := by
  unfold constructPlan at h
  generalize items.zipIdx = its at h ⊢
  induction its using List.reverseRecOn generalizing plan with
  | nil =>
      cases h
      exact ⟨rfl, by simp⟩
  | append_singleton its item ih =>
      rw [List.foldlM_append] at h
      obtain ⟨plan₀, hplan₀, hadd⟩ := Option.bind_eq_some_iff.mp h
      exact (ih hplan₀).addItem (by simpa using hadd)

theorem StandardPlan.Reads.mem_sequences {items : List (PatternItem V)}
    (h : Reads isStar inReplaceOnly items.zipIdx plan) {s : List V × SequencePlan V} :
    s ∈ plan.sequences ↔ ∃ i, items[i]? = some (.sequence s.1)
      ∧ s.2 = SequencePlan.make isStar i s.1 := by
  rw [h.sequences, List.mem_filterMap]
  constructor
  · intro hs
    obtain ⟨⟨it, i⟩, hmem, hseq⟩ := hs
    cases it with
    | singular plink => cases hseq
    | collection pattern => cases hseq
    | sequence pattern =>
        cases hseq
        exact ⟨i, List.mem_zipIdx_iff_getElem?.mp hmem, rfl⟩
  · intro hs
    obtain ⟨i, hmem, hplan⟩ := hs
    refine ⟨(.sequence s.1, i), List.mem_zipIdx_iff_getElem?.mpr hmem, ?_⟩
    show some (s.1, SequencePlan.make isStar i s.1) = some s
    rw [← hplan]

/-- The links of the sequences are links of the items. -/
theorem sequences_sublist (isStar : V → Bool) (items : List (PatternItem V)) : ∀ n : Nat,
    (((items.zipIdx n).filterMap (sequenceOf isStar)).flatMap Prod.fst).Sublist
      (items.flatMap PatternItem.links) := by
  induction items with
  | nil => intro n; exact List.Sublist.refl _
  | cons item items ih =>
      intro n
      rw [List.zipIdx_cons, List.flatMap_cons]
      have hrest := ih (n + 1)
      cases item with
      | singular plink => exact hrest.trans (List.sublist_append_right _ _)
      | collection pattern => exact hrest.trans (List.sublist_append_right _ _)
      | sequence pattern => exact (List.Sublist.refl pattern).append hrest

end

/-! ## §2. The decisions of the pattern query. -/

section

variable [DecidableEq V] {isStar : V → Bool}

omit [DecidableEq V] in
theorem decisions_foldl_le {α : Type} {f : PatternQuery V → α → PatternQuery V} {w : α → Nat}
    (h : ∀ pq x, pq.decisions.length + w x ≤ (f pq x).decisions.length) (xs : List α) :
    ∀ pq : PatternQuery V,
      pq.decisions.length + (xs.map w).sum ≤ (xs.foldl f pq).decisions.length := by
  induction xs with
  | nil => intro pq; exact Nat.le_refl _
  | cons x xs ih =>
      intro pq
      have hx := h pq x
      have hxs := ih (f pq x)
      rw [List.map_cons, List.sum_cons, List.foldl_cons]
      omega

omit [DecidableEq V] in
/-- At most one element has the index of the last star. -/
theorem stars_le_others (pattern : List V) (last : Option Nat) : ∀ n : Nat,
    (pattern.filter isStar).length - 1
      ≤ ((pattern.zipIdx n).map (fun pit => if isStar pit.1 ∧ some pit.2 ≠ last then 1 else 0)).sum
    ∧ (∀ i ∈ last, i < n → (pattern.filter isStar).length
      ≤ ((pattern.zipIdx n).map
          (fun pit => if isStar pit.1 ∧ some pit.2 ≠ last then 1 else 0)).sum) := by
  induction pattern with
  | nil => intro n; simp
  | cons p pattern ih =>
      intro n
      obtain ⟨hmost, hall⟩ := ih (n + 1)
      rw [List.zipIdx_cons, List.map_cons, List.sum_cons]
      cases hstar : isStar p with
      | false =>
          simp only [List.filter_cons, hstar, Bool.false_eq_true, if_false, false_and, Nat.zero_add]
          exact ⟨hmost, fun i hi hlt => hall i hi (Nat.lt_succ_of_lt hlt)⟩
      | true =>
          simp only [List.filter_cons, hstar, if_true, List.length_cons, true_and]
          by_cases hlast : some n = last
          · -- this is the index of the last star: the rest count
            have hrest := hall n (by rw [← hlast]; rfl) (Nat.lt_succ_self n)
            refine ⟨by omega, fun i hi hlt => ?_⟩
            rw [← hlast] at hi
            cases hi
            omega
          · rw [if_pos hlast]
            refine ⟨by omega, fun i hi hlt => ?_⟩
            have hrest := hall i hi (Nat.lt_succ_of_lt hlt)
            omega

omit [DecidableEq V] in
/-- A sequence registers a decision for each of its stars but one. -/
theorem incrSequence_decisions (pq : PatternQuery V) (s : List V × SequencePlan V) :
    pq.decisions.length + ((s.1.filter isStar).length - 1)
      ≤ (PatternQuery.incrSequence isStar pq s).decisions.length := by
  refine Nat.le_trans (Nat.add_le_add_left (stars_le_others s.1 s.2.pitLastStar 0).1 _) ?_
  refine decisions_foldl_le ?_ _ pq
  intro pq pit
  cases hstar : isStar pit.1 with
  | false => simp [PatternQuery.registerNormalLink]
  | true =>
      by_cases hlast : some pit.2 = s.2.pitLastStar
      · simp [hlast, PatternQuery.registerAbnormalLink]
      · simp [hlast, PatternQuery.registerAbnormalLink, PatternQuery.registerDecision]

omit [DecidableEq V] in
/-- **The conjecture has a decision for each star of a sequence but one.** -/
theorem decisions_le (plan : StandardPlan V) :
    (plan.sequences.map (fun s => (s.1.filter isStar).length - 1)).sum
      ≤ (getPatternQuery isStar plan).decisions.length := by
  unfold getPatternQuery
  exact Nat.le_trans (Nat.le_add_left _ _)
    (decisions_foldl_le incrSequence_decisions plan.sequences _)

end

/-! ## §3. The gaps of a sequence. -/

section

variable [LinearOrder V] [LinearOrder L] {db : XTreeDatabase L N A}
  {hypothesisLinks : StdMap V (XLink L)} {archetypeNode : A} {itemiseIndex : Nat}
  {keyerPlink : V} {xs : List L} {isStar : V → Bool} {a : V → XLink L}

/-- `TreePtr::operator bool`. -/
def nonnull (db : XTreeDatabase L N A) (l : L) : Bool :=
  (db.childOf l).isSome

omit [LinearOrder V] [LinearOrder L] in
/-- The iterator on a link of the keyer's sequence. -/
theorem KeyerAt.containerIt_eq
    (h : KeyerAt db hypothesisLinks archetypeNode itemiseIndex keyerPlink xs) {k : Nat}
    {z : XLink L} (hk : (xs.map XLink.link)[k]? = some z) :
    containerIt db z = some ⟨xs, k⟩ ∧ k < xs.length := by
  obtain ⟨y, node, i, hs⟩ := h.sequenceAt
  rw [List.getElem?_map, Option.map_eq_some_iff] at hk
  obtain ⟨x, hx, rfl⟩ := hk
  obtain ⟨row, hrow, hcontext, hcontainer, hordinal⟩ := hs.row_container hx
  refine ⟨?_, (List.getElem?_eq_some_iff.mp hx).1⟩
  simp [containerIt, XTreeDatabase.getRow, hrow, ASSERT, hcontext, hcontainer, hordinal]

omit [LinearOrder V] [LinearOrder L] in
/-- **The iterators of a run are the ends of its gap.** -/
theorem KeyerAt.runRange_eq
    (h : KeyerAt db hypothesisLinks archetypeNode itemiseIndex keyerPlink xs) {g : Gap V L}
    (hg : g.Between a xs)
    (hpred : ∀ p ∈ g.run.predecessor, hypothesisLinks.lookup p = some (a p))
    (hsucc : ∀ p ∈ g.run.successor, hypothesisLinks.lookup p = some (a p)) :
    runRange db hypothesisLinks xs g.run = some (some (⟨xs, g.first⟩, ⟨xs, g.limit⟩)) := by
  have hp := hg.predecessor
  have hs := hg.successor
  unfold runRange
  -- where the run starts
  cases hrun : g.run.predecessor with
  | none =>
      rw [hrun] at hp
      have hfirst : g.first = 0 := hp
      -- and where it ends
      cases hend : g.run.successor with
      | none =>
          rw [hend] at hs
          simp [hs, hfirst]
      | some q =>
          rw [hend] at hs
          simp [hsucc q hend, (h.containerIt_eq hs).1, hfirst]
  | some p =>
      rw [hrun] at hp
      obtain ⟨k, hfirst, hk⟩ := hp
      obtain ⟨hit, hlt⟩ := h.containerIt_eq hk
      have hadvance : advance (⟨xs, k⟩ : Iterator L) = some ⟨xs, g.first⟩ := by
        rw [advance_eq hlt, hfirst]
      simp only [hpred p hrun, hit, Option.bind_eq_bind, Option.bind_some, hadvance]
      cases hend : g.run.successor with
      | none =>
          rw [hend] at hs
          rw [hs]
      | some q =>
          rw [hend] at hs
          simp [hsucc q hend, (h.containerIt_eq hs).1]

omit [LinearOrder L] in
/-- The loop over the runs makes the calls of the gaps. -/
theorem regenerationQueryRuns_eq {parentX : N} {k : Calls V L N} (gaps : List (Gap V L)) :
    (∀ g ∈ gaps, g.container = xs ∧ runRange db hypothesisLinks xs g.run
      = some (some (⟨xs, g.first⟩, ⟨xs, g.limit⟩))) →
    regenerationQueryRuns db hypothesisLinks xs parentX (gaps.map Gap.run) k
      = gapsCalls parentX gaps k := by
  induction gaps with
  | nil => intro _; rfl
  | cons g gaps ih =>
      intro h
      rw [List.forall_mem_cons] at h
      rw [List.map_cons, regenerationQueryRuns, h.1.2]
      show regenerationQueryElts _ _ _ _ _ _ = regenerationQueryElts _ _ _ _ _ _
      rw [ih h.2, h.1.1]
      rfl

/-- A list of positive parts is at most the positive part of the sum. -/
theorem sum_pred_le (ns : List Nat) : (ns.map (· - 1)).sum ≤ ns.sum - 1 := by
  induction ns with
  | nil => exact Nat.le_refl _
  | cons n ns ih =>
      rw [List.map_cons, List.sum_cons, List.sum_cons]
      omega

/-- The gaps of a sequence, or of several: their calls, their stars, and what filling
them says. -/
structure GapsFor (nonnull : L → Bool) (stars : List V) (decisions : Nat)
    (Splits : (V → List L) → Prop) (gaps : List (Gap V L)) : Prop where
  ok : ∀ g ∈ gaps, g.Ok nonnull
  stars_perm : (gapsStars gaps).Perm stars
  decisions_le : gapsDecisions gaps ≤ decisions
  filled_iff : ∀ σ, (∀ g ∈ gaps, g.Filled σ) ↔ Splits σ

/-- **The calls for one sequence are those for its gaps**, when its query is satisfied. -/
theorem KeyerAt.sequence_gaps
    (h : KeyerAt db hypothesisLinks archetypeNode itemiseIndex keyerPlink xs)
    (simpleCompare : Option N → Option N → Int) (isLocalMatch : M → Option N → Bool)
    {pattern : List V}
    (hlinks : ∀ p ∈ pattern, isStar p = false → hypothesisLinks.lookup p = some (a p))
    (hsat : (symbolicNormalLinkedQuerySequence archetypeNode
        (SequencePlan.make isStar itemiseIndex pattern) keyerPlink).Satisfied
      (predicateEvaluate hypothesisLinks db (databaseKit db simpleCompare isLocalMatch)))
    {inSetOrder : List (Run V) → List (Run V)}
    (horder : ∀ runs, (inSetOrder runs).Perm runs) (parentX : N) :
    ∃ gaps : List (Gap V L),
      (∀ k, regenerationQuerySequence db hypothesisLinks inSetOrder xs parentX
          (SequencePlan.make isStar itemiseIndex pattern) k = gapsCalls parentX gaps k)
      ∧ GapsFor (nonnull db) (pattern.filter isStar) ((pattern.filter isStar).length - 1)
          (fun σ => pattern = [] ∨ interleave isStar a σ pattern = xs.map XLink.link) gaps := by
  obtain ⟨y, node, i, hs⟩ := h.sequenceAt
  by_cases hne : pattern = []
  · -- an empty pattern has one run, of no star: it makes no call
    subst hne
    refine ⟨[], fun k => ?_, by simp, by simp [gapsStars], by simp [gapsDecisions], by simp⟩
    have hruns : inSetOrder [⟨none, [], none⟩] = [(⟨none, [], none⟩ : Run V)] :=
      List.perm_singleton.mp (horder _)
    have hnum : (SequencePlan.make isStar itemiseIndex ([] : List V)).numNonStar ≤ xs.length := by
      rw [SequencePlan.make_numNonStar]
      exact Nat.zero_le _
    unfold regenerationQuerySequence
    rw [if_pos hnum, SequencePlan.make_starRuns, runsFrom, hruns]
    rfl
  · -- the sequence is matched, which places the non-stars
    have hm := (h.satisfied_iff_matches simpleCompare isLocalMatch isStar hne a hlinks).mp hsat
    have hplaced : Placed isStar a xs 0 false pattern :=
      placed_of_matches pattern (Nat.le_refl _) (fun _ => rfl) (Nat.zero_le _) hm
    obtain ⟨gaps₀, hruns₀, hbetween₀, hfilled₀⟩ := exists_gaps hs.nodup pattern 0 none [] hplaced rfl
    -- in the order of the set
    obtain ⟨gaps, hperm, hruns⟩ := exists_perm_of_map_perm (horder _).symm hruns₀
    have hbetween : ∀ g ∈ gaps, g.Between a xs := fun g hg => hbetween₀ g (hperm.mem_iff.mpr hg)
    have hstars : (gapsStars gaps).Perm (pattern.filter isStar) := by
      have hstars₀ : gapsStars gaps₀ = pattern.filter isStar := by
        rw [← List.nil_append (pattern.filter isStar), ← flatMap_elts_runsFrom isStar pattern none [],
          ← hruns₀, List.flatMap_map]
        rfl
      rw [← hstars₀]
      exact (hperm.flatMap_right _).symm
    refine ⟨gaps, fun k => ?_, ?_, hstars, ?_, fun σ => ?_⟩
    · -- there are enough elements, so that the calls are made
      have hlen := Placed.length_le pattern hplaced
      rw [Nat.zero_add] at hlen
      unfold regenerationQuerySequence
      rw [SequencePlan.make_numNonStar, if_pos hlen, SequencePlan.make_starRuns, ← hruns]
      refine regenerationQueryRuns_eq gaps (fun g hg => ⟨(hbetween g hg).container, ?_⟩)
      have hrun : g.run ∈ runsFrom isStar none [] pattern := by
        rw [← hruns₀]
        exact List.mem_map.mpr ⟨g, hperm.mem_iff.mpr hg, rfl⟩
      obtain ⟨hpred, hsucc⟩ := neighbours_runsFrom isStar pattern none [] g.run hrun
      refine h.runRange_eq (hbetween g hg) (fun p hp => ?_) (fun p hp => ?_)
      · rcases hpred p hp with hp' | hp'
        · cases hp'
        · exact hlinks p hp'.1 hp'.2
      · exact hlinks p (hsucc p hp).1 (hsucc p hp).2
    · -- the gaps are in the sequence, and its links are links of the database
      intro g hg
      have hb := hbetween g hg
      refine ⟨hb.first_le, by rw [hb.container]; exact hb.limit_le, hb.empty, fun x hx => ?_⟩
      rw [hb.container] at hx
      obtain ⟨k, hk⟩ := List.mem_iff_getElem?.mp hx
      exact (hs.place hk).nonnull
    · -- one decision less than stars, run by run
      have hsum := sum_pred_le (gaps.map (fun g => g.run.elts.length))
      rw [List.map_map] at hsum
      refine Nat.le_trans hsum (Nat.le_of_eq ?_)
      rw [← hstars.length_eq]
      unfold gapsStars
      rw [List.length_flatMap]
    · -- the gaps are filled as the interleaving makes up the sequence
      have hiff := hfilled₀ σ
      simp only [List.flatMap_nil, List.map_nil, List.nil_append, List.drop_zero] at hiff
      rw [or_iff_right hne, hiff]
      exact ⟨fun hf g hg => hf g (hperm.mem_iff.mp hg), fun hf g hg => hf g (hperm.mem_iff.mpr hg)⟩

/-! ## §4. The calls of a node. -/

/-- A sequence of the plan, with the sequence of the input it is matched against. -/
structure SequenceItem (db : XTreeDatabase L N A) (hypothesisLinks : StdMap V (XLink L))
    (archetypeNode : A) (keyerPlink : V) (xItems : List (Item L)) (isStar : V → Bool)
    (a : V → XLink L) (s : List V × SequencePlan V) (xs : List L) : Prop where
  plan : s.2 = SequencePlan.make isStar s.2.itemiseIndex s.1
  xItem : xSequence xItems s.2.itemiseIndex = some xs
  keyer : KeyerAt db hypothesisLinks archetypeNode s.2.itemiseIndex keyerPlink xs
  links : ∀ p ∈ s.1, isStar p = false → hypothesisLinks.lookup p = some (a p)

omit [LinearOrder L] in
theorem gapsCalls_append {parentX : N} {k : Calls V L N} (gaps gaps' : List (Gap V L)) :
    gapsCalls parentX (gaps ++ gaps') k = gapsCalls parentX gaps (gapsCalls parentX gaps' k) :=
  List.foldr_append

/-- **The calls for all sequences** are those for the gaps of all of them. -/
theorem sequences_gaps (simpleCompare : Option N → Option N → Int)
    (isLocalMatch : M → Option N → Bool) {inSetOrder : List (Run V) → List (Run V)}
    (horder : ∀ runs, (inSetOrder runs).Perm runs) {xItems : List (Item L)} (parentX : N)
    (planSeqs : List (List V × SequencePlan V))
    (hitems : ∀ s ∈ planSeqs, ∃ xs,
      SequenceItem db hypothesisLinks archetypeNode keyerPlink xItems isStar a s xs)
    (hsat : ∀ s ∈ planSeqs,
      (symbolicNormalLinkedQuerySequence archetypeNode s.2 keyerPlink).Satisfied
        (predicateEvaluate hypothesisLinks db (databaseKit db simpleCompare isLocalMatch))) :
    ∃ gaps : List (Gap V L),
      regenerationQuerySequences db hypothesisLinks inSetOrder xItems parentX planSeqs
          = gapsCalls parentX gaps .stop
      ∧ GapsFor (nonnull db) (planSeqs.flatMap (fun s => s.1.filter isStar))
          (planSeqs.map (fun s => (s.1.filter isStar).length - 1)).sum
          (fun σ => ∀ s ∈ planSeqs, ∀ xs, xSequence xItems s.2.itemiseIndex = some xs →
            s.1 = [] ∨ interleave isStar a σ s.1 = xs.map XLink.link) gaps := by
  -- on the sequences; the gaps of the first are put before the others
  induction planSeqs with
  | nil => exact ⟨[], rfl, by simp, by simp [gapsStars], by simp [gapsDecisions], by simp⟩
  | cons s planSeqs ih =>
      rw [List.forall_mem_cons] at hitems hsat
      obtain ⟨⟨xs, hitem⟩, hitems⟩ := hitems
      have hsats := hsat.1
      rw [hitem.plan] at hsats
      obtain ⟨gaps₁, hcalls₁, hgaps₁⟩ := hitem.keyer.sequence_gaps simpleCompare isLocalMatch
        hitem.links hsats horder parentX
      obtain ⟨gaps₂, hcalls₂, hgaps₂⟩ := ih hitems hsat.2
      refine ⟨gaps₁ ++ gaps₂, ?_, ?_, ?_, ?_, fun σ => ?_⟩
      · rw [regenerationQuerySequences, hitem.xItem, gapsCalls_append, ← hcalls₂, ← hcalls₁,
          ← hitem.plan]
      · intro g hg
        exact (List.mem_append.mp hg).elim (hgaps₁.ok g) (hgaps₂.ok g)
      · unfold gapsStars
        rw [List.flatMap_append, List.flatMap_cons]
        exact hgaps₁.stars_perm.append hgaps₂.stars_perm
      · -- the decisions add up
        have h₁ := hgaps₁.decisions_le
        have h₂ := hgaps₂.decisions_le
        unfold gapsDecisions at h₁ h₂ ⊢
        rw [List.map_append, List.sum_append, List.map_cons, List.sum_cons]
        omega
      · -- the first sequence is filled, and the others
        rw [List.forall_mem_append, hgaps₁.filled_iff, hgaps₂.filled_iff, List.forall_mem_cons]
        refine and_congr_left' ?_
        constructor
        · intro h xs' hxs'
          rw [hitem.xItem] at hxs'
          cases hxs'
          exact h
        · intro h
          exact h xs hitem.xItem

/-- The calls for the collections register sub-collections, for stars of these. -/
theorem collections_events {node : N} (planCols : List (List V × CollectionPlan V))
    (hitems : ∀ c ∈ planCols, ∃ xs, CollectionKeyerAt db hypothesisLinks archetypeNode
      c.2.itemiseIndex keyerPlink node xs)
    (hreads : ∀ c ∈ planCols, CollectionPlan.Reads isStar c.1 c.2)
    (hlinks : ∀ c ∈ planCols, ∀ p ∈ c.1, isStar p = false →
      hypothesisLinks.lookup p = some (a p)) (k : Calls V L N) :
    ∃ events : List (V × AbnormalNode L N),
      regenerationQueryCollections db hypothesisLinks archetypeNode keyerPlink planCols k
          = Script.emitAll events k
      ∧ ∀ e ∈ events, ∃ c ∈ planCols, e.1 ∈ c.1 := by
  induction planCols with
  | nil => exact ⟨[], rfl, by simp⟩
  | cons c planCols ih =>
      rw [List.forall_mem_cons] at hitems hreads hlinks
      obtain ⟨xs, hitem⟩ := hitems.1
      obtain ⟨events, hcalls, hevents⟩ := ih hitems.2 hreads.2 hlinks.2
      have hassigned : ∀ p ∈ c.2.nonStars, hypothesisLinks.lookup p = some (a p) := by
        intro p hp
        rw [hreads.1.nonStars] at hp
        obtain ⟨hmem, hstar⟩ := List.mem_filter.mp (List.mem_toFinset.mp hp)
        exact hlinks.1 p hmem (by simpa using hstar)
      rw [regenerationQueryCollections, hitem.runRegeneration_eq rfl hassigned, hcalls]
      refine ⟨(c.2.starPlink.toList.map (fun star => (star,
        AbnormalNode.subCollection ⟨node, xs, c.2.nonStars.image a⟩))) ++ events, ?_, ?_⟩
      · -- one event where the collection has a star, none where it has not
        cases c.2.starPlink <;> rfl
      · intro e he
        rcases List.mem_append.mp he with he | he
        · obtain ⟨star, hstar, rfl⟩ := List.mem_map.mp he
          rw [Option.mem_toList, hreads.1.starPlink] at hstar
          exact ⟨c, by simp, List.mem_of_find?_eq_some hstar⟩
        · obtain ⟨c', hc', hmem⟩ := hevents e he
          exact ⟨c', List.mem_cons_of_mem _ hc', hmem⟩

/-- A node registered once for a link is the one found. -/
theorem registerAll_lookup {E : Type} (events : List (V × E)) {p : V} {e : E} :
    ∀ nodes : StdMap V E, (p, e) ∈ events → (∀ e', (p, e') ∈ events → e' = e) →
      (registerAll nodes events).lookup p = some e := by
  induction events using List.reverseRecOn with
  | nil => intro nodes h; cases h
  | append_singleton events x ih =>
      intro nodes hmem hone
      unfold registerAll
      rw [List.foldl_append]
      show ((registerAll nodes events).set x.1 x.2).lookup p = some e
      rw [StdMap.lookup_set]
      by_cases hx : p = x.1
      · rw [if_pos hx]
        have hxe : (p, x.2) ∈ events ++ [x] := by
          rw [hx]
          simp
        rw [hone x.2 hxe]
      · rw [if_neg hx]
        refine ih nodes ?_ (fun e' he' => hone e' (List.mem_append_left _ he'))
        rcases List.mem_append.mp hmem with hmem | hmem
        · exact hmem
        · rw [List.mem_singleton] at hmem
          exact absurd (congrArg Prod.fst hmem) hx

/-! ## §5. Every split is tried. -/

/-- The keyer is assigned a link of the database to `node`, which the archetype itemises
with the same kinds of items as the pattern node has. -/
structure KeyerNode (db : XTreeDatabase L N A) (hypothesisLinks : StdMap V (XLink L))
    (archetypeNode : A) (keyerPlink : V) (node : N) (items : List (PatternItem V)) : Prop where
  exists_link : ∃ y, hypothesisLinks.lookup keyerPlink = some (.link y) ∧ y ∈ db.rows.keys
    ∧ db.childOf y = some node
  isSubcategory : db.isSubcategory archetypeNode node = true
  sequences : ∀ (i : Nat) (pattern : List V), items[i]? = some (.sequence pattern) →
    ∃ xs, (db.itemiseAs archetypeNode node)[i]? = some (.sequence xs)
  collections : ∀ (i : Nat) (pattern : List V), items[i]? = some (.collection pattern) →
    ∃ xs, (db.itemiseAs archetypeNode node)[i]? = some (.collection xs)

/-- A sequence of the pattern node, and that of the input it is matched against. -/
def SequencePair (items : List (PatternItem V)) (xItems : List (Item L)) (pattern : List V)
    (xs : List L) : Prop :=
  ∃ i : Nat, items[i]? = some (.sequence pattern) ∧ xItems[i]? = some (.sequence xs)

/-- The sub-sequence registered for a star. -/
def taken (nodes : StdMap V (AbnormalNode L N)) (p : V) : List L :=
  match nodes.lookup p with
  | some (.subSequence range) => range.elements
  | _ => []

omit [LinearOrder V] [LinearOrder L] in
theorem taken_eq {nodes : StdMap V (AbnormalNode L N)} {p : V} {range : SubSequenceRange L N}
    (h : nodes.lookup p = some (.subSequence range)) : taken nodes p = range.elements := by
  rw [taken, h]

/-- **The queries partition the sequences, and try every joint split once.** -/
structure TriesEverySplit (isStar : V → Bool) (a : V → XLink L) (items : List (PatternItem V))
    (xItems : List (Item L)) (qs : List (DecidedQuery L V (AbnormalNode L N))) : Prop where
  registered : ∀ q ∈ qs, ∀ pattern xs, SequencePair items xItems pattern xs →
    ∀ p ∈ pattern, isStar p = true → ∃ range, q.abnormalNodes.lookup p = some (.subSequence range)
  partition : ∀ q ∈ qs, ∀ pattern xs, SequencePair items xItems pattern xs →
    interleave isStar a (taken q.abnormalNodes) pattern = xs.map XLink.link
  everySplit : ∀ σ : V → List L,
    (∀ pattern xs, SequencePair items xItems pattern xs →
      interleave isStar a σ pattern = xs.map XLink.link) →
    ∃! i : Nat, ∃ q, qs[i]? = some q ∧ ∀ pattern xs, SequencePair items xItems pattern xs →
      ∀ p ∈ pattern, isStar p = true → taken q.abnormalNodes p = σ p

omit [LinearOrder V] in
/-- Two items do not share a link. -/
theorem links_disjoint {items : List (PatternItem V)}
    (hnodup : (items.flatMap PatternItem.links).Nodup) {i j : Nat} {it it' : PatternItem V} {p : V}
    (hi : items[i]? = some it) (hj : items[j]? = some it') (hp : p ∈ it.links)
    (hp' : p ∈ it'.links) : i = j := by
  obtain ⟨hilt, rfl⟩ := List.getElem?_eq_some_iff.mp hi
  obtain ⟨hjlt, rfl⟩ := List.getElem?_eq_some_iff.mp hj
  have hpair := List.pairwise_iff_getElem.mp (List.nodup_flatMap.mp hnodup).2
  by_contra hne
  rcases Nat.lt_or_gt_of_ne hne with hlt | hlt
  · exact hpair i j hilt hjlt hlt hp hp'
  · exact hpair j i hjlt hilt hlt hp' hp

variable {items : List (PatternItem V)} {inReplaceOnly : Bool} {plan : StandardPlan V} {node : N}

omit [LinearOrder V] [LinearOrder L] in
/-- The sub-sequences of the stars make up the interleaving. -/
theorem interleave_congr {σ σ' : V → List L} {pattern : List V}
    (h : ∀ p ∈ pattern, isStar p = true → σ p = σ' p) :
    interleave isStar a σ pattern = interleave isStar a σ' pattern := by
  unfold interleave
  refine List.flatMap_congr (fun p hp => ?_)
  cases hstar : isStar p with
  | true => rw [if_pos rfl, if_pos rfl, h p hp hstar]
  | false => rfl

omit [LinearOrder L] in
/-- The sequences of the plan are the pairs. -/
theorem KeyerNode.forall_sequences
    (hnode : KeyerNode db hypothesisLinks archetypeNode keyerPlink node items)
    (hreads : StandardPlan.Reads isStar inReplaceOnly items.zipIdx plan)
    {P : List V → List L → Prop} :
    (∀ s ∈ plan.sequences, ∀ xs,
        xSequence (db.itemiseAs archetypeNode node) s.2.itemiseIndex = some xs → P s.1 xs)
      ↔ ∀ pattern xs, SequencePair items (db.itemiseAs archetypeNode node) pattern xs →
          P pattern xs := by
  constructor
  · intro h pattern xs hpair
    obtain ⟨i, hi, hx⟩ := hpair
    refine h (pattern, SequencePlan.make isStar i pattern)
      (hreads.mem_sequences.mpr ⟨i, hi, rfl⟩) xs ?_
    rw [SequencePlan.make_itemiseIndex, xSequence, hx]
  · intro h s hs xs hxs
    obtain ⟨i, hi, hplan⟩ := hreads.mem_sequences.mp hs
    rw [hplan, SequencePlan.make_itemiseIndex] at hxs
    obtain ⟨xs', hx⟩ := hnode.sequences i s.1 hi
    rw [xSequence, hx] at hxs
    cases hxs
    exact h s.1 xs ⟨i, hi, hx⟩

/-- **The calls of a node**: the stars of its collections, then the gaps of its
sequences. -/
theorem KeyerNode.node_calls
    (hnode : KeyerNode db hypothesisLinks archetypeNode keyerPlink node items)
    (hnodup : (items.flatMap PatternItem.links).Nodup)
    (hplan : StandardPlan.constructPlan isStar inReplaceOnly items = some plan)
    {inSetOrder : List (Run V) → List (Run V)} (horder : ∀ runs, (inSetOrder runs).Perm runs)
    (hlinks : ∀ item ∈ items, ∀ p ∈ item.links, isStar p = false →
      hypothesisLinks.lookup p = some (a p))
    (simpleCompare : Option N → Option N → Int) (isLocalMatch : M → Option N → Bool)
    {patternNode : M}
    (hsat : (symbolicNormalLinkedQueryPRed archetypeNode patternNode plan keyerPlink).Satisfied
      (predicateEvaluate hypothesisLinks db (databaseKit db simpleCompare isLocalMatch))) :
    ∃ (events : List (V × AbnormalNode L N)) (gaps : List (Gap V L)),
      runRegenerationQueryImpl db hypothesisLinks inSetOrder archetypeNode plan keyerPlink
          = Script.emitAll events (gapsCalls node gaps .stop)
      ∧ (∀ e ∈ events, e.1 ∉ gapsStars gaps)
      ∧ GapsFor (nonnull db) (plan.sequences.flatMap (fun s => s.1.filter isStar))
          (getPatternQuery isStar plan).decisions.length
          (fun σ => ∀ pattern xs, SequencePair items (db.itemiseAs archetypeNode node) pattern xs →
            pattern = [] ∨ interleave isStar a σ pattern = xs.map XLink.link) gaps := by
  -- the plan names each sequence and collection of the items
  obtain ⟨y, hkey, hrow, hchild⟩ := hnode.exists_link
  have hreads := StandardPlan.reads_of_constructPlan hplan
  obtain ⟨_, _, _, hsatseq⟩ := satisfied_pRed_iff.mp hsat
  have hsequences : ∀ s ∈ plan.sequences, ∃ xs, SequenceItem db hypothesisLinks archetypeNode
      keyerPlink (db.itemiseAs archetypeNode node) isStar a s xs := by
    intro s hs
    obtain ⟨i, hi, hsplan⟩ := hreads.mem_sequences.mp hs
    obtain ⟨xs, hx⟩ := hnode.sequences i s.1 hi
    have hindex : s.2.itemiseIndex = i := by rw [hsplan, SequencePlan.make_itemiseIndex]
    refine ⟨xs, ?_, ?_, ?_, hlinks _ (List.mem_of_getElem? hi)⟩
    · rw [hindex, hsplan]
    · rw [hindex, xSequence, hx]
    · rw [hindex]
      exact ⟨y, node, hkey, hrow, hchild, hnode.isSubcategory, hx⟩
  -- likewise the collections, with what the plan holds of them
  have hcollections : ∀ c ∈ plan.collections, ∃ i, items[i]? = some (.collection c.1)
      ∧ c.2.itemiseIndex = i ∧ CollectionPlan.Reads isStar c.1 c.2 := by
    intro c hc
    obtain ⟨i, hmem, hmake⟩ := hreads.collections c hc
    obtain ⟨hcreads, hindex⟩ := CollectionPlan.reads_of_make i c.1 hmake
    exact ⟨i, List.mem_zipIdx_iff_getElem?.mp hmem, hindex, hcreads⟩
  -- the calls of the sequences come after the events of the collections
  obtain ⟨gaps, hseqs, hgaps⟩ := sequences_gaps simpleCompare isLocalMatch horder node
    plan.sequences hsequences hsatseq
  obtain ⟨events, hcols, hevents⟩ : ∃ events : List (V × AbnormalNode L N),
      regenerationQueryCollections db hypothesisLinks archetypeNode keyerPlink plan.collections _
        = Script.emitAll events _ ∧ _ := collections_events plan.collections
    (fun c hc => by
      obtain ⟨i, hi, hindex, _⟩ := hcollections c hc
      obtain ⟨xs, hx⟩ := hnode.collections i c.1 hi
      exact ⟨xs, ⟨y, hkey, hrow, hchild⟩, hnode.isSubcategory, by rw [hindex]; exact hx⟩)
    (fun c hc => (hcollections c hc).choose_spec.2.2)
    (fun c hc => hlinks _ (List.mem_of_getElem? (hcollections c hc).choose_spec.1))
    (gapsCalls node gaps .stop)
  refine ⟨events, gaps, ?_, ?_, hgaps.ok, hgaps.stars_perm,
    Nat.le_trans hgaps.decisions_le (decisions_le plan), fun σ => ?_⟩
  · have hitems : keyerItems db hypothesisLinks archetypeNode keyerPlink
        = some (db.itemiseAs archetypeNode node) := by
      simp [keyerItems, hkey, ASSERT, XTrees.getChildTreePtr, hchild]
    unfold runRegenerationQueryImpl
    simp only [hkey, XTrees.getChildTreePtr, hchild, hitems, hseqs, hcols]
  · -- a link of a collection is not one of a sequence
    intro e he hmem
    obtain ⟨c, hc, hec⟩ := hevents e he
    obtain ⟨i, hi, _⟩ := hcollections c hc
    obtain ⟨s, hs, hes⟩ := List.mem_flatMap.mp (hgaps.stars_perm.mem_iff.mp hmem)
    obtain ⟨j, hj, _⟩ := hreads.mem_sequences.mp hs
    have hij := links_disjoint hnodup hi hj hec (List.mem_filter.mp hes).1
    rw [hij, hj] at hi
    cases hi
  · rw [hgaps.filled_iff]
    exact hnode.forall_sequences hreads (P := fun pattern xs =>
      pattern = [] ∨ interleave isStar a σ pattern = xs.map XLink.link)

/-- **Star ranges partition the sequences and every split is tried**, for exactly the
nodes whose empty sequences meet empty sequences.  For every assignment that satisfies
the symbolic query, whatever state an earlier use left the conjecture in, the lambda
returns finitely many queries and then throws; they are as `TriesEverySplit` says iff no
empty pattern sequence is matched against a sequence with an element. -/
theorem star_splits_exact
    (hnode : KeyerNode db hypothesisLinks archetypeNode keyerPlink node items)
    (hnodup : (items.flatMap PatternItem.links).Nodup)
    (hplan : StandardPlan.constructPlan isStar inReplaceOnly items = some plan)
    {inSetOrder : List (Run V) → List (Run V)} (horder : ∀ runs, (inSetOrder runs).Perm runs)
    (hlinks : ∀ item ∈ items, ∀ p ∈ item.links, isStar p = false →
      hypothesisLinks.lookup p = some (a p))
    (simpleCompare : Option N → Option N → Int) (isLocalMatch : M → Option N → Bool)
    {patternNode : M}
    (hsat : (symbolicNormalLinkedQueryPRed archetypeNode patternNode plan keyerPlink).Satisfied
      (predicateEvaluate hypothesisLinks db (databaseKit db simpleCompare isLocalMatch)))
    {conj : Conjecture L V (AbnormalNode L N)}
    (hconj : conj.pqDecisions = (getPatternQuery isStar plan).decisions)
    (hdecisions : conj.query.decisions.length = conj.pqDecisions.length)
    (hchoices : conj.query.choices.length = conj.pqDecisions.length) :
    ∃ qs, Yields (runRegenerationQuery (nonnull db)
          (runRegenerationQueryImpl db hypothesisLinks inSetOrder archetypeNode plan keyerPlink)
          hypothesisLinks keyerPlink) (startRegenerationQuery conj) qs
      ∧ (TriesEverySplit isStar a items (db.itemiseAs archetypeNode node) qs
        ↔ ∀ pattern xs, SequencePair items (db.itemiseAs archetypeNode node) pattern xs →
            pattern ≠ [] ∨ xs = []) := by
  obtain ⟨y, hkey, _⟩ := hnode.exists_link
  have hreads := StandardPlan.reads_of_constructPlan hplan
  obtain ⟨events, gaps, hcalls, hevents, hgaps⟩ :=
    hnode.node_calls hnodup hplan horder hlinks simpleCompare isLocalMatch hsat
  rw [hcalls]
  -- the stars are different links
  have hstars : (gapsStars gaps).Nodup := by
    rw [hgaps.stars_perm.nodup_iff, ← List.filter_flatMap, hreads.sequences]
    exact (hnodup.sublist (sequences_sublist isStar items 0)).filter _
  have hgapsValid : (gapsCalls node gaps Script.stop).Valid (InContainer (nonnull db)) _ :=
    valid_gaps Script.Valid.stop gaps hgaps.ok hstars
  have hvalid := Script.valid_emitAll hgapsValid events
  have hle : gapsDecisions gaps + 0 ≤ conj.pqDecisions.length := by
    rw [hconj]
    exact hgaps.decisions_le
  -- the conjecture yields the outcomes, one a call
  obtain ⟨qs, hyields, hmap⟩ := yields_outcomes hvalid hkey
    (show conj.pqDecisions.length = _ + (conj.pqDecisions.length - (gapsDecisions gaps + 0)) by omega)
    (by rw [hdecisions]; omega) (by rw [hchoices]; omega)
  refine ⟨qs, hyields, ?_⟩
  -- the outcomes are the ways to fill the gaps, once each
  have hmem : ∀ o : List (V × AbnormalNode L N), o ∈ (gapsCalls node gaps .stop).outcomes
      ↔ ∃ σ : V → List L, (∀ g ∈ gaps, g.Filled σ)
        ∧ o = (gapsStars gaps).map (starEvent node σ) := by
    intro o
    rw [mem_outcomes_gaps gaps hgaps.ok hstars]
    simp [Script.outcomes]
  have honce : (gapsCalls node gaps (.stop : Calls V L N)).outcomes.Nodup :=
    outcomes_gaps_nodup (by simp [Script.outcomes]) gaps hgaps.ok hstars
  -- the query of a call has the sub-sequences of its outcome
  have hquery : ∀ (i : Nat) (q : DecidedQuery L V (AbnormalNode L N)), qs[i]? = some q →
      ∃ σ : V → List L, (∀ g ∈ gaps, g.Filled σ)
        ∧ (gapsCalls node gaps .stop).outcomes[i]? = some ((gapsStars gaps).map (starEvent node σ))
        ∧ ∀ p ∈ gapsStars gaps, q.abnormalNodes.lookup p = some (.subSequence ⟨node, σ p⟩) := by
    intro i q hq
    have hi := congrArg (fun l => l[i]?) hmap
    simp only [List.getElem?_map, hq, Option.map_some, Script.outcomes_emitAll] at hi
    obtain ⟨es, hes, hreg⟩ := Option.map_eq_some_iff.mp hi.symm
    obtain ⟨o, ho, rfl⟩ := Option.map_eq_some_iff.mp hes
    obtain ⟨σ, hσ, rfl⟩ := (hmem o).mp (List.mem_of_getElem? ho)
    refine ⟨σ, hσ, ho, fun p hp => ?_⟩
    rw [← hreg]
    refine registerAll_lookup _ _ ?_ ?_
    · exact List.mem_append_right _ (List.mem_map.mpr ⟨p, hp, rfl⟩)
    · intro e he
      rcases List.mem_append.mp he with he | he
      · exact absurd hp (hevents _ he)
      · obtain ⟨p', _, hpe⟩ := List.mem_map.mp he
        cases hpe
        rfl
  -- the stars of the gaps are those of the sequences
  have hstarsIff : ∀ p, p ∈ gapsStars gaps ↔ ∃ pattern xs,
      SequencePair items (db.itemiseAs archetypeNode node) pattern xs ∧ p ∈ pattern
        ∧ isStar p = true := by
    intro p
    rw [hgaps.stars_perm.mem_iff, List.mem_flatMap]
    constructor
    · intro h
      obtain ⟨s, hs, hp⟩ := h
      obtain ⟨i, hi, _⟩ := hreads.mem_sequences.mp hs
      obtain ⟨xs, hx⟩ := hnode.sequences i s.1 hi
      exact ⟨s.1, xs, ⟨i, hi, hx⟩, (List.mem_filter.mp hp).1, (List.mem_filter.mp hp).2⟩
    · intro h
      obtain ⟨pattern, xs, ⟨i, hi, _⟩, hp, hstar⟩ := h
      exact ⟨(pattern, SequencePlan.make isStar i pattern), hreads.mem_sequences.mpr ⟨i, hi, rfl⟩,
        List.mem_filter.mpr ⟨hp, hstar⟩⟩
  have hlength : qs.length = (gapsCalls node gaps (.stop : Calls V L N)).outcomes.length := by
    have hlen := congrArg List.length hmap
    simpa [Script.outcomes_emitAll] using hlen
  constructor
  · -- an empty pattern makes up an empty sequence only
    intro htries pattern xs hpair
    by_cases hne : pattern = []
    · right
      subst hne
      have hpos : 0 < qs.length := by
        obtain ⟨rest, hrest⟩ := Script.remaining_eq_events hgapsValid
          (Script.fits_fresh hgapsValid (List.length_replicate (a := (emptyRange : Range L))))
        rw [hlength, ← Script.remaining_fresh hgapsValid, hrest]
        exact Nat.succ_pos _
      have hpart := htries.partition qs[0] (List.getElem_mem hpos) [] xs hpair
      exact List.map_eq_nil_iff.mp hpart.symm
    · exact Or.inl hne
  · -- without such a pair, each outcome is a way to split all sequences
    intro hcond
    refine ⟨?_, ?_, ?_⟩
    · intro q hq pattern xs hpair p hp hstar
      obtain ⟨i, hi⟩ := List.mem_iff_getElem?.mp hq
      obtain ⟨σ, _, _, hlook⟩ := hquery i q hi
      exact ⟨_, hlook p ((hstarsIff p).mpr ⟨pattern, xs, hpair, hp, hstar⟩)⟩
    · intro q hq pattern xs hpair
      obtain ⟨i, hi⟩ := List.mem_iff_getElem?.mp hq
      obtain ⟨σ, hσ, _, hlook⟩ := hquery i q hi
      rw [interleave_congr (fun p hp hstar =>
        taken_eq (hlook p ((hstarsIff p).mpr ⟨pattern, xs, hpair, hp, hstar⟩)))]
      rcases (hgaps.filled_iff σ).mp hσ pattern xs hpair with hempty | heq
      · -- both are empty
        rcases hcond pattern xs hpair with hne | hnil
        · exact absurd hempty hne
        · rw [hempty, hnil]
          rfl
      · exact heq
    · -- and each way is the outcome of one call
      intro σ hσ
      have hfilled : ∀ g ∈ gaps, g.Filled σ :=
        (hgaps.filled_iff σ).mpr (fun pattern xs hpair => Or.inr (hσ pattern xs hpair))
      obtain ⟨i, hi⟩ := List.mem_iff_getElem?.mp ((hmem _).mpr ⟨σ, hfilled, rfl⟩)
      have hilt : i < qs.length := by
        rw [hlength]
        exact (List.getElem?_eq_some_iff.mp hi).1
      -- a query with these sub-sequences is that of this outcome
      have hsame : ∀ (j : Nat) (q : DecidedQuery L V (AbnormalNode L N)), qs[j]? = some q →
          ((∀ p ∈ gapsStars gaps, taken q.abnormalNodes p = σ p) ↔ j = i) := by
        intro j q hq
        obtain ⟨σ', _, hj, hlook⟩ := hquery j q hq
        have htaken : ∀ p ∈ gapsStars gaps, taken q.abnormalNodes p = σ' p :=
          fun p hp => taken_eq (hlook p hp)
        constructor
        · intro h
          have hevents : (gapsStars gaps).map (starEvent (N := N) node σ')
              = (gapsStars gaps).map (starEvent node σ) :=
            map_starEvent_inj.mpr (fun p hp => (htaken p hp).symm.trans (h p hp))
          rw [hevents] at hj
          exact (List.getElem?_inj (List.getElem?_eq_some_iff.mp hj).1 honce).mp (hj.trans hi.symm)
        · intro h p hp
          rw [h] at hj
          have hevents := Option.some.inj (hj.symm.trans hi)
          exact (htaken p hp).trans (map_starEvent_inj.mp hevents p hp)
      refine ⟨i, ⟨qs[i], List.getElem?_eq_getElem hilt, ?_⟩, ?_⟩
      · intro pattern xs hpair p hp hstar
        exact (hsame i _ (List.getElem?_eq_getElem hilt)).mpr rfl p
          ((hstarsIff p).mpr ⟨pattern, xs, hpair, hp, hstar⟩)
      · intro j hj
        obtain ⟨q, hq, htaken⟩ := hj
        refine (hsame j q hq).mp (fun p hp => ?_)
        obtain ⟨pattern, xs, hpair, hmemp, hstar⟩ := (hstarsIff p).mp hp
        exact htaken pattern xs hpair p hmemp hstar

end

/-- A root with a sequence of two leaves. -/
def twoLeaves : Layout :=
  ⟨[.sequence [1, 2]], 2, rfl⟩

/-- Link 0 for the keyer 0, and link 1 for the non-star child 11. -/
def twoLinks : StdMap Nat (XLink Nat) :=
  (StdMap.empty.set 0 (.link 0)).set 11 (.link 1)

theorem twoLeaves_keyerNode {pattern : List Nat} :
    KeyerNode (flatDatabase twoLeaves) twoLinks () 0 0 [.sequence pattern] where
  exists_link := ⟨0, rfl, by show 0 ∈ Finset.range 3; simp, rfl⟩
  isSubcategory := rfl
  sequences := by
    intro i pattern' hi
    have hi0 : i = 0 := by
      have hlt := (List.getElem?_eq_some_iff.mp hi).1
      simpa using hlt
    subst hi0
    exact ⟨[1, 2], rfl⟩
  collections := by
    intro i pattern' hi
    obtain ⟨hlt, heq⟩ := List.getElem?_eq_some_iff.mp hi
    have hi0 : i = 0 := by simpa using hlt
    subst hi0
    cases heq

/-- **An empty pattern sequence loses the input's**: the one call returns no
sub-sequence, and the two leaves are in none. -/
theorem empty_sequence_not_partitioned :
    ∃ qs, (symbolicNormalLinkedQueryPRed () () ⟨[([], SequencePlan.make (fun _ => false) 0 [])],
          [], []⟩ 0).Satisfied (predicateEvaluate twoLinks (flatDatabase twoLeaves)
            (databaseKit (flatDatabase twoLeaves) (fun _ _ => 0) (fun _ _ => true)))
      ∧ Yields (runRegenerationQuery (nonnull (flatDatabase twoLeaves))
          (runRegenerationQueryImpl (flatDatabase twoLeaves) twoLinks id ()
            ⟨[([], SequencePlan.make (fun _ => false) 0 [])], [], []⟩ 0) twoLinks 0)
          (startRegenerationQuery (Conjecture.make [])) qs
      ∧ ¬ TriesEverySplit (fun _ => false) (fun _ => .link 1) [.sequence []] [.sequence [1, 2]]
          qs := by
  refine ⟨[_], ?_, Yields.returns rfl (Yields.throws rfl), ?_⟩
  · rw [satisfied_pRed_iff]
    refine ⟨rfl, by simp, by simp, ?_⟩
    intro s hs
    rw [List.mem_singleton] at hs
    subst hs
    rw [satisfied_query_iff, SequencePlan.make_holds_iff]
    simp [SequencePlan.wildcard, Lib.Wildcard.Constraints]
  · intro htries
    have hpart := htries.partition _ List.mem_cons_self [] [1, 2] ⟨0, rfl, rfl⟩
    cases hpart

/-- The pattern `(*, a, *, *)` over two leaves, `a` the first: its two last stars share
the second. -/
theorem star_splits_exact_two :
    ∃ qs, Yields (runRegenerationQuery (nonnull (flatDatabase twoLeaves))
          (runRegenerationQueryImpl (flatDatabase twoLeaves) twoLinks id ()
            ⟨[([10, 11, 12, 13], SequencePlan.make (· != 11) 0 [10, 11, 12, 13])], [], []⟩ 0)
          twoLinks 0) (startRegenerationQuery (Conjecture.make [true, true])) qs
      ∧ TriesEverySplit (· != 11) (fun _ => .link 1) [.sequence [10, 11, 12, 13]]
          [.sequence [1, 2]] qs := by
  have hlinks : ∀ p ∈ [10, 11, 12, 13], (p != 11) = false →
      twoLinks.lookup p = some (XLink.link 1) := by
    intro p _ hp
    have hp11 : p = 11 := by simpa using hp
    rw [hp11]
    rfl
  -- the one element before the star runs is matched
  have hmatches : Lib.Wildcard.Matches (fun _ : Nat => XLink.link 1)
      (SequencePlan.wildcard (· != 11) [10, 11, 12, 13]) ([1, 2].map XLink.link) := by
    refine Lib.Wildcard.Matches.star [] (Lib.Wildcard.Matches.letter 11 ?_)
    exact Lib.Wildcard.Matches.star [] (Lib.Wildcard.Matches.star [XLink.link 2]
      Lib.Wildcard.Matches.nil)
  have hkeyer : KeyerAt (flatDatabase twoLeaves) twoLinks () 0 0 [1, 2] :=
    ⟨0, 0, rfl, by show 0 ∈ Finset.range 3; simp, rfl, rfl, rfl⟩
  have hnode : KeyerNode (flatDatabase twoLeaves) twoLinks () 0 0
      [.sequence [10, 11, 12, 13]] :=
    twoLeaves_keyerNode
  have hsat : (symbolicNormalLinkedQueryPRed () ()
      ⟨[([10, 11, 12, 13], SequencePlan.make (· != 11) 0 [10, 11, 12, 13])], [], []⟩
      0).Satisfied (predicateEvaluate twoLinks (flatDatabase twoLeaves)
        (databaseKit (flatDatabase twoLeaves) (fun _ _ => 0) (fun _ _ => true))) := by
    rw [satisfied_pRed_iff]
    refine ⟨rfl, by simp, by simp, ?_⟩
    intro s hs
    rw [List.mem_singleton] at hs
    subst hs
    exact (hkeyer.satisfied_iff_matches _ _ (· != 11) (by simp) (fun _ => .link 1) hlinks).mpr
      hmatches
  have hplan : StandardPlan.constructPlan (· != 11) false [PatternItem.sequence [10, 11, 12, 13]]
      = some ⟨[([10, 11, 12, 13], SequencePlan.make (· != 11) 0 [10, 11, 12, 13])], [], []⟩ :=
    rfl
  -- the theorem at this pattern; none of its sequences is empty
  obtain ⟨qs, hyields, htries⟩ := star_splits_exact hnode (by decide) hplan
    (fun runs => List.Perm.refl _)
    (fun item hitem p hp => hlinks p (by
      rw [List.mem_singleton] at hitem
      rw [hitem] at hp
      exact hp))
    (fun _ _ => 0) (fun _ _ => true) hsat
    (show (Conjecture.make [true, true]).pqDecisions = _ from rfl) rfl rfl
  refine ⟨qs, hyields, htries.mpr ?_⟩
  intro pattern xs hpair
  obtain ⟨i, hi, _⟩ := hpair
  obtain ⟨hlt, heq⟩ := List.getElem?_eq_some_iff.mp hi
  have hi0 : i = 0 := by simpa using hlt
  subst hi0
  cases heq
  exact Or.inl (by simp)

end Inferno.Agents
