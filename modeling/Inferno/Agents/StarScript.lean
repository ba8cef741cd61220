/-
  Inferno.Agents.StarScript
  ─────────────────────────
  What the calls of regeneration can register, over all choices.

    • `mem_outcomes_elts`  — the stars of one run: each way to fill its gap,
    • `gapsCalls`          — the calls for a list of gaps,
    • `mem_outcomes_gaps`  — each joint way to fill them,
    • `outcomes_gaps_nodup` — once.
-/
import Inferno.Agents.Regeneration
import Inferno.Agents.StarRuns
import Inferno.Engine.ConjectureExact

namespace Inferno.Agents

open Inferno.Common
open Inferno.DB
open Inferno.Engine
open Inferno.Lib.Odometer

variable {V L N : Type} [DecidableEq V] [DecidableEq L]

/-- What is registered for a star that takes `σ`. -/
def starEvent (parentX : N) (σ : V → List L) (p : V) : V × AbnormalNode L N :=
  (p, .subSequence ⟨parentX, σ p⟩)

omit [DecidableEq V] [DecidableEq L] in
/-- The sub-sequences are read off the events. -/
theorem map_starEvent_inj {parentX : N} {σ σ' : V → List L} {elts : List V} :
    elts.map (starEvent parentX σ) = elts.map (starEvent parentX σ')
      ↔ ∀ p ∈ elts, σ p = σ' p := by
  rw [List.map_inj_left]
  simp [starEvent]

/-! ## §1. One run. -/

section

variable {parentX : N} {xs : List L} {limit : Nat} {k : Calls V L N}

/-- The range of a star that another follows. -/
def starRange (xs : List L) (first limit : Nat) : Range L :=
  ⟨⟨xs, first⟩, ⟨xs, limit⟩, true⟩

omit [DecidableEq L] in
theorem starRange_holds {first : Nat} {c : Iterator L} :
    (starRange xs first limit).Holds c ↔ c.container = xs ∧ first ≤ c.pos ∧ c.pos ≤ limit := by
  constructor
  · intro h
    exact ⟨h.container, h.ge, Nat.lt_succ_iff.mp h.lt⟩
  · intro h
    exact ⟨h.1, h.2.1, Nat.lt_succ_iff.mpr h.2.2⟩

omit [DecidableEq L] in
theorem starRange_proper {first : Nat} (h : first ≤ limit) :
    (starRange xs first limit).Proper :=
  ⟨rfl, Nat.lt_succ_iff.mpr h⟩

omit [DecidableEq L] in
/-- The last star takes what is left. -/
theorem elts_last (p : V) (xit xitStarLimit : Iterator L) :
    regenerationQueryElts parentX (some p) xitStarLimit [p] xit k
      = .emit (p, .subSequence ⟨parentX, between xit xitStarLimit⟩) k := by
  simp [regenerationQueryElts]

omit [DecidableEq L] in
/-- A star before the last asks for its end. -/
theorem elts_cons {p q : V} {elts : List V} (hnodup : (p :: q :: elts).Nodup) (first : Nat) :
    regenerationQueryElts parentX (p :: q :: elts).getLast? ⟨xs, limit⟩ (p :: q :: elts) ⟨xs, first⟩ k
      = .choose (starRange xs first limit) (fun c =>
          .emit (p, .subSequence ⟨parentX, between ⟨xs, first⟩ c⟩)
            (regenerationQueryElts parentX (q :: elts).getLast? ⟨xs, limit⟩ (q :: elts) c k)) := by
  have hlast : some p ≠ (p :: q :: elts).getLast? := by
    rw [List.getLast?_cons_cons, List.getLast?_eq_some_getLast (by simp)]
    intro h
    have hmem := List.getLast_mem (List.cons_ne_nil q elts)
    rw [← Option.some.inj h] at hmem
    exact (List.nodup_cons.mp hnodup).1 hmem
  rw [regenerationQueryElts, if_pos hlast, List.getLast?_cons_cons]
  rfl

omit [DecidableEq L] in
theorem between_length {xs : List L} {first m : Nat} (hm : m ≤ xs.length) :
    (between (⟨xs, first⟩ : Iterator L) ⟨xs, m⟩).length = m - first := by
  unfold between
  rw [List.length_drop, List.length_take, Nat.min_eq_left hm]

omit [DecidableEq L] in
/-- **The stars of a run register each way to fill its gap.**  The induction is on the
stars; the position reached is the choice of the one before. -/
theorem mem_outcomes_elts (hlimit : limit ≤ xs.length) (elts : List V) :
    ∀ (first : Nat), elts ≠ [] → elts.Nodup → first ≤ limit → ∀ o : List (V × AbnormalNode L N),
      o ∈ (regenerationQueryElts parentX elts.getLast? ⟨xs, limit⟩ elts ⟨xs, first⟩ k).outcomes
        ↔ ∃ (σ : V → List L) (o' : List (V × AbnormalNode L N)),
            elts.flatMap σ = (xs.take limit).drop first ∧ o' ∈ k.outcomes
            ∧ o = elts.map (starEvent parentX σ) ++ o' := by
  induction elts with
  | nil => intro first hne; exact absurd rfl hne
  | cons p elts ih =>
      intro first _ hnodup hle o
      cases elts with
      | nil =>
          -- the last star takes all that is left, without a choice
          rw [List.getLast?_singleton, elts_last, Script.outcomes, List.mem_map]
          constructor
          · intro h
            obtain ⟨o', ho', rfl⟩ := h
            exact ⟨fun _ => (xs.take limit).drop first, o', by simp, ho', rfl⟩
          · intro h
            obtain ⟨σ, o', hσ, ho', rfl⟩ := h
            have hσp : σ p = (xs.take limit).drop first := by simpa using hσ
            exact ⟨o', ho', by simp [starEvent, hσp, between]⟩
      | cons q elts =>
          have hrest := ih
          rw [elts_cons hnodup, Script.outcomes, List.mem_flatMap]
          have hnodup' := (List.nodup_cons.mp hnodup)
          -- the next stars start where this one ends
          constructor
          · intro h
            obtain ⟨c, hc, ho⟩ := h
            obtain ⟨hcont, hge, hlt⟩ := starRange_holds.mp (Span.mem_cursors.mp hc)
            obtain ⟨container, m⟩ := c
            have hcont' : container = xs := hcont
            subst hcont'
            rw [Script.outcomes, List.mem_map] at ho
            obtain ⟨o₁, ho₁, rfl⟩ := ho
            obtain ⟨σ, o', hσ, ho', rfl⟩ :=
              (ih m (by simp) hnodup'.2 hlt o₁).mp ho₁
            have hfm : first ≤ m := hge
            have hml : m ≤ limit := hlt
            -- the first star takes what is before the place chosen
            obtain ⟨σ', hσ'⟩ : ∃ σ', σ' = Function.update σ p ((container.take m).drop first) :=
              ⟨_, rfl⟩
            have hself : σ' p = (container.take m).drop first := by
              rw [hσ', Function.update_self]
            have hother : ∀ r ∈ q :: elts, σ' r = σ r := by
              intro r hr
              have hrp : r ≠ p := by
                intro heq
                rw [heq] at hr
                exact hnodup'.1 hr
              rw [hσ', Function.update_of_ne hrp]
            refine ⟨σ', o', ?_, ho', ?_⟩
            · -- the two parts make up the whole
              rw [List.flatMap_cons, hself, List.flatMap_congr hother, hσ]
              have hsplit : (container.take limit).drop first
                  = ((container.take limit).drop first).take (m - first)
                    ++ ((container.take limit).drop first).drop (m - first) :=
                (List.take_append_drop _ _).symm
              have htake : (container.take m).drop first
                  = ((container.take limit).drop first).take (m - first) := by
                rw [List.take_drop, List.take_take]
                congr 2
                omega
              have hdrop : (container.take limit).drop m
                  = ((container.take limit).drop first).drop (m - first) := by
                rw [List.drop_drop]
                congr 1
                omega
              rw [hsplit, htake, hdrop]
            · show _ = (p, AbnormalNode.subSequence ⟨parentX, σ' p⟩)
                :: ((q :: elts).map (starEvent parentX σ') ++ o')
              rw [map_starEvent_inj.mpr hother, hself]
              rfl
          · intro h
            -- the choice is where the sub-sequence of the first star ends
            obtain ⟨σ, o', hσ, ho', rfl⟩ := h
            rw [List.flatMap_cons] at hσ
            have hlen : (σ p).length + ((q :: elts).flatMap σ).length = limit - first := by
              rw [← List.length_append, hσ, List.length_drop, List.length_take,
                Nat.min_eq_left hlimit]
            obtain ⟨m, hm⟩ : ∃ m, m = first + (σ p).length := ⟨_, rfl⟩
            have hmle : m ≤ limit := by omega
            have hσp : (xs.take m).drop first = σ p := by
              have htake := congrArg (List.take (σ p).length) hσ
              rw [List.take_left] at htake
              have hmin : min (first + (σ p).length) limit = m := by omega
              rw [htake, List.take_drop, List.take_take, hmin]
            have hσrest : (q :: elts).flatMap σ = (xs.take limit).drop m := by
              have hdrop := congrArg (List.drop (σ p).length) hσ
              rw [List.drop_left, List.drop_drop] at hdrop
              rw [hdrop, hm]
            have hfm : first ≤ m := by omega
            refine ⟨⟨xs, m⟩, Span.mem_cursors.mpr (starRange_holds.mpr ⟨rfl, hfm, hmle⟩), ?_⟩
            rw [Script.outcomes, List.mem_map]
            refine ⟨(q :: elts).map (starEvent parentX σ) ++ o',
              (ih m (by simp) hnodup'.2 hmle _).mpr ⟨σ, o', hσrest, ho', rfl⟩, ?_⟩
            have hbetween : between (⟨xs, first⟩ : Iterator L) ⟨xs, m⟩ = σ p := hσp
            rw [hbetween]
            rfl

omit [DecidableEq L] in
/-- They register no way twice. -/
theorem outcomes_elts_nodup (hlimit : limit ≤ xs.length) (hk : k.outcomes.Nodup)
    (elts : List V) :
    ∀ (first : Nat), elts.Nodup → first ≤ limit →
      (regenerationQueryElts parentX elts.getLast? ⟨xs, limit⟩ elts ⟨xs, first⟩
        k).outcomes.Nodup := by
  induction elts with
  | nil => intro first _ _; exact hk
  | cons p elts ih =>
      intro first hnodup hle
      cases elts with
      | nil =>
          rw [List.getLast?_singleton, elts_last, Script.outcomes]
          -- one star registers one node, whatever follows
          exact hk.map (List.cons_injective)
      | cons q elts =>
          rw [elts_cons hnodup, Script.outcomes, List.nodup_flatMap]
          constructor
          · -- after one choice: the rest differ
            intro c hc
            obtain ⟨hcont, _, hlt⟩ := starRange_holds.mp (Span.mem_cursors.mp hc)
            obtain ⟨container, m⟩ := c
            have hcont' : container = xs := hcont
            subst hcont'
            rw [Script.outcomes]
            exact (ih m (List.nodup_cons.mp hnodup).2 hlt).map List.cons_injective
          · -- two choices give the first star sub-sequences of two lengths
            refine (Span.cursors_nodup _).pairwise_of_forall_ne ?_
            intro c hc c' hc' hne o ho ho'
            obtain ⟨hcont, hge, hlt⟩ := starRange_holds.mp (Span.mem_cursors.mp hc)
            obtain ⟨hcont', hge', hlt'⟩ := starRange_holds.mp (Span.mem_cursors.mp hc')
            obtain ⟨container, m⟩ := c
            obtain ⟨container', m'⟩ := c'
            have heq : container = xs := hcont
            have heq' : container' = xs := hcont'
            subst heq
            subst heq'
            obtain ⟨o₁, _, ho⟩ := List.mem_map.mp ho
            obtain ⟨o₁', _, ho'⟩ := List.mem_map.mp ho'
            have hhead := (List.cons.inj (ho.trans ho'.symm)).1
            have hbetween : between (⟨container', first⟩ : Iterator L) ⟨container', m⟩
                = between ⟨container', first⟩ ⟨container', m'⟩ := by
              simpa using hhead
            have hlen := congrArg List.length hbetween
            have hm : m ≤ limit := hlt
            have hm' : m' ≤ limit := hlt'
            have hf : first ≤ m := hge
            have hf' : first ≤ m' := hge'
            rw [between_length (by omega), between_length (by omega)] at hlen
            exact hne (by congr 1; omega)

omit [DecidableEq L] in
/-- They register a decision for each star but the last. -/
theorem valid_elts {nonnull : L → Bool} (hlimit : limit ≤ xs.length)
    (hnonnull : ∀ x ∈ xs, nonnull x = true) {n : Nat} (hk : k.Valid (InContainer nonnull) n)
    (elts : List V) :
    ∀ (first : Nat), elts.Nodup → first ≤ limit →
      (regenerationQueryElts parentX elts.getLast? ⟨xs, limit⟩ elts ⟨xs, first⟩ k).Valid
        (InContainer nonnull) (elts.length - 1 + n) := by
  induction elts with
  | nil =>
      intro first _ _
      show Script.Valid _ k (0 - 1 + n)
      rw [Nat.zero_sub, Nat.zero_add]
      exact hk
  | cons p elts ih =>
      intro first hnodup hle
      cases elts with
      -- the last star takes what is left, with no decision
      | nil =>
          rw [List.getLast?_singleton, elts_last]
          show Script.Valid _ _ (1 - 1 + n)
          rw [Nat.sub_self, Nat.zero_add]
          exact Script.Valid.emit hk
      | cons q elts =>
          rw [elts_cons hnodup]
          have hcount : (p :: q :: elts).length - 1 + n = ((q :: elts).length - 1 + n) + 1 := by
            simp only [List.length_cons]
            omega
          rw [hcount]
          -- a choice within the limit leaves the rest of the stars within it
          refine Script.Valid.choose (starRange_proper hle) ⟨hlimit, hnonnull⟩ ?_
          intro c hc
          obtain ⟨hcont, _, hlt⟩ := starRange_holds.mp hc
          obtain ⟨container, m⟩ := c
          have hcont' : container = xs := hcont
          subst hcont'
          exact Script.Valid.emit (ih m (List.nodup_cons.mp hnodup).2 hlt)

end

/-! ## §2. All runs. -/

/-- The calls for the stars of the gaps. -/
def gapsCalls (parentX : N) (gaps : List (Gap V L)) (k : Calls V L N) : Calls V L N :=
  gaps.foldr (fun g k => regenerationQueryElts parentX g.run.elts.getLast? ⟨g.container, g.limit⟩
    g.run.elts ⟨g.container, g.first⟩ k) k

/-- The stars of the gaps. -/
def gapsStars (gaps : List (Gap V L)) : List V :=
  gaps.flatMap (fun g => g.run.elts)

/-- The gap is a part of its container, whose elements are not null; it is empty when
the run is. -/
structure Gap.Ok (nonnull : L → Bool) (g : Gap V L) : Prop where
  first_le : g.first ≤ g.limit
  limit_le : g.limit ≤ g.container.length
  empty : g.run.elts = [] → g.first = g.limit
  nonnull : ∀ x ∈ g.container, nonnull x = true

variable {parentX : N} {nonnull : L → Bool}

omit [DecidableEq V] [DecidableEq L] in
/-- A run with no star fills its gap. -/
theorem Gap.Ok.filled_of_empty {g : Gap V L} (h : g.Ok nonnull) (hempty : g.run.elts = [])
    (σ : V → List L) : g.Filled σ := by
  have hfirst := h.empty hempty
  unfold Gap.Filled Gap.segment
  rw [hempty, hfirst, List.drop_eq_nil_iff.mpr (List.length_take_le _ _)]
  rfl

omit [DecidableEq V] [DecidableEq L] in
/-- Filling depends on the sub-sequences of the run's stars. -/
theorem Gap.filled_congr {g : Gap V L} {σ σ' : V → List L} (h : ∀ p ∈ g.run.elts, σ p = σ' p) :
    g.Filled σ ↔ g.Filled σ' := by
  unfold Gap.Filled
  rw [List.flatMap_congr h]

omit [DecidableEq L] in
/-- **The calls register each joint way to fill the gaps.** -/
theorem mem_outcomes_gaps {k : Calls V L N} (gaps : List (Gap V L)) :
    (∀ g ∈ gaps, g.Ok nonnull) → (gapsStars gaps).Nodup → ∀ o : List (V × AbnormalNode L N),
      o ∈ (gapsCalls parentX gaps k).outcomes
        ↔ ∃ (σ : V → List L) (o' : List (V × AbnormalNode L N)),
            (∀ g ∈ gaps, g.Filled σ) ∧ o' ∈ k.outcomes
            ∧ o = (gapsStars gaps).map (starEvent parentX σ) ++ o' := by
  induction gaps with
  | nil =>
      intro _ _ o
      show o ∈ k.outcomes ↔ _
      simp [gapsStars]
  | cons g gaps ih =>
      intro hok hnodup o
      rw [List.forall_mem_cons] at hok
      have hstars : gapsStars (g :: gaps) = g.run.elts ++ gapsStars gaps := List.flatMap_cons ..
      rw [hstars, List.nodup_append] at hnodup
      obtain ⟨hhead, htail, hdisj⟩ := hnodup
      have hrest := ih hok.2 htail
      -- a run without stars makes no call
      by_cases hempty : g.run.elts = []
      · have hcalls : gapsCalls parentX (g :: gaps) k = gapsCalls parentX gaps k := by
          show regenerationQueryElts _ _ _ g.run.elts _ _ = _
          rw [hempty]
          rfl
        rw [hcalls, hrest, hstars, hempty, List.nil_append]
        simp [hok.1.filled_of_empty hempty]
      · have hone : o ∈ (gapsCalls parentX (g :: gaps) k).outcomes ↔ _ :=
          mem_outcomes_elts hok.1.limit_le g.run.elts g.first hempty hhead hok.1.first_le o
        rw [hone, hstars]
        constructor
        · intro h
          obtain ⟨σ₁, o₁, hσ₁, ho₁, rfl⟩ := h
          obtain ⟨σ₂, o', hσ₂, ho', rfl⟩ := (hrest o₁).mp ho₁
          -- each star is in one run
          have hfst : ∀ p ∈ g.run.elts, (if p ∈ g.run.elts then σ₁ p else σ₂ p) = σ₁ p :=
            fun p hp => if_pos hp
          have hsnd : ∀ p ∈ gapsStars gaps, (if p ∈ g.run.elts then σ₁ p else σ₂ p) = σ₂ p :=
            fun p hp => if_neg (fun h => hdisj p h p hp rfl)
          refine ⟨fun p => if p ∈ g.run.elts then σ₁ p else σ₂ p, o', ?_, ho', ?_⟩
          · rw [List.forall_mem_cons]
            refine ⟨(Gap.filled_congr hfst).mpr hσ₁, fun g' hg' => ?_⟩
            refine (Gap.filled_congr (fun p hp => hsnd p ?_)).mpr (hσ₂ g' hg')
            exact List.mem_flatMap.mpr ⟨g', hg', hp⟩
          · rw [List.map_append, List.append_assoc, map_starEvent_inj.mpr hfst,
              map_starEvent_inj.mpr hsnd]
        · -- the sub-sequences fill the first gap and the others
          intro h
          obtain ⟨σ, o', hσ, ho', rfl⟩ := h
          rw [List.forall_mem_cons] at hσ
          refine ⟨σ, (gapsStars gaps).map (starEvent parentX σ) ++ o', hσ.1, ?_, ?_⟩
          · exact (hrest _).mpr ⟨σ, o', hσ.2, ho', rfl⟩
          · rw [List.map_append, List.append_assoc]

omit [DecidableEq L] in
/-- Once each. -/
theorem outcomes_gaps_nodup {k : Calls V L N} (hk : k.outcomes.Nodup) (gaps : List (Gap V L)) :
    (∀ g ∈ gaps, g.Ok nonnull) → (gapsStars gaps).Nodup →
      (gapsCalls parentX gaps k).outcomes.Nodup := by
  induction gaps with
  | nil => intro _ _; exact hk
  | cons g gaps ih =>
      intro hok hnodup
      rw [List.forall_mem_cons] at hok
      have hstars : gapsStars (g :: gaps) = g.run.elts ++ gapsStars gaps := List.flatMap_cons ..
      rw [hstars, List.nodup_append] at hnodup
      exact outcomes_elts_nodup hok.1.limit_le (ih hok.2 hnodup.2.1) g.run.elts g.first hnodup.1
        hok.1.first_le

/-- The decisions the calls register. -/
def gapsDecisions (gaps : List (Gap V L)) : Nat :=
  (gaps.map (fun g => g.run.elts.length - 1)).sum

omit [DecidableEq L] in
theorem valid_gaps {k : Calls V L N} {n : Nat} (hk : k.Valid (InContainer nonnull) n)
    (gaps : List (Gap V L)) :
    (∀ g ∈ gaps, g.Ok nonnull) → (gapsStars gaps).Nodup →
      (gapsCalls parentX gaps k).Valid (InContainer nonnull) (gapsDecisions gaps + n) := by
  induction gaps with
  | nil =>
      intro _ _
      show Script.Valid _ k (0 + n)
      rw [Nat.zero_add]
      exact hk
  | cons g gaps ih =>
      intro hok hnodup
      rw [List.forall_mem_cons] at hok
      have hstars : gapsStars (g :: gaps) = g.run.elts ++ gapsStars gaps := List.flatMap_cons ..
      rw [hstars, List.nodup_append] at hnodup
      have hcount : gapsDecisions (g :: gaps) + n
          = g.run.elts.length - 1 + (gapsDecisions gaps + n) := by
        unfold gapsDecisions
        rw [List.map_cons, List.sum_cons, Nat.add_assoc]
      rw [hcount]
      exact valid_elts hok.1.limit_le hok.1.nonnull (ih hok.2 hnodup.2.1) g.run.elts g.first
        hnodup.1 hok.1.first_le

end Inferno.Agents
