/-
  Inferno.DB.ChannelSafety
  ────────────────────────
  **WHAT HOLDS IN EVERY RUN OF A DOMAIN EXTENSION CHANNEL.**

    • `Inv.exec`                    — one step keeps the invariant, and its
                                      assertions hold,
    • `extension_maps_invariant`    — reference counts, reverse map, and no
                                      assertion, in every run,
    • `no_stimulus_lost`            — every live XLink is checked or awaits a
                                      check, in the runs whose extension trees
                                      sort after the stimulus being checked;
                                      `stimulus_lost` is a run where one does not,
    • `no_extension_tree_leaked`    — every extension tree without stimulii is torn
                                      down or queued, in the runs whose teardowns
                                      release later ordinals only;
                                      `extension_tree_leaked` is a run where one
                                      releases an earlier ordinal.
-/
import Inferno.DB.ChannelRuns

namespace Inferno.DB.World

open Inferno.Common
open DomainExtensionChannel

variable {X R : Type} [LinearOrder X] [DecidableEq R]

/-! ## §1. Every step keeps the invariant. -/

theorem start_inv : (start : World X R).Inv := by
  refine ⟨empty_wf, ?_, Finset.empty_subset _, Finset.empty_subset _⟩
  intro s hs
  exact absurd hs (Finset.notMem_empty s)

/-- Deleting links of the database keeps the invariant, outside the update loop. -/
theorem Inv.deletion {w w' : World X R} (h : w.Inv) {xlinks : List X}
    (hphase : ∀ v, w.phase ≠ .updating v) (halive : w'.alive = w.alive \ xlinks.toFinset)
    (hwf : w'.channel.WF)
    (hdrop : w.channel.Drops w'.channel
      (fun s => s ∈ xlinks ∨ ∃ x ∈ xlinks, w.channel.DependsOn s x))
    (hre : ∀ y, y ∈ w'.channel.stimuliiToRecheck ↔ y ∉ xlinks ∧
      (y ∈ w.channel.stimuliiToRecheck ∨ ∃ x ∈ xlinks, w.channel.DependsOn y x)) :
    w'.Inv := by
  refine ⟨hwf, ?_, ?_, ?_⟩
  · -- what awaits a check was not recorded, or has just lost its record
    intro s hs hin
    obtain ⟨_, hs | hs⟩ := (hre s).mp hs
    · exfalso
      have hout := h.disjoint hphase s hs
      by_cases hg : s ∈ xlinks ∨ ∃ x ∈ xlinks, w.channel.DependsOn s x
      · exact (StdMap.lookup_eq_none.mp (hdrop.goes s hg)) hin
      · rw [StdMap.mem_keys, hdrop.stays s hg, ← StdMap.mem_keys] at hin
        exact hout hin
    · exact absurd hin (StdMap.lookup_eq_none.mp (hdrop.goes s (Or.inr hs)))
  · intro y hy
    obtain ⟨hout, hy⟩ := (hre y).mp hy
    rw [halive, Finset.mem_sdiff, List.mem_toFinset]
    refine ⟨?_, hout⟩
    rcases hy with hy | ⟨x, _, info, hinfo, _⟩
    · exact h.recheck_alive hy
    · exact h.stimulii_alive (StdMap.mem_keys_of_lookup hinfo)
  · intro s hs
    have hstay : ¬ (s ∈ xlinks ∨ ∃ x ∈ xlinks, w.channel.DependsOn s x) := by
      intro hg
      exact StdMap.lookup_eq_none.mp (hdrop.goes s hg) hs
    rw [StdMap.mem_keys, hdrop.stays s hstay, ← StdMap.mem_keys] at hs
    rw [halive, Finset.mem_sdiff, List.mem_toFinset]
    exact ⟨h.stimulii_alive hs, fun hin => hstay (Or.inl hin)⟩

/-- **One step**: its assertions hold, and it keeps the invariant. -/
theorem Inv.exec {w : World X R} (h : w.Inv) {l : Label X R} (hen : w.Enabled l) :
    ∃ w', w.exec l = some w' ∧ w'.Inv := by
  -- one case per label; what can be recorded and await a recheck at once is the point
  cases l with
  | insertAction x =>
      refine ⟨_, h.exec_insertAction hen, h.wf.setRecheck _, ?_, ?_, ?_⟩
      · intro s hs hin
        rcases Finset.mem_insert.mp hs with rfl | hs
        · exact absurd (h.stimulii_alive hin) hen.2
        · exact h.apart s hs hin
      · exact Finset.insert_subset_insert x h.recheck_alive
      · exact h.stimulii_alive.trans (Finset.subset_insert x _)
  | deleteAction x =>
      -- a deletion takes records out and puts their stimulii up for recheck
      obtain ⟨c', hex, hwf, hdrop, hre⟩ := h.exec_deleteAction hen
      have hidle : w.phase = .idle := hen.1
      have hdrop' : w.channel.Drops c'
          (fun s => s ∈ [x] ∨ ∃ z ∈ [x], w.channel.DependsOn s z) := by simpa using hdrop
      refine ⟨_, hex, h.deletion (by simp [hidle]) ?_ hwf hdrop' ?_⟩
      · show w.alive.erase x = _
        rw [Finset.erase_eq]
        rfl
      · simpa using hre
  | otherTrees trees => exact ⟨_, rfl, h.wf, h.apart, h.recheck_alive, h.stimulii_alive⟩
  | beginEndOfUpdate =>
      have hidle : w.phase = .idle := hen
      refine ⟨_, rfl, h.wf, ?_, h.recheck_alive, h.stimulii_alive⟩
      intro s hs hin
      exact absurd hin (h.disjoint (by simp [hidle]) s hs)
  | check x info built =>
      obtain ⟨c', visited, hphase, hnext, hex, hwf, hspec⟩ := h.exec_check hen
      obtain ⟨hxin, hxlt⟩ := nextAfter_eq_some hnext
      have halive : w.alive ⊆
          if w.channel.needsTree info then w.alive ∪ built.xlinks.toFinset else w.alive := by
        split
        · exact Finset.subset_union_left
        · exact Finset.Subset.refl _
      -- the only new record is that of the link checked
      have hrecord : ∀ s ∈ c'.stimulusToInducedRootAndDeps.keys,
          s = x ∨ s ∈ w.channel.stimulusToInducedRootAndDeps.keys := by
        intro s hs
        rw [StdMap.mem_keys, hspec.stimulii] at hs
        split at hs
        next hx => exact Or.inl hx.1
        next => exact Or.inr ((StdMap.mem_keys _ _).mpr hs)
      refine ⟨_, hex, hwf, ?_, ?_, ?_⟩
      · -- recorded and awaiting: the stimulus just checked, or one checked before it
        intro s hs hin
        refine ⟨x, rfl, ?_⟩
        rcases hrecord s hin with rfl | hrec
        · exact le_rfl
        · rcases (hspec.recheck s).mp hs with hs | ⟨hneeds, hs⟩
          · obtain ⟨v, hv, hle⟩ := h.apart s hs hrec
            rw [hphase] at hv
            cases hv
            exact hle.trans (hxlt v rfl).le
          · exact absurd (h.stimulii_alive hrec) ((hen.2 hneeds).2.1 s hs)
      · -- new links come into the domain as the tree that was built
        intro y hy
        show y ∈ if w.channel.needsTree info then w.alive ∪ built.xlinks.toFinset else w.alive
        rcases (hspec.recheck y).mp hy with hy | ⟨hneeds, hy⟩
        · exact halive (h.recheck_alive hy)
        · rw [if_pos hneeds]
          exact Finset.mem_union_right _ (List.mem_toFinset.mpr hy)
      · intro s hs
        refine halive ?_
        rcases hrecord s hs with rfl | hrec
        · exact h.recheck_alive hxin
        · exact h.stimulii_alive hrec
  | finishEndOfUpdate n =>
      obtain ⟨_, hex⟩ := h.exec_finishEndOfUpdate hen
      refine ⟨_, hex, h.wf.setRecheck ∅, ?_, Finset.empty_subset _, h.stimulii_alive⟩
      intro s hs
      exact absurd hs (Finset.notMem_empty s)
  | beginEndOfStep =>
      have hidle : w.phase = .idle := hen
      refine ⟨_, rfl, h.wf, ?_, h.recheck_alive, h.stimulii_alive⟩
      intro s hs hin
      exact absurd hin (h.disjoint (by simp [hidle]) s hs)
  | teardown ord xlinks =>
      -- a teardown deletes as `DeleteAction` does
      obtain ⟨c', visited, hphase, _, hex, hwf, hdrop, hre⟩ := h.exec_teardown hen
      exact ⟨_, hex, h.deletion (by simp [hphase]) rfl hwf hdrop hre⟩
  | finishEndOfStep =>
      have hphase : ∀ v, w.phase ≠ .updating v := by
        intro v hv
        have hnext : w.nextOrdinal = some none := hen
        simp [nextOrdinal, hv] at hnext
      refine ⟨_, rfl, ⟨h.wf.inverse, h.wf.noEmpty, h.wf.rooted, h.wf.counted⟩, ?_,
        h.recheck_alive, h.stimulii_alive⟩
      intro s hs hin
      exact absurd hin (h.disjoint hphase s hs)

/-- **The invariant holds in every run.** -/
theorem Reachable.inv {Cond : World X R → Label X R → Prop} {w : World X R}
    (h : Reachable Cond w) : w.Inv := by
  induction h with
  | start => exact start_inv
  | step _ hen _ hex ih =>
      obtain ⟨w', hex', hinv⟩ := ih.exec hen
      rw [hex, Option.some.injEq] at hex'
      rw [hex']
      exact hinv

/-! ## §2. Reference counts and the reverse map. -/

/-- **A class is given up only with its ordinal queued.**  In one step, a class with
an ordinal keeps it, or its ordinal is queued for teardown when the step is done. -/
theorem Inv.exec_classes {w w' : World X R} (h : w.Inv) {l : Label X R} (hen : w.Enabled l)
    (hex : w.exec l = some w') :
    ∀ r cls o, w.channel.inducedRootToTreeOrdinalAndRefCount.lookup r = some cls →
      cls.treeOrdinal = some o →
      (∃ cls', w'.channel.inducedRootToTreeOrdinalAndRefCount.lookup r = some cls'
        ∧ cls'.treeOrdinal = some o)
      ∨ (r ∉ w'.channel.inducedRootToTreeOrdinalAndRefCount.keys
        ∧ o ∈ w'.channel.ordinalsToTearDown) := by
  intro r cls o hr ho
  -- the deletions share one argument
  have hdrops : ∀ {c' : DomainExtensionChannel X R} {gone : X → Prop}, w.channel.Drops c' gone →
      (∃ cls', c'.inducedRootToTreeOrdinalAndRefCount.lookup r = some cls'
        ∧ cls'.treeOrdinal = some o)
      ∨ (r ∉ c'.inducedRootToTreeOrdinalAndRefCount.keys ∧ o ∈ c'.ordinalsToTearDown) := by
    intro c' gone hdrop
    by_cases hin : r ∈ c'.inducedRootToTreeOrdinalAndRefCount.keys
    · obtain ⟨cls', hr'⟩ := StdMap.exists_of_mem_keys hin
      obtain ⟨cls₁, hr₁, ho₁⟩ := hdrop.kept r cls' hr'
      rw [hr, Option.some.injEq] at hr₁
      exact Or.inl ⟨cls', hr', by rw [ho₁, ← hr₁, ho]⟩
    · exact Or.inr ⟨hin, hdrop.released r cls o hr ho hin⟩
  -- one case per label; only a deletion gives a class up
  cases l with
  | insertAction x =>
      rw [h.exec_insertAction hen] at hex
      cases hex
      exact Or.inl ⟨cls, hr, ho⟩
  | deleteAction x =>
      obtain ⟨c', hex', _, hdrop, _⟩ := h.exec_deleteAction hen
      rw [hex'] at hex
      cases hex
      exact hdrops hdrop
  | otherTrees trees => cases hex; exact Or.inl ⟨cls, hr, ho⟩
  | beginEndOfUpdate => cases hex; exact Or.inl ⟨cls, hr, ho⟩
  | check x info built =>
      obtain ⟨c', _, _, _, hex', _, hspec⟩ := h.exec_check hen
      rw [hex'] at hex
      cases hex
      obtain ⟨cls', hr', ho'⟩ := hspec.classes r cls hr
      exact Or.inl ⟨cls', hr', ho'.trans ho⟩
  | finishEndOfUpdate n =>
      rw [(h.exec_finishEndOfUpdate hen).2] at hex
      cases hex
      exact Or.inl ⟨cls, hr, ho⟩
  | beginEndOfStep => cases hex; exact Or.inl ⟨cls, hr, ho⟩
  | teardown ord xlinks =>
      obtain ⟨c', _, _, _, hex', _, hdrop, _⟩ := h.exec_teardown hen
      rw [hex'] at hex
      cases hex
      exact hdrops hdrop
  | finishEndOfStep => cases hex; exact Or.inl ⟨cls, hr, ho⟩

/-- **Reference counting is an invariant of every run.**  In every state of every
run that respects the callers' contract: the reverse dependency map is the exact
inverse of the stimulii's dependency sets; every extension class counts the
stimulii recorded as inducing it, and there is at least one; every recorded
stimulus has a class; outside the update loop no stimulus is both recorded and
awaiting a check.  Whatever happens next, no assertion fires, and a class that
goes leaves its ordinal queued for teardown. -/
theorem extension_maps_invariant {w : World X R} (h : Reachable AnyStep w) :
    (∀ dep s, Filed w.channel.depToAllStimulii dep s ↔ w.channel.DependsOn s dep)
      ∧ (∀ r cls, w.channel.inducedRootToTreeOrdinalAndRefCount.lookup r = some cls →
          cls.refCount = ((w.channel.stimuliiOf r).card : Int) ∧ 0 < cls.refCount)
      ∧ (∀ s info, w.channel.stimulusToInducedRootAndDeps.lookup s = some info →
          info.inducedRoot ∈ w.channel.inducedRootToTreeOrdinalAndRefCount.keys)
      ∧ ((∀ v, w.phase ≠ .updating v) → ∀ s ∈ w.channel.stimuliiToRecheck,
          s ∉ w.channel.stimulusToInducedRootAndDeps.keys)
      ∧ ∀ l, w.Enabled l → ∃ w', w.exec l = some w'
          ∧ ∀ r cls o, w.channel.inducedRootToTreeOrdinalAndRefCount.lookup r = some cls →
              cls.treeOrdinal = some o →
              r ∉ w'.channel.inducedRootToTreeOrdinalAndRefCount.keys →
              o ∈ w'.channel.ordinalsToTearDown := by
  have hinv := h.inv
  refine ⟨hinv.wf.inverse, ?_, hinv.wf.rooted, hinv.disjoint, ?_⟩
  · intro r cls hr
    obtain ⟨hcount, hpos, _⟩ := hinv.wf.counted r cls hr
    exact ⟨hcount, hpos⟩
  · intro l hen
    obtain ⟨w', hex, _⟩ := hinv.exec hen
    refine ⟨w', hex, fun r cls o hr ho hout => ?_⟩
    rcases hinv.exec_classes hen hex r cls o hr ho with ⟨cls', hr', _⟩ | ⟨_, hq⟩
    · exact absurd (StdMap.mem_keys_of_lookup hr') hout
    · exact hq

/-- Two stimulii share one extension tree, and its link awaits its check. -/
theorem extension_maps_invariant_shared :
    ∃ w : World ℕ ℕ, Reachable AnyStep w
      ∧ w.channel.stimuliiOf 0 = {5, 6} ∧ w.channel.stimuliiToRecheck = {5, 6, 7}
      ∧ (∀ dep s, Filed w.channel.depToAllStimulii dep s ↔ w.channel.DependsOn s dep)
      ∧ ∃ w', w.exec (.check 7 none ⟨0, []⟩) = some w' := by
  have hrun : ∃ w : World ℕ ℕ, Reachable AnyStep w ∧ (w.channel.stimuliiOf 0 = {5, 6}
      ∧ w.channel.stimuliiToRecheck = {5, 6, 7} ∧ w.Enabled (.check 7 none ⟨0, []⟩)) :=
    Reachable.exists_of_run [.otherTrees {0}, .insertAction 5, .insertAction 6,
      .beginEndOfUpdate, .check 5 (some ⟨0, {5, 6}⟩) ⟨1, [7]⟩,
      .check 6 (some ⟨0, {5}⟩) ⟨2, []⟩] (by decide +kernel)
  obtain ⟨w, hreach, hof, hre, hen⟩ := hrun
  obtain ⟨hinverse, _, _, _, hassert⟩ := extension_maps_invariant hreach
  obtain ⟨w', hex, _⟩ := hassert _ hen
  exact ⟨w, hreach, hof, hre, hinverse, w', hex⟩

/-! ## §3. No stimulus is lost, when new links sort after the one being checked. -/

/-- A check that builds an extension tree gets links that all sort after the
stimulus being checked. -/
def NewLinksAhead (w : World X R) : Label X R → Prop
  | .check x info built => w.channel.needsTree info → ∀ y ∈ built.xlinks, x < y
  | _ => True

instance (w : World X R) (l : Label X R) : Decidable (w.NewLinksAhead l) :=
  match l with
  | .check x info built =>
      inferInstanceAs (Decidable (w.channel.needsTree info → ∀ y ∈ built.xlinks, x < y))
  | .insertAction _ | .deleteAction _ | .otherTrees _ | .beginEndOfUpdate
  | .finishEndOfUpdate _ | .beginEndOfStep | .teardown .. | .finishEndOfStep => .isTrue trivial

/-- Every live XLink is checked or awaits a check; in the update loop, what still
sits in the set up to the element visited has been checked. -/
structure Covered (w : World X R) : Prop where
  covered : ∀ x ∈ w.alive, x ∈ w.checked ∨ x ∈ w.channel.stimuliiToRecheck
  visited : ∀ v, w.phase = .updating (some v) →
    ∀ x ∈ w.channel.stimuliiToRecheck, x ≤ v → x ∈ w.checked

theorem Covered.exec {w w' : World X R} (h : w.Inv) (hcov : w.Covered) {l : Label X R}
    (hen : w.Enabled l) (hahead : w.NewLinksAhead l) (hex : w.exec l = some w') : w'.Covered := by
  -- a deletion: what depended on a link deleted is put in the recheck set
  have hdel : ∀ (gone : List X) (c' : DomainExtensionChannel X R),
      (∀ y, y ∈ c'.stimuliiToRecheck ↔ y ∉ gone
        ∧ (y ∈ w.channel.stimuliiToRecheck ∨ ∃ x ∈ gone, w.channel.DependsOn y x)) →
      ∀ y, y ∈ w.alive → y ∉ gone →
        (y ∈ w.checked ∧ ¬ ∃ x ∈ gone, w.channel.DependsOn y x) ∨ y ∈ c'.stimuliiToRecheck := by
    intro gone c' hre y hy hout
    by_cases hdep : ∃ x ∈ gone, w.channel.DependsOn y x
    · exact Or.inr ((hre y).mpr ⟨hout, Or.inr hdep⟩)
    · rcases hcov.covered y hy with hc | hc
      · exact Or.inl ⟨hc, hdep⟩
      · exact Or.inr ((hre y).mpr ⟨hout, Or.inl hc⟩)
  cases l with
  | insertAction x =>
      have hidle : w.phase = .idle := hen.1
      rw [h.exec_insertAction hen] at hex
      cases hex
      refine ⟨?_, fun v hv => by simp [hidle] at hv⟩
      intro y hy
      rcases Finset.mem_insert.mp hy with rfl | hy
      · exact Or.inr (Finset.mem_insert_self _ _)
      · exact (hcov.covered y hy).imp id (fun hr => Finset.mem_insert_of_mem hr)
  -- what depended on `x` is up for recheck; the rest was checked since
  | deleteAction x =>
      have hidle : w.phase = .idle := hen.1
      obtain ⟨c', hex', _, _, hre⟩ := h.exec_deleteAction hen
      rw [hex'] at hex
      cases hex
      refine ⟨?_, fun v hv => by simp [hidle] at hv⟩
      intro y hy
      obtain ⟨hne, hy⟩ := Finset.mem_erase.mp hy
      rcases hdel [x] c' (by simpa using hre) y hy (by simpa using hne) with ⟨hc, hdep⟩ | hr
      · refine Or.inl (Finset.mem_filter.mpr ⟨Finset.mem_erase.mpr ⟨hne, hc⟩, fun hyx => ?_⟩)
        exact hdep ⟨x, List.mem_singleton_self x, hyx⟩
      · exact Or.inr hr
  | otherTrees trees =>
      have hidle : w.phase = .idle := hen.1
      cases hex
      exact ⟨hcov.covered, fun v hv => by simp [hidle] at hv⟩
  | beginEndOfUpdate =>
      cases hex
      exact ⟨hcov.covered, fun v hv => by simp at hv⟩
  | check x info built =>
      obtain ⟨c', visited, hphase, hnext, hex', _, hspec⟩ := h.exec_check hen
      rw [hex'] at hex
      cases hex
      -- a link that was covered is checked now, or still in the set
      refine ⟨?_, ?_⟩
      · -- the links of a new tree are in the set
        intro y hy
        have hold : y ∈ w.alive → y ∈ insert x w.checked ∨ y ∈ c'.stimuliiToRecheck := by
          intro hy
          exact (hcov.covered y hy).imp (fun hc => Finset.mem_insert_of_mem hc)
            (fun hr => (hspec.recheck y).mpr (Or.inl hr))
        by_cases hneeds : w.channel.needsTree info
        · simp only [hneeds, if_true, Finset.mem_union, List.mem_toFinset] at hy
          rcases hy with hy | hy
          · exact hold hy
          · exact Or.inr ((hspec.recheck y).mpr (Or.inr ⟨hneeds, hy⟩))
        · simp only [hneeds, if_false] at hy
          exact hold hy
      · intro v hv y hy hle
        cases hv
        rcases (hspec.recheck y).mp hy with hy | ⟨hneeds, hy⟩
        · -- the iterator passes over nothing between the last element and `x`
          by_cases hbefore : ∀ u ∈ visited, u < y
          · have heq := le_antisymm hle (nextAfter_least hnext hy hbefore)
            exact heq ▸ Finset.mem_insert_self _ _
          · push Not at hbefore
            obtain ⟨u, hu, hyu⟩ := hbefore
            rw [Option.mem_def] at hu
            subst hu
            exact Finset.mem_insert_of_mem (hcov.visited u hphase y hy hyu)
        · exact absurd (hahead hneeds y hy) (not_lt.mpr hle)
  -- nothing is left ahead of the iterator, so what was in the set has been checked
  | finishEndOfUpdate n =>
      obtain ⟨⟨visited, hphase, hnone⟩, hex'⟩ := h.exec_finishEndOfUpdate hen
      rw [hex'] at hex
      cases hex
      refine ⟨?_, fun v hv => by simp at hv⟩
      intro y hy
      rcases hcov.covered y hy with hc | hr
      · exact Or.inl hc
      · obtain ⟨v, hv, hle⟩ := nextAfter_eq_none hnone hr
        rw [Option.mem_def] at hv
        subst hv
        exact Or.inl (hcov.visited v hphase y hr hle)
  | beginEndOfStep =>
      cases hex
      exact ⟨hcov.covered, fun v hv => by simp at hv⟩
  | teardown ord xlinks =>
      obtain ⟨c', visited, _, _, hex', _, _, hre⟩ := h.exec_teardown hen
      rw [hex'] at hex
      cases hex
      refine ⟨?_, fun v hv => by simp at hv⟩
      intro y hy
      obtain ⟨hy, hout⟩ := Finset.mem_sdiff.mp hy
      have hnot : y ∉ xlinks := fun hin => hout (List.mem_toFinset.mpr hin)
      rcases hdel xlinks c' hre y hy hnot with ⟨hc, hdep⟩ | hr
      · exact Or.inl (Finset.mem_filter.mpr ⟨Finset.mem_sdiff.mpr ⟨hc, hout⟩, hdep⟩)
      · exact Or.inr hr
  | finishEndOfStep =>
      cases hex
      exact ⟨hcov.covered, fun v hv => by simp at hv⟩

theorem Reachable.covered {w : World X R} (h : Reachable NewLinksAhead w) : w.Covered := by
  induction h with
  | start =>
      refine ⟨fun x hx => absurd hx (Finset.notMem_empty x), fun v hv => ?_⟩
      cases hv
  | step hr hen hc hex ih => exact Covered.exec hr.inv ih hen hc hex

/-- **No stimulus is lost**, in the runs whose every check that builds an extension
tree gets links sorting after the stimulus being checked: at any time, every XLink
inserted and not deleted since has been checked, or still awaits its check. -/
theorem no_stimulus_lost {w : World X R} (h : Reachable NewLinksAhead w) :
    ∀ x ∈ w.alive, x ∈ w.checked ∨ x ∈ w.channel.stimuliiToRecheck :=
  h.covered.covered

/-- **A stimulus can be lost**: the extension tree built for stimulus 5 has a link 3,
which the iterator is already past; the recheck set is cleared with 3 in it. -/
theorem stimulus_lost :
    ∃ w : World ℕ ℕ, Reachable AnyStep w ∧ w.phase = .idle
      ∧ ¬ ∀ x ∈ w.alive, x ∈ w.checked ∨ x ∈ w.channel.stimuliiToRecheck :=
  Reachable.exists_of_run [.otherTrees {0}, .insertAction 5, .beginEndOfUpdate,
    .check 5 (some ⟨0, {5}⟩) ⟨1, [3]⟩, .finishEndOfUpdate 2] (by decide +kernel)

/-- The same run with the new link past the stimulus: it is visited in its turn. -/
theorem no_stimulus_lost_ahead :
    ∃ w : World ℕ ℕ, w.own = {1} ∧ w.alive = {5, 7}
      ∧ ∀ x ∈ w.alive, x ∈ w.checked ∨ x ∈ w.channel.stimuliiToRecheck := by
  have hrun : ∃ w : World ℕ ℕ, Reachable NewLinksAhead w ∧
      (w.own = {1} ∧ w.alive = {5, 7}) :=
    Reachable.exists_of_run [.otherTrees {0}, .insertAction 5, .beginEndOfUpdate,
      .check 5 (some ⟨0, {5}⟩) ⟨1, [7]⟩, .check 7 none ⟨0, []⟩, .finishEndOfUpdate 2]
      (by decide +kernel)
  obtain ⟨w, hreach, hown, halive⟩ := hrun
  exact ⟨w, hown, halive, no_stimulus_lost hreach⟩

/-! ## §4. No extension tree is leaked, when teardowns release later ordinals. -/

/-- A teardown releases only extension classes with later ordinals: those all of
whose stimulii are links of the tree, or depend on one. -/
def ReleasesAhead (w : World X R) : Label X R → Prop
  | .teardown ord xlinks => ∀ r ∈ w.channel.inducedRootToTreeOrdinalAndRefCount.keys,
      ∀ cls ∈ w.channel.inducedRootToTreeOrdinalAndRefCount.lookup r, ∀ o ∈ cls.treeOrdinal,
        (∀ s ∈ w.channel.stimuliiOf r, s ∈ xlinks ∨ ∃ x ∈ xlinks, w.channel.DependsOn s x) →
          ord < o
  | _ => True

theorem lawfulBEq_links : LawfulBEq X := inferInstance

instance (w : World X R) (l : Label X R) : Decidable (w.ReleasesAhead l) :=
  match l with
  | .teardown ord xlinks =>
      haveI : LawfulBEq X := lawfulBEq_links
      inferInstanceAs (Decidable (∀ r ∈ w.channel.inducedRootToTreeOrdinalAndRefCount.keys,
        ∀ cls ∈ w.channel.inducedRootToTreeOrdinalAndRefCount.lookup r, ∀ o ∈ cls.treeOrdinal,
          (∀ s ∈ w.channel.stimuliiOf r,
            s ∈ xlinks ∨ ∃ x ∈ xlinks, w.channel.DependsOn s x) → ord < o))
  | .insertAction _ | .deleteAction _ | .otherTrees _ | .beginEndOfUpdate | .check ..
  | .finishEndOfUpdate _ | .beginEndOfStep | .finishEndOfStep => .isTrue trivial

/-- Every live tree the channel made has a class, or is queued; in the step loop,
queued past the ordinal visited. -/
def Accounted (w : World X R) : Prop :=
  ∀ o ∈ w.own, (∃ r cls, w.channel.inducedRootToTreeOrdinalAndRefCount.lookup r = some cls
      ∧ cls.treeOrdinal = some o)
    ∨ (o ∈ w.channel.ordinalsToTearDown ∧ ∀ v, w.phase = .stepping (some v) → v < o)

theorem Accounted.exec {w w' : World X R} (h : w.Inv) (hacc : w.Accounted) {l : Label X R}
    (hen : w.Enabled l) (hahead : w.ReleasesAhead l) (hex : w.exec l = some w') :
    w'.Accounted := by
  have hclasses := h.exec_classes hen hex
  cases l with
  | insertAction x =>
      have hidle : w.phase = .idle := hen.1
      rw [h.exec_insertAction hen] at hex
      cases hex
      exact hacc
  | deleteAction x =>
      have hidle : w.phase = .idle := hen.1
      obtain ⟨c', hex', _, hdrop, _⟩ := h.exec_deleteAction hen
      rw [hex'] at hex
      cases hex
      intro o ho
      have hphase : ∀ v, Phase.idle ≠ (Phase.stepping (some v) : Phase X) := by simp
      -- the class is kept, or given up with its ordinal queued
      rcases hacc o ho with ⟨r, cls, hr, hcls⟩ | ⟨hq, _⟩
      · rcases hclasses r cls o hr hcls with ⟨cls', hr', ho'⟩ | ⟨_, hq⟩
        · exact Or.inl ⟨r, cls', hr', ho'⟩
        · exact Or.inr ⟨hq, fun v hv => by simp [hidle] at hv⟩
      · exact Or.inr ⟨hdrop.queued_mono hq, fun v hv => by simp [hidle] at hv⟩
  | otherTrees trees => cases hex; exact hacc
  | beginEndOfUpdate =>
      cases hex
      intro o ho
      exact (hacc o ho).imp id (fun hq => ⟨hq.1, fun v hv => by simp at hv⟩)
  | check x info built =>
      obtain ⟨c', visited, hphase, _, hex', _, hspec⟩ := h.exec_check hen
      rw [hex'] at hex
      cases hex
      intro o ho
      have hold : o ∈ w.own → _ := hacc o
      have hkeep : (∃ r cls, w.channel.inducedRootToTreeOrdinalAndRefCount.lookup r = some cls
            ∧ cls.treeOrdinal = some o) →
          ∃ r cls, c'.inducedRootToTreeOrdinalAndRefCount.lookup r = some cls
            ∧ cls.treeOrdinal = some o := by
        rintro ⟨r, cls, hr, hcls⟩
        obtain ⟨cls', hr', ho'⟩ := hspec.classes r cls hr
        exact ⟨r, cls', hr', ho'.trans hcls⟩
      have hqueue : o ∈ w.channel.ordinalsToTearDown → o ∈ c'.ordinalsToTearDown := by
        rw [hspec.queued]
        exact id
      -- a new ordinal has the class that it was made for
      by_cases hneeds : w.channel.needsTree info
      · simp only [hneeds, if_true] at ho
        rcases Finset.mem_insert.mp ho with rfl | ho
        · exact Or.inl (hspec.created hneeds)
        · exact (hold ho).imp hkeep (fun hq => ⟨hqueue hq.1, fun v hv => by simp at hv⟩)
      · simp only [hneeds, if_false] at ho
        exact (hold ho).imp hkeep (fun hq => ⟨hqueue hq.1, fun v hv => by simp at hv⟩)
  | finishEndOfUpdate n =>
      rw [(h.exec_finishEndOfUpdate hen).2] at hex
      cases hex
      intro o ho
      exact (hacc o ho).imp id (fun hq => ⟨hq.1, fun v hv => by simp at hv⟩)
  | beginEndOfStep =>
      cases hex
      intro o ho
      exact (hacc o ho).imp id (fun hq => ⟨hq.1, fun v hv => by simp at hv⟩)
  | teardown ord xlinks =>
      obtain ⟨c', visited, hphase, hnext, hex', hwf, hdrop, _⟩ := h.exec_teardown hen
      rw [hex'] at hex
      cases hex
      intro o ho
      obtain ⟨hne, ho⟩ := Finset.mem_erase.mp ho
      -- another ordinal: its class is kept, or it is queued
      rcases hacc o ho with ⟨r, cls, hr, hcls⟩ | ⟨hq, hpast⟩
      · rcases hclasses r cls o hr hcls with ⟨cls', hr', ho'⟩ | ⟨hout, hq⟩
        · exact Or.inl ⟨r, cls', hr', ho'⟩
        · -- released: all its stimulii went with this tree
          have hall : ∀ s ∈ w.channel.stimuliiOf r,
              s ∈ xlinks ∨ ∃ x ∈ xlinks, w.channel.DependsOn s x := by
            intro s hs
            obtain ⟨info, hinfo, rfl⟩ := mem_stimuliiOf.mp hs
            by_contra hstay
            exact hout (hwf.rooted s info (by rw [hdrop.stays s hstay, hinfo]))
          -- the class is given up in this step: all its stimulii went
          refine Or.inr ⟨hq, fun v hv => ?_⟩
          cases hv
          exact hahead r (StdMap.mem_keys_of_lookup hr) cls hr o hcls hall
      · -- still queued: the iterator has not come to it yet
        refine Or.inr ⟨hdrop.queued_mono hq, fun v hv => ?_⟩
        cases hv
        refine lt_of_le_of_ne (nextAfter_least hnext hq ?_) (Ne.symm hne)
        intro u hu
        rw [Option.mem_def] at hu
        subst hu
        exact hpast u hphase
  | finishEndOfStep =>
      have hen' : w.nextOrdinal = some none := hen
      obtain ⟨visited, hphase, hnone⟩ : ∃ visited, w.phase = .stepping visited
          ∧ nextAfter w.channel.ordinalsToTearDown visited = none := by
        unfold nextOrdinal at hen'
        split at hen'
        next visited hphase => exact ⟨visited, hphase, Option.some.inj hen'⟩
        next => cases hen'
      cases hex
      intro o ho
      -- nothing is left ahead of the iterator, so what was queued has been torn down
      rcases hacc o ho with hcls | ⟨hq, hpast⟩
      · exact Or.inl hcls
      · obtain ⟨v, hv, hle⟩ := nextAfter_eq_none hnone hq
        rw [Option.mem_def] at hv
        subst hv
        exact absurd (hpast v hphase) (not_lt.mpr hle)

theorem Reachable.accounted {w : World X R} (h : Reachable ReleasesAhead w) : w.Accounted := by
  induction h with
  | start => intro o ho; exact absurd ho (Finset.notMem_empty o)
  | step hr hen hc hex ih => exact Accounted.exec hr.inv ih hen hc hex

/-- **No extension tree is leaked**, in the runs whose teardowns release only
classes with later ordinals: at any time, a live tree that the channel created either
has a class, which counts at least one stimulus, or is queued for teardown. -/
theorem no_extension_tree_leaked {w : World X R} (h : Reachable ReleasesAhead w) :
    ∀ o ∈ w.own, (∃ r cls, w.channel.inducedRootToTreeOrdinalAndRefCount.lookup r = some cls
        ∧ cls.treeOrdinal = some o ∧ 0 < cls.refCount)
      ∨ o ∈ w.channel.ordinalsToTearDown := by
  intro o ho
  rcases h.accounted o ho with ⟨r, cls, hr, hcls⟩ | ⟨hq, _⟩
  · exact Or.inl ⟨r, cls, hr, hcls, (h.inv.wf.counted r cls hr).2.1⟩
  · exact Or.inr hq

/-- **An extension tree can be leaked.**  Ordinals 1 and 2 are freed in the order
2, 1, and given out again in that order; stimulus 12 then induces tree 2, whose link
30 induces tree 1.  The teardown of 2 releases 1, which the iterator is past; the
queue is cleared with 1 in it, and no class has tree 1. -/
theorem extension_tree_leaked :
    ∃ w : World ℕ ℕ, Reachable AnyStep w ∧ w.phase = .idle
      ∧ 1 ∈ w.own ∧ w.channel.inducedRootToTreeOrdinalAndRefCount.keys = ∅
      ∧ 1 ∉ w.channel.ordinalsToTearDown :=
  Reachable.exists_of_run
    [.otherTrees {0}, .insertAction 10, .insertAction 11, .beginEndOfUpdate,
      .check 10 (some ⟨0, {10}⟩) ⟨1, [21]⟩, .check 11 (some ⟨1, {11}⟩) ⟨2, [22]⟩,
      .check 21 none ⟨0, []⟩, .check 22 none ⟨0, []⟩, .finishEndOfUpdate 4,
      .deleteAction 11, .beginEndOfStep, .teardown 2 [22], .finishEndOfStep,
      .deleteAction 10, .beginEndOfStep, .teardown 1 [21], .finishEndOfStep,
      .insertAction 12, .beginEndOfUpdate, .check 12 (some ⟨2, {12}⟩) ⟨2, [30]⟩,
      .check 30 (some ⟨3, {30}⟩) ⟨1, [40]⟩, .check 40 none ⟨0, []⟩, .finishEndOfUpdate 3,
      .deleteAction 12, .beginEndOfStep, .teardown 2 [30], .finishEndOfStep]
    (by decide +kernel)

/-- With the ordinals the other way round, the released tree is torn down in the
same step, and a third tree stays with its stimulus. -/
theorem no_extension_tree_leaked_chain :
    ∃ w : World ℕ ℕ, w.own = {3}
      ∧ ∀ o ∈ w.own, (∃ r cls, w.channel.inducedRootToTreeOrdinalAndRefCount.lookup r = some cls
          ∧ cls.treeOrdinal = some o ∧ 0 < cls.refCount)
        ∨ o ∈ w.channel.ordinalsToTearDown := by
  have hrun : ∃ w : World ℕ ℕ, Reachable ReleasesAhead w ∧ w.own = {3} :=
    Reachable.exists_of_run
      [.otherTrees {0}, .insertAction 12, .insertAction 13, .beginEndOfUpdate,
        .check 12 (some ⟨2, {12}⟩) ⟨1, [30]⟩, .check 13 (some ⟨4, {13}⟩) ⟨3, []⟩,
        .check 30 (some ⟨3, {30}⟩) ⟨2, [40]⟩, .check 40 none ⟨0, []⟩, .finishEndOfUpdate 4,
        .deleteAction 12, .beginEndOfStep, .teardown 1 [30], .teardown 2 [40], .finishEndOfStep]
      (by decide +kernel)
  obtain ⟨w, hreach, hown⟩ := hrun
  exact ⟨w, hown, no_extension_tree_leaked hreach⟩

end Inferno.DB.World
