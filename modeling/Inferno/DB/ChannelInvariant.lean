/-
  Inferno.DB.ChannelInvariant
  ───────────────────────────
  What holds between the maps of a channel, and what each mutator does to it.

    • `WF`    — the reverse dependency map is the exact inverse of the stimulii's
                dependency sets, and every extension class counts its stimulii,
    • `Drops` — the effect of dropping stimulii: which go, which classes stay,
                and that a class that goes leaves its ordinal queued,
    • one spec lemma per mutator, each saying that no assertion fires.
-/
import Inferno.DB.DomainExtension
import Mathlib.Data.List.Nodup

namespace Inferno.DB.DomainExtensionChannel

open Inferno.Common

variable {X R : Type} [LinearOrder X] [DecidableEq R]

/-! ## §1. Well-formed channels. -/

/-- The stimulii recorded as inducing `r`. -/
def stimuliiOf (c : DomainExtensionChannel X R) (r : R) : Finset X :=
  c.stimulusToInducedRootAndDeps.keys.filter (fun s =>
    (c.stimulusToInducedRootAndDeps.lookup s).map (·.inducedRoot) = some r)

/-- `stimulus` is filed under `dep` in a reverse dependency map. -/
def Filed (m : StdMap X (Finset X)) (dep stimulus : X) : Prop :=
  ∃ all, m.lookup dep = some all ∧ stimulus ∈ all

/-- `dep` is among the dependencies recorded for `stimulus`. -/
def DependsOn (c : DomainExtensionChannel X R) (stimulus dep : X) : Prop :=
  ∃ info, c.stimulusToInducedRootAndDeps.lookup stimulus = some info ∧ dep ∈ info.deps

instance (c : DomainExtensionChannel X R) (stimulus dep : X) :
    Decidable (c.DependsOn stimulus dep) :=
  decidable_of_iff
    (∃ info ∈ c.stimulusToInducedRootAndDeps.lookup stimulus, dep ∈ info.deps) Iff.rfl

/-- **The cross-map invariant of a channel.** -/
structure WF (c : DomainExtensionChannel X R) : Prop where
  inverse : ∀ dep s, Filed c.depToAllStimulii dep s ↔ c.DependsOn s dep
  noEmpty : ∀ dep all, c.depToAllStimulii.lookup dep = some all → all ≠ ∅
  rooted : ∀ s info, c.stimulusToInducedRootAndDeps.lookup s = some info →
    info.inducedRoot ∈ c.inducedRootToTreeOrdinalAndRefCount.keys
  counted : ∀ r cls, c.inducedRootToTreeOrdinalAndRefCount.lookup r = some cls →
    cls.refCount = ((c.stimuliiOf r).card : Int) ∧ 0 < cls.refCount ∧ cls.treeOrdinal.isSome

omit [LinearOrder X] in
theorem mem_stimuliiOf {c : DomainExtensionChannel X R} {r : R} {s : X} :
    s ∈ c.stimuliiOf r ↔
      ∃ info, c.stimulusToInducedRootAndDeps.lookup s = some info ∧ info.inducedRoot = r := by
  unfold stimuliiOf
  rw [Finset.mem_filter, Option.map_eq_some_iff]
  constructor
  · rintro ⟨_, h⟩
    exact h
  · rintro ⟨info, hinfo, hr⟩
    exact ⟨StdMap.mem_keys_of_lookup hinfo, info, hinfo, hr⟩

omit [LinearOrder X] in
theorem empty_wf : (empty : DomainExtensionChannel X R).WF := by
  refine ⟨?_, ?_, ?_, ?_⟩
  · intro dep s
    constructor
    · rintro ⟨all, h, _⟩
      cases h
    · rintro ⟨info, h, _⟩
      cases h
  · intro dep all h
    cases h
  · intro s info h
    cases h
  · intro r cls h
    cases h

/-! ## §2. The reverse dependency map. -/

/-- Removing a stimulus from one dependency. -/
theorem dropDep_spec {m : StdMap X (Finset X)} {x dep : X} {all : Finset X}
    (hdep : m.lookup dep = some all) (hx : x ∈ all) :
    ∃ m', dropDep x m dep = some m'
      ∧ ∀ d, m'.lookup d
          = if d = dep then (if all.erase x = ∅ then none else some (all.erase x))
            else m.lookup d := by
  have hne : all ≠ ∅ := Finset.ne_empty_of_mem hx
  by_cases hempty : all.erase x = ∅
  · refine ⟨(m.set dep ∅).erase dep, ?_, fun d => ?_⟩
    · simp only [dropDep, hdep, eraseSolo, hx, hempty, ASSERT_pos hne, Option.bind_eq_bind,
        Option.bind_some, if_true]
      exact StdMap.eraseSolo_of_mem (Finset.mem_insert_self _ _)
    · by_cases hd : d = dep <;> simp [hd, hempty]
  · refine ⟨m.set dep (all.erase x), ?_, fun d => ?_⟩
    · simp only [dropDep, hdep, eraseSolo, hx, hempty, ASSERT_pos hne, Option.bind_eq_bind,
        Option.bind_some, if_true, if_false]
    · by_cases hd : d = dep <;> simp [hd, hempty]

/-- The loop over the dependencies un-files the stimulus everywhere it is filed. -/
theorem foldlM_dropDep (x : X) : ∀ (deps : List X) (m : StdMap X (Finset X)), deps.Nodup →
    (∀ dep ∈ deps, Filed m dep x) →
    (∀ dep all, m.lookup dep = some all → all ≠ ∅) →
    ∃ m', deps.foldlM (dropDep x) m = some m'
      ∧ (∀ dep all, m'.lookup dep = some all → all ≠ ∅)
      ∧ ∀ dep s, Filed m' dep s ↔ Filed m dep s ∧ ¬ (dep ∈ deps ∧ s = x) := by
  intro deps
  -- on the dependencies; each step un-files the stimulus at one of them
  induction deps with
  | nil => intro m _ _ hne; exact ⟨m, rfl, hne, by simp⟩
  | cons dep deps ih =>
      intro m hnd hfiled hne
      obtain ⟨all, hall, hx⟩ := hfiled dep List.mem_cons_self
      obtain ⟨m₁, hm₁, hlook⟩ := dropDep_spec hall hx
      have hnotin : dep ∉ deps := (List.nodup_cons.mp hnd).1
      -- the other dependencies are untouched
      have hfiled₁ : ∀ d ∈ deps, Filed m₁ d x := by
        intro d hd
        have hne' : d ≠ dep := fun h => hnotin (h ▸ hd)
        obtain ⟨all', hall', hx'⟩ := hfiled d (List.mem_cons_of_mem _ hd)
        exact ⟨all', by rw [hlook, if_neg hne', hall'], hx'⟩
      have hne₁ : ∀ d all, m₁.lookup d = some all → all ≠ ∅ := by
        intro d all' hd
        rw [hlook] at hd
        split at hd
        next =>
          split at hd
          · cases hd
          next hne' => cases hd; exact hne'
        next => exact hne d all' hd
      obtain ⟨m', hm', hne', hmem⟩ := ih m₁ (List.nodup_cons.mp hnd).2 hfiled₁ hne₁
      refine ⟨m', by simp [List.foldlM_cons, hm₁, hm'], hne', ?_⟩
      -- what is filed after the step, then after the rest of the loop
      intro d s
      -- at this dependency the stimulus goes, elsewhere nothing does
      have hstep : Filed m₁ d s ↔ Filed m d s ∧ ¬ (d = dep ∧ s = x) := by
        unfold Filed
        rw [hlook]
        by_cases hd : d = dep
        · subst hd
          rw [if_pos rfl, hall]
          constructor
          · rintro ⟨all', hall', hs⟩
            split at hall'
            · cases hall'
            · cases hall'
              exact ⟨⟨all, rfl, Finset.mem_of_mem_erase hs⟩,
                fun h => Finset.ne_of_mem_erase hs h.2⟩
          · rintro ⟨⟨all', hall', hs⟩, hnot⟩
            cases hall'
            have hs' : s ∈ all.erase x := Finset.mem_erase.mpr ⟨fun h => hnot ⟨rfl, h⟩, hs⟩
            rw [if_neg (Finset.ne_empty_of_mem hs')]
            exact ⟨_, rfl, hs'⟩
        · simp [hd]
      rw [hmem, hstep, List.mem_cons]
      tauto

/-- Filing a stimulus under each of its dependencies. -/
theorem foldl_file (x : X) : ∀ (deps : List X) (m : StdMap X (Finset X)),
    (∀ dep all, m.lookup dep = some all → all ≠ ∅) →
    let m' := deps.foldl (fun m dep => m.set dep (insert x ((m.lookup dep).getD ∅))) m
    (∀ dep all, m'.lookup dep = some all → all ≠ ∅)
      ∧ ∀ dep s, Filed m' dep s ↔ Filed m dep s ∨ (dep ∈ deps ∧ s = x) := by
  intro deps
  induction deps with
  | nil => intro m hne; exact ⟨hne, by simp⟩
  | cons dep deps ih =>
      intro m hne
      have hne₁ : ∀ d all, (m.set dep (insert x ((m.lookup dep).getD ∅))).lookup d = some all →
          all ≠ ∅ := by
        intro d all hd
        rw [StdMap.lookup_set] at hd
        split at hd
        next =>
          cases hd
          exact Finset.insert_ne_empty _ _
        next => exact hne d all hd
      -- what the rest of the list files, and `x` under the first
      obtain ⟨hne', hmem⟩ := ih _ hne₁
      refine ⟨hne', ?_⟩
      intro d s
      have hstep : Filed (m.set dep (insert x ((m.lookup dep).getD ∅))) d s
          ↔ Filed m d s ∨ (d = dep ∧ s = x) := by
        unfold Filed
        rw [StdMap.lookup_set]
        by_cases hd : d = dep
        · subst hd
          cases hm : m.lookup d <;> simp [or_comm]
        · simp [hd]
      rw [List.foldl_cons, hmem, hstep, List.mem_cons]
      tauto

/-! ## §3. Dropping stimulii. -/

/-- The channel `c'` is `c` less the stimulii in `gone`: nothing else about the
stimulii changes, no class is gained, and a class that is lost leaves its ordinal
queued for teardown. -/
structure Drops (c c' : DomainExtensionChannel X R) (gone : X → Prop) : Prop where
  stays : ∀ s, ¬ gone s →
    c'.stimulusToInducedRootAndDeps.lookup s = c.stimulusToInducedRootAndDeps.lookup s
  goes : ∀ s, gone s → c'.stimulusToInducedRootAndDeps.lookup s = none
  kept : ∀ r cls', c'.inducedRootToTreeOrdinalAndRefCount.lookup r = some cls' →
    ∃ cls, c.inducedRootToTreeOrdinalAndRefCount.lookup r = some cls
      ∧ cls'.treeOrdinal = cls.treeOrdinal
  released : ∀ r cls o, c.inducedRootToTreeOrdinalAndRefCount.lookup r = some cls →
    cls.treeOrdinal = some o → r ∉ c'.inducedRootToTreeOrdinalAndRefCount.keys →
    o ∈ c'.ordinalsToTearDown
  queued_mono : c.ordinalsToTearDown ⊆ c'.ordinalsToTearDown
  queued : ∀ o ∈ c'.ordinalsToTearDown, o ∉ c.ordinalsToTearDown →
    ∃ r cls, c.inducedRootToTreeOrdinalAndRefCount.lookup r = some cls
      ∧ cls.treeOrdinal = some o ∧ r ∉ c'.inducedRootToTreeOrdinalAndRefCount.keys

omit [LinearOrder X] [DecidableEq R] in
theorem Drops.of_eq {c c' : DomainExtensionChannel X R}
    (hs : c'.stimulusToInducedRootAndDeps = c.stimulusToInducedRootAndDeps)
    (hc : c'.inducedRootToTreeOrdinalAndRefCount = c.inducedRootToTreeOrdinalAndRefCount)
    (ho : c'.ordinalsToTearDown = c.ordinalsToTearDown) : Drops c c' (fun _ => False) := by
  refine ⟨fun s _ => by rw [hs], fun s h => h.elim, ?_, ?_, by rw [ho], ?_⟩
  · intro r cls' h
    rw [hc] at h
    exact ⟨cls', h, rfl⟩
  · intro r cls o h _ hout
    rw [hc] at hout
    exact absurd (StdMap.mem_keys_of_lookup h) hout
  · intro o h hnot
    rw [ho] at h
    exact absurd h hnot

omit [LinearOrder X] in
theorem Drops.trans {c c' c'' : DomainExtensionChannel X R} {gone gone' : X → Prop}
    (h : Drops c c' gone) (h' : Drops c' c'' gone') :
    Drops c c'' (fun s => gone s ∨ gone' s) := by
  refine ⟨?_, ?_, ?_, ?_, h.queued_mono.trans h'.queued_mono, ?_⟩
  · intro s hs
    rw [h'.stays s (fun hg => hs (Or.inr hg)), h.stays s (fun hg => hs (Or.inl hg))]
  · intro s hs
    -- gone in the second step, or in the first and not back
    by_cases hg : gone' s
    · exact h'.goes s hg
    · rw [h'.stays s hg, h.goes s (hs.resolve_right hg)]
  · intro r cls'' hr
    obtain ⟨cls', hr', ho'⟩ := h'.kept r cls'' hr
    obtain ⟨cls, hr, ho⟩ := h.kept r cls' hr'
    exact ⟨cls, hr, ho'.trans ho⟩
  · intro r cls o hr ho hout
    -- dropped in the first step and still known, or in the second
    by_cases hin : r ∈ c'.inducedRootToTreeOrdinalAndRefCount.keys
    · obtain ⟨cls', hr'⟩ := StdMap.exists_of_mem_keys hin
      obtain ⟨cls₁, hr₁, ho₁⟩ := h.kept r cls' hr'
      rw [hr, Option.some.injEq] at hr₁
      subst hr₁
      exact h'.released r cls' o hr' (ho₁.trans ho) hout
    · exact h'.queued_mono (h.released r cls o hr ho hin)
  · intro o ho hnot
    -- the same for an ordinal that is queued
    by_cases hin : o ∈ c'.ordinalsToTearDown
    · obtain ⟨r, cls, hr, hcls, hout⟩ := h.queued o hin hnot
      refine ⟨r, cls, hr, hcls, fun hin' => ?_⟩
      obtain ⟨cls'', hr''⟩ := StdMap.exists_of_mem_keys hin'
      obtain ⟨cls', hr', _⟩ := h'.kept r cls'' hr''
      exact hout (StdMap.mem_keys_of_lookup hr')
    · obtain ⟨r, cls', hr', hcls', hout⟩ := h'.queued o ho hin
      obtain ⟨cls, hr, hcls⟩ := h.kept r cls' hr'
      exact ⟨r, cls, hr, hcls.symm.trans hcls', hout⟩

/-- A root's stimulii when one stimulus goes. -/
theorem stimuliiOf_erase {c c' : DomainExtensionChannel X R} {x : X}
    (hc' : c'.stimulusToInducedRootAndDeps = c.stimulusToInducedRootAndDeps.erase x) (r : R) :
    c'.stimuliiOf r = (c.stimuliiOf r).erase x := by
  ext s
  rw [mem_stimuliiOf, hc', Finset.mem_erase, mem_stimuliiOf, StdMap.lookup_erase]
  by_cases hs : s = x <;> simp [hs]

/-- **`DropStimulusXLink`** on a recorded stimulus: no assertion fires, the maps
stay in step, and only this stimulus goes. -/
theorem WF.dropStimulusXLink {c : DomainExtensionChannel X R} (h : c.WF) {x : X}
    {info : InducedAndDeps X R} (hx : c.stimulusToInducedRootAndDeps.lookup x = some info) :
    ∃ c', c.dropStimulusXLink x = some c' ∧ c'.WF ∧ Drops c c' (· = x)
      ∧ c'.stimuliiToRecheck = c.stimuliiToRecheck := by
  have hfiled : ∀ dep ∈ inOrder info.deps, Filed c.depToAllStimulii dep x := by
    intro dep hdep
    exact (h.inverse dep x).mpr ⟨info, hx, mem_inOrder.mp hdep⟩
  obtain ⟨m, hm, hmne, hmem⟩ := foldlM_dropDep x (inOrder info.deps) c.depToAllStimulii
    (inOrder_nodup _) hfiled h.noEmpty
  -- the class that the record's root names
  obtain ⟨cls, hcls⟩ := StdMap.exists_of_mem_keys (h.rooted x info hx)
  obtain ⟨hcount, hpos, hord⟩ := h.counted _ cls hcls
  obtain ⟨ord, hord⟩ := Option.isSome_iff_exists.mp hord
  have hstim : c.stimulusToInducedRootAndDeps.eraseSolo x
      = some (c.stimulusToInducedRootAndDeps.erase x) :=
    StdMap.eraseSolo_of_mem (StdMap.mem_keys_of_lookup hx)
  -- what holds of the result in both branches
  have hinverse : ∀ dep s, Filed m dep s ↔ ∃ i,
      (c.stimulusToInducedRootAndDeps.erase x).lookup s = some i ∧ dep ∈ i.deps := by
    intro dep s
    rw [hmem, h.inverse, StdMap.lookup_erase, mem_inOrder]
    unfold DependsOn
    by_cases hs : s = x
    · subst hs
      simp [hx]
    · simp [hs]
  -- the stimulus counts as one of this root, and of no other
  have hxin : x ∈ c.stimuliiOf info.inducedRoot := mem_stimuliiOf.mpr ⟨info, hx, rfl⟩
  have hcard := Finset.card_erase_of_mem hxin
  have hcardpos : 0 < (c.stimuliiOf info.inducedRoot).card := Finset.card_pos.mpr ⟨x, hxin⟩
  have hother : ∀ r, r ≠ info.inducedRoot → x ∉ c.stimuliiOf r := by
    intro r hne hin
    obtain ⟨i, hi, hr⟩ := mem_stimuliiOf.mp hin
    rw [hx, Option.some.injEq] at hi
    exact hne (by rw [← hr, hi])
  by_cases hrc : cls.refCount - 1 > 0
  · -- other stimulii still induce this root
    refine ⟨{ c with
      stimulusToInducedRootAndDeps := c.stimulusToInducedRootAndDeps.erase x
      depToAllStimulii := m
      inducedRootToTreeOrdinalAndRefCount := c.inducedRootToTreeOrdinalAndRefCount.set
        info.inducedRoot { cls with refCount := cls.refCount - 1 } }, ?_, ⟨hinverse, hmne, ?_, ?_⟩,
      ⟨?_, ?_, ?_, ?_, Finset.Subset.refl _, ?_⟩, rfl⟩
    · -- the run, with the reference count still positive
      simp only [DomainExtensionChannel.dropStimulusXLink, hx, hm, hstim, hcls,
        Option.bind_eq_bind, Option.bind_some]
      rw [if_pos hrc]
    · intro s i hs
      simp only [StdMap.lookup_erase] at hs
      split at hs
      · cases hs
      · exact Finset.mem_insert_of_mem (h.rooted s i hs)
    · intro r cls' hr
      simp only [StdMap.lookup_set] at hr
      rw [stimuliiOf_erase rfl]
      split at hr
      next heq =>
        subst heq
        cases hr
        refine ⟨?_, hrc, by simp [hord]⟩
        show cls.refCount - 1 = _
        omega
      next hne =>
        rw [Finset.erase_eq_of_notMem (hother r hne)]
        exact h.counted r cls' hr
    · intro s hs
      rw [StdMap.lookup_erase, if_neg hs]
    · rintro s rfl
      rw [StdMap.lookup_erase, if_pos rfl]
    · intro r cls' hr
      simp only [StdMap.lookup_set] at hr
      split at hr
      next heq =>
        subst heq
        cases hr
        exact ⟨cls, hcls, rfl⟩
      next => exact ⟨cls', hr, rfl⟩
    · intro r cls' o hr _ hout
      exact absurd (Finset.mem_insert_of_mem (StdMap.mem_keys_of_lookup hr)) hout
    · intro o ho hnot
      exact absurd ho hnot
  · -- the last one: the class goes and its ordinal is queued
    have hone : (c.stimuliiOf info.inducedRoot).card = 1 := by omega
    refine ⟨{ c with
      stimulusToInducedRootAndDeps := c.stimulusToInducedRootAndDeps.erase x
      depToAllStimulii := m
      inducedRootToTreeOrdinalAndRefCount := (c.inducedRootToTreeOrdinalAndRefCount.set
        info.inducedRoot { cls with refCount := cls.refCount - 1 }).erase info.inducedRoot
      ordinalsToTearDown := insert ord c.ordinalsToTearDown }, ?_, ⟨hinverse, hmne, ?_, ?_⟩,
      ⟨?_, ?_, ?_, ?_, Finset.subset_insert _ _, ?_⟩, rfl⟩
    · -- the run; the erased class must have been there
      simp only [DomainExtensionChannel.dropStimulusXLink, hx, hm, hstim, hcls,
        Option.bind_eq_bind, Option.bind_some, hord]
      rw [if_neg hrc, StdMap.eraseSolo_of_mem (Finset.mem_insert_self _ _), Option.bind_some]
    · intro s i hs
      simp only [StdMap.lookup_erase] at hs
      split at hs
      · cases hs
      next hsx =>
        -- `s` induces another root: `x` was the only one of this root
        have hroot : i.inducedRoot ≠ info.inducedRoot := by
          intro heq
          have hsin : s ∈ c.stimuliiOf info.inducedRoot := mem_stimuliiOf.mpr ⟨i, hs, heq⟩
          exact hsx (Finset.card_le_one.mp hone.le s hsin x hxin)
        exact Finset.mem_erase.mpr ⟨hroot, Finset.mem_insert_of_mem (h.rooted s i hs)⟩
    · intro r cls' hr
      rw [StdMap.lookup_erase, StdMap.lookup_set] at hr
      rw [stimuliiOf_erase rfl]
      split at hr
      · cases hr
      next hne =>
        rw [Finset.erase_eq_of_notMem (hother r hne)]
        exact h.counted r cls' hr
    · intro s hs
      rw [StdMap.lookup_erase, if_neg hs]
    · rintro s rfl
      rw [StdMap.lookup_erase, if_pos rfl]
    · intro r cls' hr
      rw [StdMap.lookup_erase, StdMap.lookup_set] at hr
      split at hr
      · cases hr
      next => exact ⟨cls', hr, rfl⟩
    · -- its own ordinal is the one that is queued
      intro r cls' o hr ho hout
      by_cases hne : r = info.inducedRoot
      · subst hne
        rw [hcls, Option.some.injEq] at hr
        subst hr
        rw [hord, Option.some.injEq] at ho
        subst ho
        exact Finset.mem_insert_self _ _
      · exact absurd (Finset.mem_erase.mpr
          ⟨hne, Finset.mem_insert_of_mem (StdMap.mem_keys_of_lookup hr)⟩) hout
    · intro o ho hnot
      rcases Finset.mem_insert.mp ho with rfl | ho
      · exact ⟨_, cls, hcls, hord, Finset.notMem_erase _ _⟩
      · exact absurd ho hnot

/-! ## §4. Deletion. -/

omit [LinearOrder X] in
/-- Well-formedness and the frame say nothing about the recheck set. -/
theorem WF.setRecheck {c : DomainExtensionChannel X R} (h : c.WF) (recheck : Finset X) :
    WF { c with stimuliiToRecheck := recheck } :=
  ⟨h.inverse, h.noEmpty, h.rooted, h.counted⟩

omit [LinearOrder X] [DecidableEq R] in
theorem Drops.setRecheck {c c' : DomainExtensionChannel X R} {gone : X → Prop}
    (h : Drops c c' gone) (recheck : Finset X) :
    Drops c { c' with stimuliiToRecheck := recheck } gone :=
  ⟨h.stays, h.goes, h.kept, h.released, h.queued_mono, h.queued⟩

/-- The stimulii of a deletion's second half, dropped one by one into the recheck
set. -/
theorem WF.foldlM_dropViaDep : ∀ (stimulii : List X) {c : DomainExtensionChannel X R}, c.WF →
    stimulii.Nodup → (∀ s ∈ stimulii, s ∈ c.stimulusToInducedRootAndDeps.keys) →
    (∀ s ∈ stimulii, s ∉ c.stimuliiToRecheck) →
    ∃ c', stimulii.foldlM dropViaDep c = some c' ∧ c'.WF ∧ Drops c c' (· ∈ stimulii)
      ∧ ∀ y, y ∈ c'.stimuliiToRecheck ↔ y ∈ c.stimuliiToRecheck ∨ y ∈ stimulii := by
  intro stimulii
  induction stimulii with
  | nil =>
      intro c h _ _ _
      refine ⟨c, rfl, h, ?_, by simp⟩
      have hrefl := Drops.of_eq (c := c) rfl rfl rfl
      exact ⟨fun s _ => rfl, fun s hs => absurd hs List.not_mem_nil, hrefl.kept, hrefl.released,
        hrefl.queued_mono, hrefl.queued⟩
  | cons x stimulii ih =>
      intro c h hnd hin hout
      obtain ⟨info, hx⟩ := StdMap.exists_of_mem_keys (hin x List.mem_cons_self)
      obtain ⟨c₁, hc₁, hwf₁, hdrop₁, hre₁⟩ := h.dropStimulusXLink hx
      have hxout := hout x List.mem_cons_self
      have hnotin : x ∉ stimulii := (List.nodup_cons.mp hnd).1
      have hstep : dropViaDep c x
          = some { c₁ with stimuliiToRecheck := insert x c₁.stimuliiToRecheck } := by
        simp only [dropViaDep, ASSERT_pos (hin x List.mem_cons_self), hc₁, insertSolo, hre₁, hxout,
          Option.bind_eq_bind, Option.bind_some, if_false]
      -- the stimulii still to be dropped are still recorded, and not yet to be rechecked
      have hin₁ : ∀ s ∈ stimulii, s ∈ c₁.stimulusToInducedRootAndDeps.keys := by
        intro s hs
        have hne : s ≠ x := fun heq => hnotin (heq ▸ hs)
        rw [StdMap.mem_keys, hdrop₁.stays s hne, ← StdMap.mem_keys]
        exact hin s (List.mem_cons_of_mem _ hs)
      have hout₁ : ∀ s ∈ stimulii, s ∉ insert x c₁.stimuliiToRecheck := by
        intro s hs hmem
        rcases Finset.mem_insert.mp hmem with rfl | hmem
        · exact hnotin hs
        · rw [hre₁] at hmem
          exact hout s (List.mem_cons_of_mem _ hs) hmem
      obtain ⟨c', hc', hwf', hdrop', hre'⟩ := ih
        (hwf₁.setRecheck (insert x c₁.stimuliiToRecheck)) (List.nodup_cons.mp hnd).2 hin₁ hout₁
      have hdrop := (hdrop₁.setRecheck (insert x c₁.stimuliiToRecheck)).trans hdrop'
      refine ⟨c', by simp [List.foldlM_cons, hstep, hc'], hwf', ?_, ?_⟩
      · simpa only [List.mem_cons] using hdrop
      · intro y
        rw [hre', Finset.mem_insert, hre₁, List.mem_cons]
        tauto

/-- The first half of `DeleteAction`. -/
theorem WF.deleteStimulus {c : DomainExtensionChannel X R} (h : c.WF) (x : X)
    (hdisj : ∀ s ∈ c.stimuliiToRecheck, s ∉ c.stimulusToInducedRootAndDeps.keys) :
    ∃ c', c.deleteStimulus x = some c' ∧ c'.WF ∧ Drops c c' (· = x)
      ∧ c'.stimuliiToRecheck = c.stimuliiToRecheck.erase x := by
  by_cases hx : x ∈ c.stimulusToInducedRootAndDeps.keys
  · obtain ⟨info, hinfo⟩ := StdMap.exists_of_mem_keys hx
    obtain ⟨c', hc', hwf, hdrop, hre⟩ := h.dropStimulusXLink hinfo
    refine ⟨c', by rw [DomainExtensionChannel.deleteStimulus, if_pos hx, hc'], hwf, hdrop, ?_⟩
    rw [hre, Finset.erase_eq_of_notMem (fun hr => hdisj x hr hx)]
  · have hnone : c.stimulusToInducedRootAndDeps.lookup x = none := StdMap.lookup_eq_none.mpr hx
    -- not a recorded stimulus: nothing is dropped, whether or not it awaits a check
    have hdrop : Drops c c (· = x) := by
      have hrefl := Drops.of_eq (c := c) rfl rfl rfl
      exact ⟨fun s _ => rfl, fun s hs => hs ▸ hnone, hrefl.kept, hrefl.released,
        hrefl.queued_mono, hrefl.queued⟩
    by_cases hr : x ∈ c.stimuliiToRecheck
    · refine ⟨_, ?_, h.setRecheck (c.stimuliiToRecheck.erase x),
        hdrop.setRecheck (c.stimuliiToRecheck.erase x), rfl⟩
      simp only [DomainExtensionChannel.deleteStimulus, hx, hr, eraseSolo, if_true, if_false,
        Option.bind_eq_bind, Option.bind_some]
    · refine ⟨c, ?_, h, hdrop, (Finset.erase_eq_of_notMem hr).symm⟩
      simp only [DomainExtensionChannel.deleteStimulus, hx, hr, if_false]

/-- **`DeleteAction`**: no assertion fires, the maps stay in step; the deleted XLink
goes, the stimulii that depended on it go too and await a recheck. -/
theorem WF.deleteAction {c : DomainExtensionChannel X R} (h : c.WF) (x : X)
    (hdisj : ∀ s ∈ c.stimuliiToRecheck, s ∉ c.stimulusToInducedRootAndDeps.keys) :
    ∃ c', c.deleteAction x = some c' ∧ c'.WF ∧ Drops c c' (fun s => s = x ∨ c.DependsOn s x)
      ∧ ∀ y, y ∈ c'.stimuliiToRecheck ↔ y ≠ x ∧ (y ∈ c.stimuliiToRecheck ∨ c.DependsOn y x) := by
  -- the record of `x` itself, if it has one
  obtain ⟨c₁, hc₁, hwf₁, hdrop₁, hre₁⟩ := h.deleteStimulus x hdisj
  -- the other records are as they were
  have hdep₁ : ∀ s, c₁.DependsOn s x ↔ s ≠ x ∧ c.DependsOn s x := by
    intro s
    unfold DependsOn
    by_cases hs : s = x
    · subst hs
      simp [hdrop₁.goes s rfl]
    · simp [hdrop₁.stays s hs, hs]
  cases hlook : c₁.depToAllStimulii.lookup x with
  -- nothing depended on `x`
  | none =>
      have hnodep : ∀ s, ¬ (s ≠ x ∧ c.DependsOn s x) := by
        intro s hs
        obtain ⟨all, hall, _⟩ := (hwf₁.inverse x s).mpr ((hdep₁ s).mpr hs)
        rw [hlook] at hall
        cases hall
      have hgone : (fun s => s = x ∨ c.DependsOn s x) = (· = x) := by
        funext s
        have hs := hnodep s
        by_cases hsx : s = x <;> simp_all
      refine ⟨c₁, by simp [DomainExtensionChannel.deleteAction, hc₁, hlook], hwf₁,
        hgone ▸ hdrop₁, ?_⟩
      intro y
      have hy := hnodep y
      rw [hre₁, Finset.mem_erase]
      tauto
  -- those that did are dropped through it, one by one
  | some all =>
      have hmem : ∀ s, s ∈ all ↔ s ≠ x ∧ c.DependsOn s x := by
        intro s
        rw [← hdep₁, ← hwf₁.inverse]
        constructor
        · intro hs
          exact ⟨all, hlook, hs⟩
        · rintro ⟨all', hall', hs⟩
          rw [hlook, Option.some.injEq] at hall'
          rwa [hall']
      have hin : ∀ s ∈ inOrder all, s ∈ c₁.stimulusToInducedRootAndDeps.keys := by
        intro s hs
        obtain ⟨info, hinfo, _⟩ := (hdep₁ s).mpr ((hmem s).mp (mem_inOrder.mp hs))
        exact StdMap.mem_keys_of_lookup hinfo
      have hout : ∀ s ∈ inOrder all, s ∉ c₁.stimuliiToRecheck := by
        intro s hs hr
        obtain ⟨_, info, hinfo, _⟩ := (hmem s).mp (mem_inOrder.mp hs)
        rw [hre₁, Finset.mem_erase] at hr
        exact hdisj s hr.2 (StdMap.mem_keys_of_lookup hinfo)
      obtain ⟨c', hc', hwf', hdrop', hre'⟩ :=
        WF.foldlM_dropViaDep (inOrder all) hwf₁ (inOrder_nodup _) hin hout
      -- together they are those that the statement names
      have hgone : (fun s => s = x ∨ c.DependsOn s x) = (fun s => s = x ∨ s ∈ inOrder all) := by
        funext s
        rw [mem_inOrder, hmem]
        by_cases hsx : s = x <;> simp [hsx]
      refine ⟨c', by simp [DomainExtensionChannel.deleteAction, hc₁, hlook, hc'], hwf',
        hgone ▸ hdrop₁.trans hdrop', ?_⟩
      intro y
      rw [hre', hre₁, Finset.mem_erase, mem_inOrder, hmem]
      tauto

/-! ## §5. Insertion. -/

omit [DecidableEq R] in
theorem insertAction_spec {c : DomainExtensionChannel X R} {x : X}
    (hx : x ∉ c.stimuliiToRecheck) :
    c.insertAction x = some { c with stimuliiToRecheck := insert x c.stimuliiToRecheck } := by
  simp only [insertAction, insertSolo, hx, if_false, Option.bind_eq_bind, Option.bind_some]

omit [DecidableEq R] in
/-- The walk of a new tree inserts all its links. -/
theorem foldlM_insertAction : ∀ (xlinks : List X) (c : DomainExtensionChannel X R), xlinks.Nodup →
    (∀ y ∈ xlinks, y ∉ c.stimuliiToRecheck) →
    xlinks.foldlM insertAction c
      = some { c with stimuliiToRecheck := c.stimuliiToRecheck ∪ xlinks.toFinset } := by
  intro xlinks
  induction xlinks with
  | nil => intro c _ _; simp
  | cons x xlinks ih =>
      intro c hnd hout
      have hnotin : x ∉ xlinks := (List.nodup_cons.mp hnd).1
      rw [List.foldlM_cons, insertAction_spec (hout x List.mem_cons_self)]
      show xlinks.foldlM insertAction { c with stimuliiToRecheck := insert x c.stimuliiToRecheck } = _
      rw [ih _ (List.nodup_cons.mp hnd).2]
      · simp [Finset.insert_union]
      · intro y hy hmem
        rcases Finset.mem_insert.mp hmem with rfl | hmem
        · exact hnotin hy
        · exact hout y (List.mem_cons_of_mem _ hy) hmem

/-! ## §6. Checking a stimulus. -/

/-- Whether a check with this extender result has to build an extra tree. -/
def needsTree (c : DomainExtensionChannel X R) (info : Option (InducedAndDeps X R)) : Prop :=
  ∃ i, info = some i ∧ i.inducedRoot ∉ c.inducedRootToTreeOrdinalAndRefCount.keys

instance (c : DomainExtensionChannel X R) (info : Option (InducedAndDeps X R)) :
    Decidable (c.needsTree info) :=
  match info with
  | none => isFalse (fun ⟨_, h, _⟩ => by cases h)
  | some i => decidable_of_iff (i.inducedRoot ∉ c.inducedRootToTreeOrdinalAndRefCount.keys) (by
      simp [needsTree])

/-- What `CheckStimulusXLink` does to a channel. -/
structure Checks (c c' : DomainExtensionChannel X R) (x : X)
    (info : Option (InducedAndDeps X R)) (built : BuiltTree X) : Prop where
  stimulii : ∀ s, c'.stimulusToInducedRootAndDeps.lookup s
    = if s = x ∧ info.isSome then info else c.stimulusToInducedRootAndDeps.lookup s
  recheck : ∀ y, y ∈ c'.stimuliiToRecheck ↔
    y ∈ c.stimuliiToRecheck ∨ (c.needsTree info ∧ y ∈ built.xlinks)
  classes : ∀ r cls, c.inducedRootToTreeOrdinalAndRefCount.lookup r = some cls →
    ∃ cls', c'.inducedRootToTreeOrdinalAndRefCount.lookup r = some cls'
      ∧ cls'.treeOrdinal = cls.treeOrdinal
  created : c.needsTree info → ∃ r cls', c'.inducedRootToTreeOrdinalAndRefCount.lookup r = some cls'
    ∧ cls'.treeOrdinal = some built.treeOrdinal
  queued : c'.ordinalsToTearDown = c.ordinalsToTearDown

/-- A root's stimulii when one stimulus is recorded. -/
theorem stimuliiOf_record {c c' : DomainExtensionChannel X R} {x : X} {info : InducedAndDeps X R}
    (hx : x ∉ c.stimulusToInducedRootAndDeps.keys)
    (hc' : ∀ s, c'.stimulusToInducedRootAndDeps.lookup s
      = if s = x then some info else c.stimulusToInducedRootAndDeps.lookup s) (r : R) :
    c'.stimuliiOf r = if r = info.inducedRoot then insert x (c.stimuliiOf r)
      else c.stimuliiOf r := by
  have hnone : c.stimulusToInducedRootAndDeps.lookup x = none := StdMap.lookup_eq_none.mpr hx
  ext s
  rw [mem_stimuliiOf, hc']
  by_cases hs : s = x
  · subst hs
    have hnotin : s ∉ c.stimuliiOf r := by
      rw [mem_stimuliiOf, hnone]
      rintro ⟨_, h, _⟩
      cases h
    by_cases hr : r = info.inducedRoot
    · simp [hr]
    · simp [hr, hnotin, eq_comm]
  · rw [if_neg hs, ← mem_stimuliiOf]
    split
    · rw [Finset.mem_insert, or_iff_right hs]
    · rfl

theorem card_stimuliiOf_record {c c' : DomainExtensionChannel X R} {x : X}
    {info : InducedAndDeps X R} (hx : x ∉ c.stimulusToInducedRootAndDeps.keys)
    (hc' : ∀ s, c'.stimulusToInducedRootAndDeps.lookup s
      = if s = x then some info else c.stimulusToInducedRootAndDeps.lookup s) :
    (c'.stimuliiOf info.inducedRoot).card = (c.stimuliiOf info.inducedRoot).card + 1 := by
  rw [stimuliiOf_record hx hc', if_pos rfl]
  refine Finset.card_insert_of_notMem (fun hin => ?_)
  obtain ⟨i, hi, _⟩ := mem_stimuliiOf.mp hin
  exact hx (StdMap.mem_keys_of_lookup hi)

/-- **`CheckStimulusXLink`** on a stimulus with no record: no assertion fires, the
maps stay in step, and the record is what the extender returned. -/
theorem WF.checkStimulusXLink {c : DomainExtensionChannel X R} (h : c.WF) {x : X}
    (hx : x ∉ c.stimulusToInducedRootAndDeps.keys) (info : Option (InducedAndDeps X R))
    (built : BuiltTree X) (hfresh : c.needsTree info →
      built.xlinks.Nodup ∧ ∀ y ∈ built.xlinks, y ∉ c.stimuliiToRecheck) :
    ∃ c', c.checkStimulusXLink x info built = some c' ∧ c'.WF ∧ Checks c c' x info built := by
  cases info with
  | none =>
      -- no record is made, and no tree
      have hno : ¬ c.needsTree none := fun ⟨_, hi, _⟩ => by cases hi
      refine ⟨c, rfl, h, ⟨fun s => by simp, fun y => by simp [hno],
        fun r cls hr => ⟨cls, hr, rfl⟩, fun hn => absurd hn hno, rfl⟩⟩
  | some info =>
      obtain ⟨hne, hfiled⟩ := foldl_file x (inOrder info.deps) c.depToAllStimulii h.noEmpty
      set m := (inOrder info.deps).foldl (fun m dep => m.set dep (insert x ((m.lookup dep).getD ∅)))
        c.depToAllStimulii with hm
      have hnew := StdMap.insertNew_of_notMem info hx
      -- the record, once the induced root has been fixed up to the class's key
      set stimulii := (c.stimulusToInducedRootAndDeps.set x info).set x
        { info with inducedRoot := info.inducedRoot } with hstimulii
      have hlook : ∀ s, stimulii.lookup s
          = if s = x then some info else c.stimulusToInducedRootAndDeps.lookup s := by
        intro s
        by_cases hs : s = x <;> simp [hstimulii, hs]
      have hentry : (c.stimulusToInducedRootAndDeps.set x info).lookup x = some info := by simp
      -- what is filed is what the records hold, with the new one
      have hinverse : ∀ dep s, Filed m dep s ↔
          ∃ i, stimulii.lookup s = some i ∧ dep ∈ i.deps := by
        intro dep s
        rw [hfiled, h.inverse, hlook, mem_inOrder]
        unfold DependsOn
        by_cases hs : s = x
        · subst hs
          simp [StdMap.lookup_eq_none.mpr hx]
        · simp [hs]
      cases hcls : c.inducedRootToTreeOrdinalAndRefCount.lookup info.inducedRoot with
      | some cls =>
          -- the class exists: one more reference
          have hin : info.inducedRoot ∈ c.inducedRootToTreeOrdinalAndRefCount.keys :=
            StdMap.mem_keys_of_lookup hcls
          have hno : ¬ c.needsTree (some info) := by
            rintro ⟨i, hi, hout⟩
            cases hi
            exact hout hin
          refine ⟨{ c with
            stimulusToInducedRootAndDeps := stimulii
            depToAllStimulii := m
            inducedRootToTreeOrdinalAndRefCount := c.inducedRootToTreeOrdinalAndRefCount.set
              info.inducedRoot { cls with refCount := cls.refCount + 1 } }, ?_,
            ⟨hinverse, hne, ?_, ?_⟩, ⟨fun s => by simp [hlook], fun y => by simp [hno], ?_,
              fun hn => absurd hn hno, rfl⟩⟩
          · -- the run; the class has its key still
            simp only [DomainExtensionChannel.checkStimulusXLink, hnew, hcls, ← hm,
              Option.bind_eq_bind, Option.bind_some, hentry]
            rw [ASSERT_pos (StdMap.mem_keys_set_self _ _ _), Option.bind_some]
          · intro s i hs
            rw [hlook] at hs
            refine Finset.mem_insert.mpr ?_
            split at hs
            · cases hs
              exact Or.inl rfl
            · exact Or.inr (h.rooted s i hs)
          · -- one more stimulus of the root, as one more reference
            intro r cls' hr
            simp only [StdMap.lookup_set] at hr
            split at hr
            next heq =>
              subst heq
              cases hr
              obtain ⟨hcount, hpos, hord⟩ := h.counted _ cls hcls
              refine ⟨?_, ?_, hord⟩
              · rw [card_stimuliiOf_record hx hlook]
                show cls.refCount + 1 = _
                rw [hcount]
                push_cast
                rfl
              · show 0 < cls.refCount + 1
                omega
            next hne' =>
              rw [stimuliiOf_record hx hlook, if_neg hne']
              exact h.counted r cls' hr
          · intro r cls' hr
            by_cases hr' : r = info.inducedRoot
            · subst hr'
              rw [hcls, Option.some.injEq] at hr
              subst hr
              exact ⟨{ cls with refCount := cls.refCount + 1 },
                by rw [StdMap.lookup_set, if_pos rfl], rfl⟩
            · exact ⟨cls', by rw [StdMap.lookup_set, if_neg hr', hr], rfl⟩
      | none =>
          -- a new class: its tree is built, re-entering the channel
          have hout : info.inducedRoot ∉ c.inducedRootToTreeOrdinalAndRefCount.keys :=
            StdMap.lookup_eq_none.mp hcls
          have hneeds : c.needsTree (some info) := ⟨info, rfl, hout⟩
          obtain ⟨hnd, hnot⟩ := hfresh hneeds
          -- no stimulus induces the root yet
          have hempty : c.stimuliiOf info.inducedRoot = ∅ := by
            rw [Finset.eq_empty_iff_forall_notMem]
            intro s hs
            obtain ⟨i, hi, hroot⟩ := mem_stimuliiOf.mp hs
            exact hout (hroot ▸ h.rooted s i hi)
          set classes := (c.inducedRootToTreeOrdinalAndRefCount.set info.inducedRoot
            ⟨none, 1⟩).set info.inducedRoot ⟨some built.treeOrdinal, 1⟩ with hclasses
          have hclook : ∀ r, classes.lookup r = if r = info.inducedRoot
              then some ⟨some built.treeOrdinal, 1⟩
              else c.inducedRootToTreeOrdinalAndRefCount.lookup r := by
            intro r
            by_cases hr : r = info.inducedRoot <;> simp [hclasses, hr]
          refine ⟨{ c with
            stimulusToInducedRootAndDeps := stimulii
            depToAllStimulii := m
            stimuliiToRecheck := c.stimuliiToRecheck ∪ built.xlinks.toFinset
            inducedRootToTreeOrdinalAndRefCount := classes }, ?_,
            ⟨hinverse, hne, ?_, ?_⟩, ⟨fun s => by simp [hlook], fun y => by simp [hneeds], ?_,
              fun _ => ⟨info.inducedRoot, _, by rw [hclook, if_pos rfl], rfl⟩, rfl⟩⟩
          · -- the walk over the new tree's links, which go to the recheck set
            have hwalk := foldlM_insertAction built.xlinks
              { c with
                stimulusToInducedRootAndDeps := c.stimulusToInducedRootAndDeps.set x info
                depToAllStimulii := m
                inducedRootToTreeOrdinalAndRefCount :=
                  c.inducedRootToTreeOrdinalAndRefCount.set info.inducedRoot ⟨none, 1⟩ } hnd hnot
            simp only [DomainExtensionChannel.checkStimulusXLink, hnew, hcls, ← hm,
              Option.bind_eq_bind, createExtraTree, StdMap.insertNew_of_notMem _ hout, hwalk,
              Option.bind_some, StdMap.lookup_set, if_true]
            rw [ASSERT_pos (StdMap.mem_keys_set_self _ _ _), Option.bind_some]
          · intro s i hs
            rw [hlook] at hs
            refine Finset.mem_insert.mpr ?_
            split at hs
            · cases hs
              exact Or.inl rfl
            · exact Or.inr (Finset.mem_insert_of_mem (h.rooted s i hs))
          · -- the new class has one reference, and one stimulus
            intro r cls' hr
            rw [hclook] at hr
            split at hr
            next heq =>
              subst heq
              cases hr
              refine ⟨?_, Int.one_pos, rfl⟩
              rw [card_stimuliiOf_record hx hlook, hempty]
              rfl
            next hne' =>
              rw [stimuliiOf_record hx hlook, if_neg hne']
              exact h.counted r cls' hr
          · intro r cls' hr
            have hr' : r ≠ info.inducedRoot := by
              rintro rfl
              rw [hcls] at hr
              cases hr
            exact ⟨cls', by rw [hclook, if_neg hr', hr], rfl⟩

/-! ## §7. Validate. -/

/-- A well-formed channel with no more stimulii than the domain has XLinks passes
every assertion of `Validate`. -/
theorem WF.validate {c : DomainExtensionChannel X R} (h : c.WF) {domainSize : Nat}
    (hsize : c.stimulusToInducedRootAndDeps.keys.card ≤ domainSize) :
    c.validate domainSize = some () := by
  simp only [DomainExtensionChannel.validate, ASSERT_bind_eq_some, ASSERT_eq_some]
  refine ⟨hsize, ?_, ?_⟩
  · intro s hs
    obtain ⟨info, hinfo⟩ := StdMap.exists_of_mem_keys hs
    obtain ⟨cls, hcls⟩ := StdMap.exists_of_mem_keys (h.rooted s info hinfo)
    have hdeps : ∀ dep ∈ info.deps, dep ∈ c.depToAllStimulii.keys := by
      intro dep hdep
      obtain ⟨all, hall, _⟩ := (h.inverse dep s).mpr ⟨info, hinfo, hdep⟩
      exact StdMap.mem_keys_of_lookup hall
    have hpos := (h.counted _ cls hcls).2.1
    simp only [hinfo, hcls, Option.any_some, Bool.and_eq_true, decide_eq_true_eq]
    exact ⟨hdeps, hpos⟩
  · intro dep hdep s hs
    obtain ⟨all, hall⟩ := StdMap.exists_of_mem_keys hdep
    rw [hall, Option.getD_some] at hs
    obtain ⟨info, hinfo, _⟩ := (h.inverse dep s).mp ⟨all, hall, hs⟩
    exact StdMap.mem_keys_of_lookup hinfo

end Inferno.DB.DomainExtensionChannel
