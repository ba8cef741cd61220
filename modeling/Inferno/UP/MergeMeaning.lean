/-
  Inferno.UP.MergeMeaning
  ───────────────────────
  Merged free zones stand for what the zones stand for.

    • `mergedWalk_means` — the walk over a layout,
    • `mergeFreesPass_means`, `mergeSubcontainerBasePass_means` — the passes,
    • `transformToSingleFreeZone_means` — **one free zone**, which reads as the layout,
    • `getTreePatchAssignments_assigns` — the originators that are left at tree patches.
-/
import Inferno.UP.Intents
import Inferno.UP.MergeLoop

namespace Inferno.UP

open Inferno.Common Inferno.DB Inferno.Lib Inferno.Lib.Term Update TreeHeap

variable {P : Type} [LinearOrder P]

namespace Patch

variable {policy : FreeZone → FreeZone → Update Bool} {assign : Bool}
  {h h₁ h' : TreeHeap} {D R R₀ R₁ R₀' R₁' : Region} {us us' : List Content}
  {tss tss' : List (List Content)} {zone zone' : FreeZone} {cs cs' : List (Patch P)}
  {picks : NodeKind → Bool}

/-! ## §1. The walk. -/

/-- What the merges do at one patch. -/
def mergeStep (policy : FreeZone → FreeZone → Update Bool) (assign : Bool) :
    Patch P → Assigning P (Patch P)
  | .tree ptr zone intent originators children =>
      pure (.tree ptr zone intent originators children)
  | .free ptr zone originators children => do
      let (zone, children) ← mergeLoop policy assign zone 0 children
      return .free ptr zone originators children

theorem freeZoneMergeImpl_eq (layout : Patch P) :
    freeZoneMergeImpl policy assign layout = walkOut (mergeStep policy assign) layout := by
  unfold freeZoneMergeImpl walkFreesOut
  congr 1
  funext patch
  cases patch <;> rfl

omit [LinearOrder P] in
/-- What decides whether a child fits. -/
def head (h : TreeHeap) (p : Patch P) : Option NodeKind × Originators P :=
  (p.baseKind h, p.originators)

omit [LinearOrder P] in
theorem fitAll_iff {terminii : List Mutator} : FitAll h assign terminii cs
    ↔ ∀ r ∈ terminii.zip (cs.map (head h)), ∀ kind ∈ r.2.1,
      Fits assign r.1.mode r.2.2 kind := by
  unfold FitAll
  rw [List.zip_map_right, List.forall_mem_map]
  rfl

omit [LinearOrder P] in
/-- It stays, as the nodes keep their kinds. -/
theorem Means.head_eq {Q : Region} {p : Patch P} {ts : List Content} (hmeans : Means h D p R ts)
    (hsteps : ChangesOnly h h' Q) : head h' p = head h p :=
  Prod.ext (hmeans.baseKind_eq hsteps) rfl

/-- **The layout after the merges.** -/
structure WalkMerged (h h' : TreeHeap) (D R : Region) (picks : NodeKind → Bool) (p : Patch P)
    (ts : List Content) (p' : Patch P) (R' : Region) : Prop where
  kept : Kept h h' R R'
  means : Means h' D p' R' ts
  head : head h' p' = head h p
  trees : treeZones [p'] = treeZones [p]
  traced : ∀ q' ∈ p'.windIn, ∃ q ∈ p.windIn,
    q'.originators = q.originators ∧ q'.freeBase = q.freeBase
  settled : ∀ q ∈ p'.windIn, Settled h' picks q

/-- And a list of layouts. -/
structure WalkMergedAll (h h' : TreeHeap) (D R : Region) (picks : NodeKind → Bool)
    (cs : List (Patch P)) (tss : List (List Content)) (cs' : List (Patch P)) (R' : Region) :
    Prop where
  kept : Kept h h' R R'
  means : MeansAll h' D cs' R' tss
  heads : cs'.map (head h') = cs.map (head h)
  trees : treeZones cs' = treeZones cs
  traced : ∀ q' ∈ windInAll cs', ∃ q ∈ windInAll cs,
    q'.originators = q.originators ∧ q'.freeBase = q.freeBase
  settled : ∀ q ∈ windInAll cs', Settled h' picks q

omit [LinearOrder P] in
/-- The children of a free patch have been merged, and then the patch. -/
theorem WalkMergedAll.loop {ptr : Nat} {originators : Originators P} {cs'' : List (Patch P)}
    {R₁'' : Region} (hR₀ : R₀ ≤ R) (hR₁ : R₁ ≤ R) (hread : h.ReadsFree R₀ zone us)
    (hcs : WalkMergedAll h h₁ D R₁ picks cs tss cs' R₁')
    (hloop : LoopMerged h₁ h' D picks zone 0 R₀ R₁' us tss cs' zone' R₀' R₁'' us' tss' cs'') :
    WalkMerged h h' D R picks (.free ptr zone originators cs)
      (fillAll (plug (slots zone) tss) us) (.free ptr zone' originators cs'') (R₀' ⊔ R₁'') := by
  -- what the children's walk kept, seen from the region of the whole patch
  have hkept₁ : Kept h h₁ (R₀ ⊔ R₁) (R₀ ⊔ R₁') :=
    ⟨hcs.kept.changes.mono le_sup_right,
      sup_le (le_sup_left.trans le_sup_left)
        (hcs.kept.region_le.trans (sup_le_sup_right le_sup_right _)),
      sup_le (hread.owned.le_used.trans (used_mono hcs.kept.changes)) hcs.kept.in_memory⟩
  have hkept := (hkept₁.trans hloop.kept).mono (sup_le hR₀ hR₁)
  obtain ⟨hsettled, hunpicked⟩ := hloop.settled hcs.settled
  refine ⟨hkept, ⟨R₀', R₁'', us', tss', le_sup_left, le_sup_right, hloop.apart, hloop.reads, ?_,
    hloop.means, (hloop.content [] rfl).symm⟩, ?_, ?_, ?_, ?_⟩
  · rw [hloop.length, Nat.zero_add, hloop.means.length_eq]
  · -- the kind of the base is as it was, by the loop and the walk
    obtain ⟨b, hb, hbase⟩ := hread.base
    refine Prod.ext ?_ rfl
    show zone'.base.map _ = zone.base.map _
    rw [hloop.base, hb]
    exact congrArg some (hkept.changes.kind b hbase.has.1)
  · rw [treeZones_free, treeZones_free, hloop.trees, hcs.trees]
  · intro q' hq'
    rw [windIn_eq] at hq'
    rw [windIn_eq]
    rcases List.mem_cons.mp hq' with rfl | hq'
    · exact ⟨_, List.mem_cons_self, rfl, hloop.base⟩
    · obtain ⟨q, hq, hsame⟩ := hcs.traced q' (hloop.below q' hq')
      exact ⟨q, List.mem_cons_of_mem _ hq, hsame⟩
  · intro q hq
    rw [windIn_eq] at hq
    rcases List.mem_cons.mp hq with rfl | hq
    · exact hunpicked
    · exact hsettled q hq

omit [LinearOrder P] in
theorem WalkMergedAll.cons {h₂ : TreeHeap} {c c' : Patch P} {ts : List Content}
    (hD₁ : h₁.Owned D) (hR₁ : R₁ ≤ used h) (hR₁D : Disjoint R₁ D) (hapart : Disjoint R₀ R₁)
    (h₀le : R₀ ≤ R) (h₁le : R₁ ≤ R) (hrest : MeansAll h D cs R₁ tss)
    (hc : WalkMerged h h₁ D R₀ picks c ts c' R₀')
    (hcs : WalkMergedAll h₁ h₂ D R₁ picks cs tss cs' R₁') :
    WalkMergedAll h h₂ D R picks (c :: cs) (ts :: tss) (c' :: cs') (R₀' ⊔ R₁') := by
  -- the other children's walk leaves the first child alone
  obtain ⟨hkept, hdisjoint⟩ := hc.kept.both hR₁ hapart hcs.kept
  have hc' : Means h₂ D c' R₀' ts := Means.frame hcs.kept.changes hD₁ hR₁D c' R₀' ts
    (hc.kept.disjoint hR₁ hapart).symm hc.means
  refine ⟨hkept.mono (sup_le h₀le h₁le),
    ⟨R₀', R₁', ts, tss, le_sup_left, le_sup_right, hdisjoint, hc', hcs.means, rfl⟩, ?_, ?_, ?_, ?_⟩
  · rw [List.map_cons, List.map_cons, hcs.heads, hc.means.head_eq hcs.kept.changes, hc.head]
    congr 1
    apply List.map_congr_left
    intro d hd
    obtain ⟨S, vs, hsub⟩ := hrest.sub _ _ _ d (mem_windInAll.mpr ⟨d, hd, mem_windIn_self d⟩)
    exact hsub.head_eq hc.kept.changes
  · rw [← List.singleton_append, treeZones_append, hc.trees, hcs.trees, ← treeZones_append,
      List.singleton_append]
  · intro q' hq'
    unfold windInAll at hq' ⊢
    rcases List.mem_append.mp hq' with hq' | hq'
    · obtain ⟨q, hq, hsame⟩ := hc.traced q' hq'
      exact ⟨q, List.mem_append_left _ hq, hsame⟩
    · obtain ⟨q, hq, hsame⟩ := hcs.traced q' hq'
      exact ⟨q, List.mem_append_right _ hq, hsame⟩
  · intro q hq
    unfold windInAll at hq
    rcases List.mem_append.mp hq with hq | hq
    · obtain ⟨S, vs, hsub⟩ := hc.means.sub _ _ _ q hq
      exact (hc.settled q hq).later hsub hcs.kept.changes
    · exact hcs.settled q hq

mutual

/-- **The merges keep what a layout stands for.** -/
theorem mergedWalk_means (hpolicy : Picks policy picks) : ∀ (p : Patch P) (R : Region)
    (ts : List Content) (h : TreeHeap), h.Owned D → R ≤ used h → Disjoint R D →
    Means h D p R ts → (∀ q ∈ p.windIn, Joins h assign q) →
    ∃ p' h' R', (∀ a, ∃ a', walkOut (mergeStep policy assign) p a h = some ((p', a'), h')
        ∧ Recorded assign h' p.windIn p'.windIn a a')
      ∧ WalkMerged h h' D R picks p ts p' R'
  | .tree ptr zone intent originators children, R, ts, h, hD, hR, hRD, hmeans, hjoins => by
      obtain ⟨t, tss, hbase, hread, hholes, hnodup, hlen, hall, rfl⟩ := hmeans
      unfold windIn at hjoins
      rw [List.forall_mem_cons] at hjoins
      obtain ⟨cs', h₁, R₁, hrun, hcs⟩ :=
        mergedWalkAll_means hpolicy children R tss h hD hR hRD hall hjoins.2
      have hread₁ : h₁.ReadsLink zone.terminii D t zone.base :=
        ReadsLink.congr (hcs.kept.changes.unchanged hRD hD) (le_refl D) t _
          (hcs.kept.changes.child hRD hD hbase) hread
      refine ⟨.tree ptr zone intent originators cs', h₁, R₁, ?_, hcs.kept,
        ⟨t, tss, hbase, hread₁, hholes, hnodup, hlen, hcs.means, rfl⟩, rfl, ?_, ?_, ?_⟩
      · intro a
        obtain ⟨a', hrun, hrecorded⟩ := hrun a
        refine ⟨a', ?_, ?_⟩
        · rw [walkOut]
          exact (runs_bind hrun).trans rfl
        · rw [windIn_eq, windIn_eq]
          exact hrecorded.cons rfl
      · rw [treeZones_tree, treeZones_tree, hcs.trees]
      · intro q' hq'
        rw [windIn_eq] at hq'
        rw [windIn_eq]
        rcases List.mem_cons.mp hq' with rfl | hq'
        · exact ⟨_, List.mem_cons_self, rfl, rfl⟩
        · obtain ⟨q, hq, hsame⟩ := hcs.traced q' hq'
          exact ⟨q, List.mem_cons_of_mem _ hq, hsame⟩
      · intro q hq
        rw [windIn_eq] at hq
        rcases List.mem_cons.mp hq with rfl | hq
        · trivial
        · exact hcs.settled q hq
  | .free ptr zone originators children, R, ts, h, hD, hR, hRD, hmeans, hjoins => by
      obtain ⟨R₀, R₁, us, tss, hR₀, hR₁, hapart, hread, hlen, hall, rfl⟩ := hmeans
      unfold windIn at hjoins
      rw [List.forall_mem_cons] at hjoins
      obtain ⟨cs', h₁, R₁', hrun, hcs⟩ := mergedWalkAll_means hpolicy children R₁ tss h hD
        (hR₁.trans hR) (hRD.mono_left hR₁) hall hjoins.2
      -- the children's walks have not touched the zone, and what they made is apart from it
      have hread₁ : h₁.ReadsFree R₀ zone us := hread.frame hcs.kept.changes hapart.symm
      have hapart₁ : Disjoint R₀ R₁' :=
        (hcs.kept.disjoint (hR₀.trans hR) hapart.symm).symm
      have hR₁'D : Disjoint R₁' D := hcs.kept.disjoint hD.le_used (hRD.mono_left hR₁)
      have hfits : FitAll h₁ assign (zone.terminii.drop 0) cs' := by
        rw [List.drop_zero, fitAll_iff, hcs.heads, ← fitAll_iff]
        exact hjoins.1
      obtain ⟨zone', cs'', h', R₀', R₁'', us', tss', hloop, hmerged⟩ := mergeLoop_means hpolicy cs'
        h₁ zone 0 R₀ R₁' us tss ⟨hcs.kept.changes.owned (hRD.mono_left hR₁) hD,
          hRD.mono_left hR₀, hR₁'D, hapart₁, hcs.kept.in_memory, hread₁, hcs.means,
          by rw [hlen, hcs.means.length_eq, Nat.zero_add], hfits⟩
      refine ⟨.free ptr zone' originators cs'', h', R₀' ⊔ R₁'', ?_,
        hcs.loop hR₀ hR₁ hread hmerged⟩
      intro a
      obtain ⟨a₁, hrun, hbelow⟩ := hrun a
      obtain ⟨a₂, hloop, hhere⟩ := hloop a₁
      refine ⟨a₂, ?_, ?_⟩
      · rw [walkOut]
        refine (runs_bind hrun).trans ?_
        exact (runs_bind hloop).trans rfl
      · rw [windIn_eq, windIn_eq]
        exact (hbelow.trans hmerged.kept.changes hhere hcs.traced).cons rfl

theorem mergedWalkAll_means (hpolicy : Picks policy picks) : ∀ (cs : List (Patch P)) (R : Region)
    (tss : List (List Content)) (h : TreeHeap), h.Owned D → R ≤ used h → Disjoint R D →
    MeansAll h D cs R tss → (∀ q ∈ windInAll cs, Joins h assign q) →
    ∃ cs' h' R', (∀ a, ∃ a', walkOutAll (mergeStep policy assign) cs a h
          = some ((cs', a'), h')
        ∧ Recorded assign h' (windInAll cs) (windInAll cs') a a')
      ∧ WalkMergedAll h h' D R picks cs tss cs' R'
  | [], R, tss, h, hD, hR, hRD, hmeans, hjoins => by
      refine ⟨[], h, R, fun a => ⟨a, ?_, Recorded.refl assign h _ a⟩, Kept.refl hR, hmeans, rfl,
        rfl, fun q hq => ⟨q, hq, rfl, rfl⟩, fun q hq => ?_⟩
      · rw [walkOutAll]
        rfl
      · unfold windInAll at hq
        exact absurd hq List.not_mem_nil
  | c :: cs, R, tss, h, hD, hR, hRD, hmeans, hjoins => by
      obtain ⟨R₀, R₁, ts, tss', hR₀, hR₁, hapart, hchild, hrest, rfl⟩ := hmeans
      unfold windInAll at hjoins
      rw [List.forall_mem_append] at hjoins
      -- the first child, and then the others in the memory it has left
      obtain ⟨c', h₁, R₀', hrun, hc⟩ := mergedWalk_means hpolicy c R₀ ts h hD (hR₀.trans hR)
        (hRD.mono_left hR₀) hchild hjoins.1
      have hchanges := hc.kept.changes
      have hrest₁ : MeansAll h₁ D cs R₁ tss' :=
        MeansAll.frame hchanges hD (hRD.mono_left hR₀) cs R₁ tss' hapart hrest
      have hjoins₁ : ∀ q ∈ windInAll cs, Joins h₁ assign q := by
        intro q hq
        obtain ⟨S, vs, hsub⟩ := hrest.sub _ _ _ q hq
        exact (hjoins.2 q hq).later hsub hchanges
      obtain ⟨cs', h₂, R₁', hrun', hcs⟩ := mergedWalkAll_means hpolicy cs R₁ tss' h₁
        (hchanges.owned (hRD.mono_left hR₀) hD) ((hR₁.trans hR).trans (used_mono hchanges))
        (hRD.mono_left hR₁) hrest₁ hjoins₁
      refine ⟨c' :: cs', h₂, R₀' ⊔ R₁', ?_, hcs.cons (hchanges.owned (hRD.mono_left hR₀) hD)
        (hR₁.trans hR) (hRD.mono_left hR₁) hapart hR₀ hR₁ hrest hc⟩
      intro a
      obtain ⟨a₁, hrun, hfirst⟩ := hrun a
      obtain ⟨a₂, hrun', hsecond⟩ := hrun' a₁
      refine ⟨a₂, ?_, ?_⟩
      · rw [walkOutAll]
        refine (runs_bind hrun).trans ?_
        exact (runs_bind hrun').trans rfl
      · unfold windInAll
        exact hfirst.append hcs.kept.changes hsecond

end

/-! ## §2. No free patch below another. -/

/-- The children of a free patch are tree patches. -/
def Separated : Patch P → Prop
  | .tree .. => True
  | .free _ _ _ children => ∀ c ∈ children, c.treeZone?.isSome

omit [LinearOrder P] in
/-- Where the policy picks every kind, no free child is left. -/
theorem Settled.separated {p : Patch P} {ts : List Content}
    (hsettled : Settled h (fun _ => true) p) (hmeans : Means h D p R ts) : Separated p := by
  cases p with
  | tree ptr zone intent originators children => trivial
  | free ptr zone originators children =>
      intro c hc
      obtain ⟨S, vs, hsub⟩ := hmeans.sub _ _ _ c
        (windIn_of_child (p := .free ptr zone originators children) hc (mem_windIn_self c))
      cases c with
      | tree ptr zone intent originators children => rfl
      | free ptr' zone' originators' children' =>
          obtain ⟨_, _, _, _, _, _, _, hread, _⟩ := hsub
          obtain ⟨b, hb, _⟩ := hread.base
          have hkind : Patch.baseKind h (.free ptr' zone' originators' children')
              = some (h.nodeAt b).kind := by
            show zone'.base.map _ = _
            rw [hb]
            rfl
          exact absurd (hsettled _ hc _ hkind).symm Bool.false_ne_true

omit [LinearOrder P] in
theorem treeZones_eq_nil {p : Patch P} :
    treeZones [p] = [] ↔ ∀ q ∈ p.windIn, q.treeZone? = none := by
  unfold treeZones
  rw [windInAll_eq, List.flatMap_singleton, List.filterMap_eq_nil_iff]

omit [LinearOrder P] in
/-- A free patch that is separated, in a layout of free patches, has no children. -/
theorem Separated.leaf {p q : Patch P} (hfree : ∀ q ∈ p.windIn, q.treeZone? = none)
    (hq : q ∈ p.windIn) (hseparated : Separated q) : q.children = [] := by
  cases q with
  | tree ptr zone intent originators children => cases hfree _ hq
  | free ptr zone originators children =>
      refine List.eq_nil_iff_forall_not_mem.mpr fun c hc => ?_
      have hmem : c ∈ p.windIn := (windIn_sublist hq).subset
        (windIn_of_child (p := .free ptr zone originators children) hc (mem_windIn_self c))
      have hsome := hseparated c hc
      rw [hfree c hmem] at hsome
      cases hsome

omit [LinearOrder P] in
theorem run_duplicateAllCheck : ∀ ps : List (Patch P), (∀ q ∈ ps, q.treeZone? = none) →
    duplicateAllCheck ps h = some ((), h)
  | [], _ => rfl
  | q :: qs, hfree => by
      rw [List.forall_mem_cons] at hfree
      rw [duplicateAllCheck]
      exact (run_bind (run_assert hfree.1 h)).trans (run_duplicateAllCheck qs hfree.2)

omit [LinearOrder P] in
theorem run_freeZoneMergeCheck : ∀ ps : List (Patch P), (∀ q ∈ ps, q.children = []) →
    freeZoneMergeCheck policy ps h = some ((), h)
  | [], _ => rfl
  | .tree .. :: qs, hleaf => by
      rw [List.forall_mem_cons] at hleaf
      exact run_freeZoneMergeCheck qs hleaf.2
  | .free ptr zone originators children :: qs, hleaf => by
      rw [List.forall_mem_cons] at hleaf
      obtain rfl : children = [] := hleaf.1
      rw [freeZoneMergeCheck]
      exact (run_bind rfl).trans (run_freeZoneMergeCheck qs hleaf.2)

omit [LinearOrder P] in
/-- A free patch without children reads as what it stands for. -/
theorem Means.of_leaf {ptr : Nat} {originators : Originators P} {ts : List Content}
    (hmeans : Means h D (.free ptr zone originators ([] : List (Patch P))) R ts) :
    zone.terminii = [] ∧ ∃ R₀, R₀ ≤ R ∧ h.ReadsFree R₀ zone ts := by
  obtain ⟨R₀, R₁, us, tss, hR₀, _, _, hread, hlen, hall, rfl⟩ := hmeans
  obtain rfl : tss = [] := hall
  have hterminii : zone.terminii = [] := List.eq_nil_of_length_eq_zero hlen
  refine ⟨hterminii, R₀, hR₀, ?_⟩
  have hholes := hread.holes
  rw [hterminii] at hholes
  have hsame : fillAll (plug (slots zone) []) us = us := by
    refine Eq.trans (fillAll_congr us ?_) (fillAll_hole us)
    intro y hy
    exact absurd (hholes.mem_iff.mp hy) List.not_mem_nil
  rw [show fillAll (plug (zone.terminii.map Mutator.slot) []) us = us from hsame]
  exact hread

end Patch

/-! ## §3. The passes. -/

theorem picks_all : Picks (fun _ _ => return true) fun _ => true :=
  fun _ _ _ _ _ => rfl

theorem picks_container :
    Picks (fun _ childZone => return (← childZone.tryGetContainerBase).isSome)
      fun kind => kind = .subContainer := by
  intro h zone childZone b hb
  refine (run_bind (Patch.run_tryGetContainerBase hb)).trans ?_
  show _ = some (decide ((h.nodeAt b).kind = .subContainer), h)
  by_cases hkind : (h.nodeAt b).kind = .subContainer
  · rw [if_pos hkind, decide_eq_true hkind]
    rfl
  · rw [if_neg hkind, decide_eq_false hkind]
    rfl

/-- **`MergeFreesPass`** returns with a layout that stands for the same, keeps its tree zones and
has no free patch at a terminus of another. What is assigned stays, each originator has an
assignment or is still at a patch, and a new assignment leads to the base of its patch. -/
theorem mergeFreesPass_means (h : TreeHeap) (D R : Region) (layout : Patch P) (ts : List Content)
    (a : ReplaceAssignments P) (hD : h.Owned D) (hR : R ≤ used h) (hRD : Disjoint R D)
    (hmeans : layout.Means h D R ts) (hjoins : ∀ q ∈ layout.windIn, q.Joins h true) :
    ∃ layout' a' h' R', mergeFreesPass layout a h = some ((layout', a'), h')
      ∧ layout'.Means h' D R' ts ∧ Disjoint R' D ∧ ChangesOnly h h' R
      ∧ Patch.treeZones [layout'] = Patch.treeZones [layout]
      ∧ (∀ q ∈ layout'.windIn, q.Separated)
      ∧ Recorded true h' layout.windIn layout'.windIn a a' := by
  obtain ⟨layout', h', R', hrun, hmerged⟩ :=
    Patch.mergedWalk_means picks_all layout R ts h hD hR hRD hmeans hjoins
  obtain ⟨a', hrun, hrecorded⟩ := hrun a
  refine ⟨layout', a', h', R', ?_, hmerged.means, hmerged.kept.disjoint hD.le_used hRD,
    hmerged.kept.changes, hmerged.trees, ?_, hrecorded⟩
  · unfold mergeFreesPass
    rw [Patch.freeZoneMergeImpl_eq]
    exact hrun
  · intro q hq
    obtain ⟨S, vs, hsub⟩ := hmerged.means.sub _ _ _ q hq
    exact (hmerged.settled q hq).separated hsub

/-- One node of the small memory, with its links, as a region. -/
theorem smallHeap_owned {n : Nat} {xs : Set Nat} (hn : n < 5) (hxs : ∀ x ∈ xs, x < 5)
    (hlinks : ∀ x ∈ (smallHeap.nodeAt n).links, x ∈ xs)
    (hnodup : (smallHeap.nodeAt n).links.Nodup) : smallHeap.Owned ({n}, xs) where
  node_lt := by
    rintro m rfl
    exact hn
  link_lt := hxs
  links := by
    rintro m rfl
    exact hlinks
  nodup := by
    rintro m rfl
    exact hnodup
  owner := by
    rintro m rfl k rfl x _ _
    rfl

/-- A leaf of the small tree, as a free zone. -/
theorem smallHeap_readsFreeLeaf : smallHeap.ReadsFree ({1}, ∅) ⟨some 1, []⟩ [smallLeaf 1] where
  base := ⟨1, rfl, Or.inr ⟨by decide, smallLeaf 1, rfl,
    ⟨by decide, Or.inl (Set.mem_singleton 1)⟩, [], rfl, trivial⟩⟩
  owned := smallHeap_owned (by decide) (fun x hx => absurd hx (Set.notMem_empty x))
    (fun x hx => absurd hx List.not_mem_nil) List.nodup_nil
  holes := List.Perm.refl []
  nodup := List.nodup_nil
  placed m hm := absurd hm List.not_mem_nil

/-- Node 4 around its placeholder. -/
theorem smallHeap_readsFreeParent : smallHeap.ReadsFree ({4}, {4})
    ⟨some 4, [⟨.container, 4, 0, 4⟩]⟩ [.node ((smallHeap.nodeAt 4).label 4) [[.hole 4]]] where
  base := ⟨4, rfl, Or.inr ⟨by decide, _, rfl, ⟨by decide, Or.inl (Set.mem_singleton 4)⟩,
    [[.hole 4]], rfl, ⟨⟨rfl, Or.inr rfl⟩, trivial⟩, trivial⟩⟩
  owned := smallHeap_owned (by decide) (by rintro x rfl; decide)
    (fun x hx => List.mem_singleton.mp hx) (List.nodup_singleton 4)
  holes := List.Perm.refl _
  nodup := List.nodup_singleton 4
  placed m hm := by
    obtain rfl := List.mem_singleton.mp hm
    exact ⟨Set.mem_singleton 4, .sequence [4], rfl, by decide, rfl⟩

/-- Node 3, the container, around its placeholder. -/
theorem smallHeap_readsFreeContainer : smallHeap.ReadsFree ({3}, {3})
    ⟨some 3, [⟨.container, 3, 0, 3⟩]⟩ [.hole 3] where
  base := ⟨3, rfl, Or.inl ⟨by decide, ⟨by decide, Or.inl (Set.mem_singleton 3)⟩, .sequence [3],
    rfl, rfl, ⟨rfl, Or.inr rfl⟩, trivial⟩⟩
  owned := smallHeap_owned (by decide) (by rintro x rfl; decide)
    (fun x hx => List.mem_singleton.mp hx) (List.nodup_singleton 3)
  holes := List.Perm.refl _
  nodup := List.nodup_singleton 3
  placed m hm := by
    obtain rfl := List.mem_singleton.mp hm
    exact ⟨Set.mem_singleton 3, .sequence [3], rfl, by decide, rfl⟩

/-- The leaf and its originator. -/
def leafPatch : Patch Nat := .free 2 ⟨some 1, []⟩ {7} []

/-- Node 4 with a patch at its placeholder. -/
def parentPatch (child : Patch Nat) : Patch Nat :=
  .free 1 ⟨some 4, [⟨.container, 4, 0, 4⟩]⟩ ∅ [child]

/-- The container with the leaf at its placeholder. -/
def containerPatch : Patch Nat := .free 3 ⟨some 3, [⟨.container, 3, 0, 3⟩]⟩ ∅ [leafPatch]

theorem leafPatch_means : leafPatch.Means smallHeap ⊥ ({1}, ∅) [smallLeaf 1] :=
  ⟨({1}, ∅), ⊥, [smallLeaf 1], [], le_rfl, bot_le, disjoint_bot_right, smallHeap_readsFreeLeaf,
    rfl, rfl, rfl⟩

theorem containerPatch_means :
    containerPatch.Means smallHeap ⊥ (({3}, {3}) ⊔ ({1}, ∅)) [smallLeaf 1] :=
  ⟨({3}, {3}), ({1}, ∅), [.hole 3], [[smallLeaf 1]], le_sup_left, le_sup_right,
    by simp [Prod.disjoint_iff], smallHeap_readsFreeContainer, rfl,
    ⟨({1}, ∅), ⊥, [smallLeaf 1], [], le_rfl, bot_le, disjoint_bot_right, leafPatch_means, rfl,
      rfl⟩, rfl⟩

theorem parentPatch_means {child : Patch Nat} {R : Region} {t : Content}
    (hchild : child.Means smallHeap ⊥ R [t]) (hapart : Disjoint ({4}, {4}) R) :
    (parentPatch child).Means smallHeap ⊥ (({4}, {4}) ⊔ R)
      [.node ((smallHeap.nodeAt 4).label 4) [[t]]] :=
  ⟨({4}, {4}), R, [.node ((smallHeap.nodeAt 4).label 4) [[.hole 4]]], [[t]], le_sup_left,
    le_sup_right, hapart, smallHeap_readsFreeParent, rfl,
    ⟨R, ⊥, [t], [], le_rfl, bot_le, disjoint_bot_right, hchild, rfl, rfl⟩, rfl⟩

theorem owned_bot (h : TreeHeap) : h.Owned ⊥ where
  node_lt n hn := absurd hn (Set.notMem_empty n)
  link_lt x hx := absurd hx (Set.notMem_empty x)
  links n hn := absurd hn (Set.notMem_empty n)
  nodup n hn := absurd hn (Set.notMem_empty n)
  owner n hn := absurd hn (Set.notMem_empty n)

theorem mergeFreesPass_means_parentPatch :
    ∃ layout' a' h' R', mergeFreesPass (parentPatch leafPatch) .empty smallHeap
        = some ((layout', a'), h')
      ∧ layout'.Means h' ⊥ R' [.node ((smallHeap.nodeAt 4).label 4) [[smallLeaf 1]]]
      ∧ Disjoint R' ⊥ ∧ ChangesOnly smallHeap h' (({4}, {4}) ⊔ ({1}, ∅))
      ∧ Patch.treeZones [layout'] = Patch.treeZones [parentPatch leafPatch]
      ∧ (∀ q ∈ layout'.windIn, q.Separated)
      ∧ Recorded true h' (parentPatch leafPatch).windIn layout'.windIn .empty a' := by
  refine mergeFreesPass_means smallHeap ⊥ _ (parentPatch leafPatch) _ .empty (owned_bot _)
    (sup_le smallHeap_readsFreeParent.owned.le_used smallHeap_readsFreeLeaf.owned.le_used)
    disjoint_bot_right (parentPatch_means leafPatch_means (by simp [Prod.disjoint_iff])) ?_
  intro q hq
  have hq : q ∈ [parentPatch leafPatch, leafPatch] := hq
  rcases List.mem_pair.mp hq with rfl | rfl
  · intro r hr kind hkind
    obtain rfl : r = (⟨.container, 4, 0, 4⟩, leafPatch) := List.mem_singleton.mp hr
    obtain rfl : .plain = kind := Option.some.inj hkind
    exact ⟨fun _ => rfl, fun _ => ⟨by decide, by decide⟩⟩
  · exact fun r hr => absurd hr List.not_mem_nil

/-- **`MergeSubcontainerBasePass`** returns with a layout that stands for the same, keeps its
tree zones and has no container at the base of a free patch below another. -/
theorem mergeSubcontainerBasePass_means (h : TreeHeap) (D R : Region) (layout : Patch P)
    (ts : List Content) (hD : h.Owned D) (hR : R ≤ used h) (hRD : Disjoint R D)
    (hmeans : layout.Means h D R ts) (hjoins : ∀ q ∈ layout.windIn, q.Joins h false) :
    ∃ layout' h' R', mergeSubcontainerBasePass layout h = some (layout', h')
      ∧ layout'.Means h' D R' ts ∧ Disjoint R' D ∧ ChangesOnly h h' R
      ∧ Patch.treeZones [layout'] = Patch.treeZones [layout]
      ∧ ∀ q ∈ layout'.windIn, q.Settled h' fun kind => kind = .subContainer := by
  obtain ⟨layout', h', R', hrun, hmerged⟩ :=
    Patch.mergedWalk_means picks_container layout R ts h hD hR hRD hmeans hjoins
  obtain ⟨a', hrun, _⟩ := hrun .empty
  rw [← Patch.freeZoneMergeImpl_eq] at hrun
  exact ⟨layout', h', R', (run_bind hrun).trans rfl, hmerged.means,
    hmerged.kept.disjoint hD.le_used hRD, hmerged.kept.changes, hmerged.trees, hmerged.settled⟩

theorem mergeSubcontainerBasePass_means_parentPatch :
    ∃ layout' h' R', mergeSubcontainerBasePass (parentPatch containerPatch) smallHeap
        = some (layout', h')
      ∧ layout'.Means h' ⊥ R' [.node ((smallHeap.nodeAt 4).label 4) [[smallLeaf 1]]]
      ∧ Disjoint R' ⊥ ∧ ChangesOnly smallHeap h' (({4}, {4}) ⊔ (({3}, {3}) ⊔ ({1}, ∅)))
      ∧ Patch.treeZones [layout'] = Patch.treeZones [parentPatch containerPatch]
      ∧ ∀ q ∈ layout'.windIn, q.Settled h' fun kind => kind = .subContainer := by
  refine mergeSubcontainerBasePass_means smallHeap ⊥ _ (parentPatch containerPatch) _
    (owned_bot _) (sup_le smallHeap_readsFreeParent.owned.le_used
      (sup_le smallHeap_readsFreeContainer.owned.le_used smallHeap_readsFreeLeaf.owned.le_used))
    disjoint_bot_right (parentPatch_means containerPatch_means (by simp [Prod.disjoint_iff])) ?_
  intro q hq
  have hq : q ∈ [parentPatch containerPatch, containerPatch, leafPatch] := hq
  rw [List.mem_cons, List.mem_pair] at hq
  rcases hq with rfl | rfl | rfl
  · intro r hr kind _
    obtain rfl : r = (⟨.container, 4, 0, 4⟩, containerPatch) := List.mem_singleton.mp hr
    exact ⟨fun _ => rfl, fun hfalse => absurd hfalse Bool.false_ne_true⟩
  · intro r hr kind _
    obtain rfl : r = (⟨.container, 3, 0, 3⟩, leafPatch) := List.mem_singleton.mp hr
    exact ⟨fun _ => rfl, fun hfalse => absurd hfalse Bool.false_ne_true⟩
  · exact fun r hr => absurd hr List.not_mem_nil

/-- **`TransformToSingleFreeZone`** makes one free zone, without terminii, that reads as what
the layout stands for; outside the layout's own region, what was in memory is as it was. -/
theorem transformToSingleFreeZone_means (h : TreeHeap) (D R : Region) (layout : Patch P)
    (ts : List Content) (hD : h.Owned D) (hR : R ≤ used h) (hRD : Disjoint R D)
    (hmeans : layout.Means h D R ts) (hcopy : ∀ q ∈ layout.windIn, q.Copyable h fun _ => true)
    (hjoins : ∀ q ∈ layout.windIn, q.Joins h false ∧ q.AcceptsContainers h) :
    ∃ zone h' R', transformToSingleFreeZone layout h = some (zone, h') ∧ zone.terminii = []
      ∧ h'.ReadsFree R' zone ts ∧ Disjoint R' D ∧ ChangesOnly h h' R := by
  -- every tree zone is duplicated
  obtain ⟨layout₁, h₁, R₁, hrun₁, hcopied⟩ := duplicateAllPass_copied hD hR hRD hmeans hcopy
  have hfree₁ : ∀ q ∈ layout₁.windIn, q.treeZone? = none := by
    intro q hq
    have hat := (Patch.everywhere_iff_windIn layout₁).mp hcopied.none_left q hq
    cases q with
    | tree ptr zone intent originators children => cases hat
    | free ptr zone originators children => rfl
  have hchanges := hcopied.kept.changes
  have hR₁D : Disjoint R₁ D := hcopied.kept.disjoint hD.le_used hRD
  -- every free zone is merged into the one above it
  obtain ⟨layout₂, h₂, R₂, hrun₂, hmerged⟩ := Patch.mergedWalk_means picks_all
    layout₁ R₁ ts h₁ (hchanges.owned hRD hD) hcopied.kept.in_memory hR₁D hcopied.means
    (hcopied.joins hjoins)
  obtain ⟨a, hrun₂, _⟩ := hrun₂ .empty
  rw [← Patch.freeZoneMergeImpl_eq] at hrun₂
  have hfree₂ : ∀ q ∈ layout₂.windIn, q.treeZone? = none := by
    rw [← Patch.treeZones_eq_nil, hmerged.trees, Patch.treeZones_eq_nil]
    exact hfree₁
  -- so none has children
  have hleaf : ∀ q ∈ layout₂.windIn, q.children = [] := by
    intro q hq
    obtain ⟨S, vs, hsub⟩ := hmerged.means.sub _ _ _ q hq
    exact ((hmerged.settled q hq).separated hsub).leaf hfree₂ hq
  -- only free patches came out of the copies, and none is left below another
  have hkept := hcopied.kept.trans hmerged.kept
  have hself := Patch.mem_windIn_self layout₂
  cases layout₂ with
  | tree ptr zone intent originators children => cases hfree₂ _ hself
  | free ptr zone originators children =>
      obtain rfl : children = [] := hleaf _ hself
      obtain ⟨hterminii, R', hR', hread⟩ := hmerged.means.of_leaf
      refine ⟨zone, h₂, R', ?_, hterminii, hread,
        (hkept.disjoint hD.le_used hRD).mono_left hR', hkept.changes⟩
      unfold transformToSingleFreeZone
      refine (run_bind hrun₁).trans ?_
      refine (run_bind (Patch.run_duplicateAllCheck _ fun q hq =>
        hfree₁ q ((windOut_perm layout₁).mem_iff.mp hq))).trans ?_
      refine (run_bind hrun₂).trans ?_
      refine (run_bind (Patch.run_freeZoneMergeCheck _ fun q hq =>
        hleaf q ((windOut_perm _).mem_iff.mp hq))).trans ?_
      refine (run_bind (run_assert rfl h₂)).trans ?_
      exact (run_bind (run_assert (by rw [hterminii]; rfl) h₂)).trans rfl

/-- The zone below the second child. -/
theorem smallHeap_holdsSecondLeaf : smallHeap.HoldsZone 1 ⟨2, [], 0⟩ 2 where
  base := rfl
  base_lt := by decide
  tree := ⟨by decide, by decide, fun y hy => absurd hy List.not_mem_nil⟩
  distinct := List.nodup_singleton 2
  terminii := Or.inr ⟨List.nil_sublist _, fun t ht => absurd ht List.not_mem_nil⟩

theorem transformToSingleFreeZone_means_smallLayout :
    ∃ zone h' R', transformToSingleFreeZone smallLayout smallHeap = some (zone, h')
      ∧ zone.terminii = [] ∧ h'.ReadsFree R' zone [smallTree] ∧ Disjoint R' smallRegion
      ∧ ChangesOnly smallHeap h' ⊥ := by
  refine transformToSingleFreeZone_means smallHeap smallRegion ⊥ smallLayout [smallTree]
    smallRegion_owned bot_le disjoint_bot_left smallLayout_means ?_ ?_
  · intro q hq
    have hq : q ∈ [smallLayout, secondLeaf] := hq
    rcases List.mem_pair.mp hq with rfl | rfl
    · exact fun _ => ⟨rfl, 2, 0, smallHeap_holdsZone (Or.inr rfl)⟩
    · exact fun _ => ⟨rfl, 1, 2, smallHeap_holdsSecondLeaf⟩
  · intro q hq
    have hq : q ∈ [smallLayout, secondLeaf] := hq
    rcases List.mem_pair.mp hq with rfl | rfl
    · refine ⟨trivial, fun r hr hkind => ?_⟩
      obtain rfl : r = (2, secondLeaf) := List.mem_singleton.mp hr
      cases hkind
    · exact ⟨trivial, fun r hr => absurd hr List.not_mem_nil⟩

/-! ## §4. Assignments of tree patches. -/

/-- What an assignment of a tree patch needs: a node that is no scaffold at the base. -/
def Assignable (h : TreeHeap) (q : Patch P) : Prop :=
  ∀ zone intent, q.treeZone? = some (zone, intent) → zone.isEmpty = false →
    ∃ n, h.childOf zone.base = some n ∧ (h.nodeAt n).kind ≠ .scaffold

/-- The base of the first tree zone that is not empty. -/
def firstBase (ps : List (Patch P)) : Option Nat :=
  ((ps.filterMap Patch.treeZone?).find? (fun z => !z.1.isEmpty)).map (·.1.base)

/-- **Where an originator is placed**: at the first tree zone that is not empty, from the
first patch on that has it; one that is carried along, at the first of all. -/
def Placed (ps : List (Patch P)) (originators : Originators P) (p : P) (x : Nat) : Prop :=
  (p ∈ originators ∧ firstBase ps = some x)
    ∨ p ∉ originators ∧ ∃ before q after, ps = before ++ q :: after
      ∧ (∀ r ∈ before, r.treeZone?.isSome → p ∉ r.originators)
      ∧ q.treeZone?.isSome ∧ p ∈ q.originators ∧ firstBase (q :: after) = some x

/-- **All originators are assigned**: those carried along, and those of the tree patches; a new
assignment is the place of its originator. -/
structure AllAssigned (ps : List (Patch P)) (originators : Originators P)
    (a a' : ReplaceAssignments P) : Prop where
  kept : ∀ p x, a.lookup p = some x → a'.lookup p = some x
  carried : ∀ p ∈ originators, p ∈ a'.keys
  assigned : ∀ q ∈ ps, q.treeZone?.isSome → ∀ p ∈ q.originators, p ∈ a'.keys
  placed : ∀ p x, a'.lookup p = some x → a.lookup p = some x ∨ Placed ps originators p x

variable {h : TreeHeap} {rest : List (Patch P)} {originators : Originators P}
  {a a₁ a' : ReplaceAssignments P} {zone : TreeZone} {intent : Intent} {ptr : Nat}
  {patchOriginators : Originators P} {children : List (Patch P)}

omit [LinearOrder P] in
theorem firstBase_free (zone : FreeZone) :
    firstBase (.free ptr zone patchOriginators children :: rest) = firstBase rest := rfl

omit [LinearOrder P] in
theorem firstBase_empty (hempty : zone.isEmpty = true) :
    firstBase (.tree ptr zone intent patchOriginators children :: rest) = firstBase rest := by
  show (((zone, intent) :: rest.filterMap Patch.treeZone?).find? _).map _ = _
  rw [List.find?_cons_of_neg (by simp [hempty])]
  rfl

omit [LinearOrder P] in
theorem firstBase_here (hne : zone.isEmpty = false) :
    firstBase (.tree ptr zone intent patchOriginators children :: rest) = some zone.base := by
  show (((zone, intent) :: rest.filterMap Patch.treeZone?).find? _).map _ = _
  rw [List.find?_cons_of_pos (by simp [hne])]
  rfl

omit [LinearOrder P] in
/-- The patches before a place may be more by one that does not have the originator. -/
theorem Placed.later {q : Patch P} {taken : Originators P} {p : P} {x : Nat}
    (h : p ∉ taken ∧ ∃ before r after, rest = before ++ r :: after
      ∧ (∀ r ∈ before, r.treeZone?.isSome → p ∉ r.originators)
      ∧ r.treeZone?.isSome ∧ p ∈ r.originators ∧ firstBase (r :: after) = some x)
    (hp : p ∉ originators) (hq : q.treeZone?.isSome → p ∉ q.originators) :
    Placed (q :: rest) originators p x := by
  obtain ⟨_, before, r, after, rfl, hbefore, hr⟩ := h
  exact Or.inr ⟨hp, q :: before, r, after, rfl, List.forall_mem_cons.mpr ⟨hq, hbefore⟩, hr⟩

/-- An empty tree zone hands its originators on. -/
theorem AllAssigned.empty (hempty : zone.isEmpty = true)
    (hall : AllAssigned rest (originators ∪ patchOriginators) a a') :
    AllAssigned (.tree ptr zone intent patchOriginators children :: rest) originators a a' where
  kept := hall.kept
  carried p hp := hall.carried p (Finset.mem_union_left _ hp)
  assigned q hq hsome p hp := by
    rcases List.mem_cons.mp hq with rfl | hq
    · exact hall.carried p (Finset.mem_union_right _ hp)
    · exact hall.assigned q hq hsome p hp
  placed p x hx := by
    have hfirst : firstBase (.tree ptr zone intent patchOriginators children :: rest)
        = firstBase rest := firstBase_empty hempty
    refine (hall.placed p x hx).imp id fun hplace => ?_
    rcases hplace with ⟨hp, hbase⟩ | hplace
    · -- it was carried here already, or is this patch's own
      by_cases hcarried : p ∈ originators
      · exact Or.inl ⟨hcarried, hfirst.trans hbase⟩
      · have hown := (Finset.mem_union.mp hp).resolve_left hcarried
        exact Or.inr ⟨hcarried, [], _, rest, rfl, fun r hr => absurd hr List.not_mem_nil, rfl,
          hown, hfirst.trans hbase⟩
    · have hout := Finset.notMem_union.mp hplace.1
      exact Placed.later hplace hout.1 (fun _ => hout.2)

/-- One that is not empty takes them all. -/
theorem AllAssigned.take (hne : zone.isEmpty = false)
    (hall : AllAssigned rest ∅ (assignAll (originators ∪ patchOriginators) zone.base a) a') :
    AllAssigned (.tree ptr zone intent patchOriginators children :: rest) originators a a' := by
  -- the loop over the originators inserts those that are not there
  obtain ⟨hmem, hlater, hfrom⟩ :=
    foldl_insertNew (inOrder (originators ∪ patchOriginators)) (a := a) (x := zone.base)
  have hfirst : firstBase (.tree ptr zone intent patchOriginators children :: rest)
      = some zone.base := firstBase_here hne
  have hhere : ∀ p ∈ originators ∪ patchOriginators, ∃ x,
      (assignAll (originators ∪ patchOriginators) zone.base a).lookup p = some x := by
    intro p hp
    exact StdMap.exists_of_mem_keys (hmem p (mem_inOrder.mpr hp))
  have hkeys : ∀ p ∈ originators ∪ patchOriginators, p ∈ a'.keys := by
    intro p hp
    obtain ⟨x, hx⟩ := hhere p hp
    exact StdMap.mem_keys_of_lookup (hall.kept p x hx)
  refine ⟨fun p x hx => hall.kept p x (hlater p x hx),
    fun p hp => hkeys p (Finset.mem_union_left _ hp), ?_, ?_⟩
  · intro q hq hsome p hp
    rcases List.mem_cons.mp hq with rfl | hq
    · exact hkeys p (Finset.mem_union_right _ hp)
    · exact hall.assigned q hq hsome p hp
  · intro p x hx
    by_cases hp : p ∈ originators ∪ patchOriginators
    · -- its first insertion was here, or it was there before
      obtain ⟨y, hy⟩ := hhere p hp
      obtain rfl := Option.some.inj (hx.symm.trans (hall.kept p y hy))
      rcases hfrom p x hy with hold | ⟨_, rfl⟩
      · exact Or.inl hold
      · by_cases hcarried : p ∈ originators
        · exact Or.inr (Or.inl ⟨hcarried, hfirst⟩)
        · have hown := (Finset.mem_union.mp hp).resolve_left hcarried
          exact Or.inr (Or.inr ⟨hcarried, [], _, rest, rfl,
            fun r hr => absurd hr List.not_mem_nil, rfl, hown, hfirst⟩)
    · rcases hall.placed p x hx with hold | ⟨hin, _⟩ | hplace
      · refine Or.inl ((hfrom p x hold).resolve_right fun hnew => ?_)
        exact hp (mem_inOrder.mp hnew.1)
      · exact absurd hin (Finset.notMem_empty p)
      · have hout := Finset.notMem_union.mp hp
        exact Or.inr (Placed.later hplace hout.1 (fun _ => hout.2))

/-- **The loop over the patches** places everything, when the last tree zone is not empty. -/
theorem getTreePatchAssignmentsLoop_assigns : ∀ (ps : List (Patch P))
    (originators : Originators P) (a : ReplaceAssignments P), (∀ q ∈ ps, Assignable h q) →
    (∀ z ∈ (ps.filterMap Patch.treeZone?).getLast?, z.1.isEmpty = false) →
    (originators ≠ ∅ → ps.filterMap Patch.treeZone? ≠ []) →
    ∃ a', getTreePatchAssignmentsLoop ps originators a h = some (((), a'), h)
      ∧ AllAssigned ps originators a a'
  -- at the end nothing is carried, or there would be a zone to take it
  | [], originators, a, _, _, hplace => by
      have hnone : originators = ∅ := by
        by_contra hne
        exact hplace hne rfl
      refine ⟨a, runs_lift (run_assert hnone h), fun _ _ hx => hx, ?_,
        fun q hq => absurd hq List.not_mem_nil, fun _ _ hx => Or.inl hx⟩
      rw [hnone]
      exact fun p hp => absurd hp (Finset.notMem_empty p)
  -- a free patch is passed over
  | .free ptr zone patchOriginators children :: rest, originators, a, hok, hlast, hplace => by
      rw [List.forall_mem_cons] at hok
      obtain ⟨a', hrun, hall⟩ :=
        getTreePatchAssignmentsLoop_assigns rest originators a hok.2 hlast hplace
      refine ⟨a', hrun, hall.kept, hall.carried, ?_, ?_⟩
      · intro q hq hsome
        rcases List.mem_cons.mp hq with rfl | hq
        · cases hsome
        · exact hall.assigned q hq hsome
      · intro p x hx
        refine (hall.placed p x hx).imp id fun hplace => ?_
        rcases hplace with hcarried | hplace
        · exact Or.inl hcarried
        · exact Placed.later hplace hplace.1 (fun hsome => nomatch hsome)
  | .tree ptr zone intent patchOriginators children :: rest, originators, a, hok, hlast, _ => by
      rw [List.forall_mem_cons] at hok
      have hlast' : ∀ z ∈ (rest.filterMap Patch.treeZone?).getLast?, z.1.isEmpty = false := by
        intro z hz
        apply hlast
        show z ∈ ((zone, intent) :: rest.filterMap Patch.treeZone?).getLast?
        rw [List.getLast?_cons, Option.mem_def.mp hz]
        rfl
      cases hempty : zone.isEmpty with
      | true =>
          -- the originators go on to the next zone, so there is one
          obtain ⟨a', hrun, hall⟩ := getTreePatchAssignmentsLoop_assigns rest
            (originators ∪ patchOriginators) a hok.2 hlast' (by
              intro _ hnil
              have hself := hlast (zone, intent) (by
                show (zone, intent) ∈ ((zone, intent) :: rest.filterMap Patch.treeZone?).getLast?
                rw [hnil]
                rfl)
              rw [hempty] at hself
              cases hself)
          refine ⟨a', ?_, hall.empty hempty⟩
          rw [getTreePatchAssignmentsLoop, if_pos hempty]
          exact hrun
      | false =>
          obtain ⟨n, hchild, hkind⟩ := hok.1 zone intent rfl hempty
          obtain ⟨a', hrun, hall⟩ := getTreePatchAssignmentsLoop_assigns rest ∅
            (assignAll (originators ∪ patchOriginators) zone.base a) hok.2 hlast'
            (fun hne => absurd rfl hne)
          refine ⟨a', ?_, hall.take hempty⟩
          -- no scaffold is at the base, so the assertion holds
          have hget : getChild zone.base h = some (some n, h) := by
            show some (h.childOf zone.base, h) = _
            rw [hchild]
          have hscaffold : assertNoScaffold zone.base h = some ((), h) :=
            (run_bind hget).trans (run_assert hkind h)
          have hmodify : (modify (assignAll (originators ∪ patchOriginators) zone.base) :
              Assigning P PUnit) a h = some ((PUnit.unit, _), h) := rfl
          rw [getTreePatchAssignmentsLoop, if_neg (by rw [hempty]; exact Bool.false_ne_true)]
          by_cases hne : originators ∪ patchOriginators ≠ ∅
          · rw [if_pos hne]
            refine (runs_bind (runs_lift hscaffold)).trans ?_
            exact (runs_bind hmodify).trans hrun
          · rw [if_neg hne]
            exact (runs_bind hmodify).trans hrun

/-- **`GetTreePatchAssignmentsPass`** returns, when the last tree zone of the layout in wind-in
order is not empty, with an assignment for every originator of a tree patch: the base of its
own zone, or where that is empty of the first later one that is not. -/
theorem getTreePatchAssignments_assigns (h : TreeHeap) (layout : Patch P)
    (a : ReplaceAssignments P) (hok : ∀ q ∈ layout.windIn, Assignable h q)
    (hlast : ∀ z ∈ (layout.windIn.filterMap Patch.treeZone?).getLast?, z.1.isEmpty = false) :
    ∃ a', getTreePatchAssignments layout a h = some (((), a'), h)
      ∧ AllAssigned layout.windIn ∅ a a' :=
  getTreePatchAssignmentsLoop_assigns layout.windIn ∅ a hok hlast fun hne => absurd rfl hne

theorem getTreePatchAssignments_assigns_secondLeaf :
    ∃ a', getTreePatchAssignments (.tree 1 ⟨2, [2], 0⟩ .default {7} [secondLeaf]) .empty smallHeap
        = some (((), a'), smallHeap)
      ∧ AllAssigned (Patch.tree 1 ⟨2, [2], 0⟩ .default {7} [secondLeaf]).windIn ∅ .empty a' := by
  refine getTreePatchAssignments_assigns smallHeap _ .empty ?_ ?_
  · intro q hq
    have hq : q ∈ [.tree 1 ⟨2, [2], 0⟩ .default {7} [secondLeaf], secondLeaf] := hq
    rcases List.mem_pair.mp hq with rfl | rfl
    · intro zone intent hzone hempty
      obtain ⟨rfl, rfl⟩ := Prod.mk.inj (Option.some.inj hzone)
      cases hempty
    · intro zone intent hzone _
      obtain ⟨rfl, rfl⟩ := Prod.mk.inj (Option.some.inj hzone)
      exact ⟨2, rfl, by decide⟩
  · intro z hz
    obtain rfl : (⟨2, [], 0⟩, .default) = z := Option.some.inj hz
    rfl

end Inferno.UP
