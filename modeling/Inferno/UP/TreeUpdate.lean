/-
  Inferno.UP.TreeUpdate
  ─────────────────────
  **THE PASSES OF `TreeUpdater`, ONE AFTER THE OTHER.**

    • `analysis`             — `Analysis` from `OrderingPass` on,
    • `passes_run`           — its first two passes return; at a base in use they leave one patch,
    • `analysis_reusesOnce`  — intents only go down, the default zones are in order, and a zone
                               of the tree is left to one patch at most,
    • `copiesAndMerges`      — `ApplyUpdate` up to `InversionPass`, with nothing to move,
    • `ReadyForInversion`    — the layout stands for the same; its tree patches are the default
                               ones, and free patches touch only these,
    • `copiesAndMerges_means`, `update_means` — the second phase, and both.
-/
import Inferno.UP.AltOrderingChecker
import Inferno.UP.ChooseCopies
import Inferno.UP.MergeMeaning
import Mathlib

namespace Inferno.UP

open Inferno.Common Inferno.DB Inferno.Lib Inferno.Lib.Term Patch Update TreeHeap

variable {P A : Type} {db : XTreeDatabase Nat Nat A} {root : Nat} {layout : Patch P}
  {h : TreeHeap} {D R : Region} {ts : List Content} {f g : Intents}

/-! ## §1. Gaps. -/

namespace Patch

/-- The default children of a default patch hang from its terminii. -/
def Adjoining : Patch P → Prop
  | .tree _ zone .default _ children => zone.terminii.length = children.length
      ∧ ∀ r ∈ zone.terminii.zip children, r.2.IsDefault → r.2.base? = some r.1
  | _ => True

end Patch

theorem run_gapLoop : ∀ {terminii : List Nat} {children : List (Patch P)} (next : Nat),
    terminii.length = children.length →
    (∀ r ∈ terminii.zip children, r.2.IsDefault → r.2.base? = some r.1) →
    gapLoop terminii children next h = some (children, h)
  | terminii, [], next, _, _ => by
      unfold gapLoop
      rfl
  | [], _ :: _, next, hlen, _ => by cases hlen
  | t :: terminii, child :: children, next, hlen, hadjoin => by
      rw [List.zip_cons_cons, List.forall_mem_cons] at hadjoin
      have hrest := run_gapLoop next (Nat.succ.inj hlen) hadjoin.2
      cases child with
      | free ptr zone originators cs =>
          unfold gapLoop
          exact (run_bind hrest).trans rfl
      -- only a default child is compared with the terminus
      | tree ptr zone intent originators cs =>
          cases intent with
          | default =>
              have hbase : zone.base = t := Option.some.inj (hadjoin.1 ⟨zone, rfl⟩)
              unfold gapLoop
              dsimp only
              rw [if_neg (fun hne => hne hbase)]
              exact (run_bind hrest).trans rfl
          | moveable =>
              unfold gapLoop
              exact (run_bind hrest).trans rfl
          | copyable =>
              unfold gapLoop
              exact (run_bind hrest).trans rfl

mutual

/-- A walk that leaves each patch leaves the layout. -/
theorem walkOut_self {step : Patch P → Update (Patch P)} : ∀ p : Patch P,
    (∀ q ∈ p.windIn, step q h = some (q, h)) → walkOut step p h = some (p, h)
  | .tree ptr zone intent originators children, hstep => by
      unfold windIn at hstep
      rw [List.forall_mem_cons] at hstep
      rw [walkOut]
      exact (run_bind (walkOutAll_self children hstep.2)).trans hstep.1
  | .free ptr zone originators children, hstep => by
      unfold windIn at hstep
      rw [List.forall_mem_cons] at hstep
      rw [walkOut]
      exact (run_bind (walkOutAll_self children hstep.2)).trans hstep.1

theorem walkOutAll_self {step : Patch P → Update (Patch P)} : ∀ cs : List (Patch P),
    (∀ q ∈ windInAll cs, step q h = some (q, h)) → walkOutAll step cs h = some (cs, h)
  | [], _ => by
      rw [walkOutAll]
      rfl
  | c :: cs, hstep => by
      unfold windInAll at hstep
      rw [List.forall_mem_append] at hstep
      rw [walkOutAll]
      refine (run_bind (walkOut_self c hstep.1)).trans ?_
      exact (run_bind (walkOutAll_self cs hstep.2)).trans rfl

end

/-- **`GapFindingPass`** does nothing where there is no gap. -/
theorem gapFindingPass_adjoining (hadjoin : ∀ q ∈ layout.windIn, q.Adjoining) :
    gapFindingPass layout h = some (layout, h) := by
  unfold gapFindingPass
  rw [walkTreesOut_eq]
  refine walkOut_self layout ?_
  intro q hq
  have hself := hadjoin q hq
  cases q with
  | free ptr zone originators children => rfl
  | tree ptr zone intent originators children =>
      cases intent with
      | default => exact (run_bind (run_gapLoop _ hself.1 hself.2)).trans rfl
      | moveable => rfl
      | copyable => rfl

/-! ## §2. The analysis. -/

/-- `TreeUpdater::Analysis` from `OrderingPass` on. -/
def analysis (db : XTreeDatabase Nat Nat A) (root : Nat) (layout : Patch P) :
    Update (Patch P) := do
  let layout ← ofOption (orderingPass db root layout)
  let layout ← ofOption (chooseCopiesPass layout)
  gapFindingPass layout

/-- How far an intent is from leaving the zone where it is. -/
def Intent.rank : Intent → Nat
  | .default => 0
  | .moveable => 1
  | .copyable => 2

/-- **What the analysis makes of the intents**: they only go from default to moveable and from
there to copyable; a zone in use is left to one patch. -/
structure Analysed (db : XTreeDatabase Nat Nat A) (root : Nat) (layout : Patch P)
    (g : Intents) : Prop where
  rank_le : ∀ q ∈ layout.windIn, ∀ zone intent, q.treeZone? = some (zone, intent) →
    intent.rank ≤ (g q.ptr).rank
  ordered : LayoutInOrder db root (layout.withIntents g)
  once : layout.windIn.Pairwise fun p q => ∀ a, Kept g a p → ¬ Kept g a q
  kept : ∀ q ∈ layout.windIn, ∀ zone intent, q.treeZone? = some (zone, intent) →
    intent ≠ .copyable → ∃ r ∈ layout.windIn, Kept g zone.base r

mutual

theorem withIntents_withIntents : ∀ p : Patch P,
    withIntents g (withIntents f p) = withIntents g p
  | .tree ptr zone intent originators cs => by
      rw [withIntents, withIntents, withIntents, withIntentsAll_withIntentsAll cs]
  | .free ptr zone originators cs => by
      rw [withIntents, withIntents, withIntents, withIntentsAll_withIntentsAll cs]

theorem withIntentsAll_withIntentsAll : ∀ cs : List (Patch P),
    withIntentsAll g (withIntentsAll f cs) = withIntentsAll g cs
  | [] => rfl
  | c :: cs => by
      rw [withIntentsAll, withIntentsAll, withIntentsAll, withIntents_withIntents c,
        withIntentsAll_withIntentsAll cs]

end

mutual

/-- Intents are no part of what a layout stands for. -/
theorem means_withIntents : ∀ (p : Patch P) (R : Region) (ts : List Content),
    p.Means h D R ts → (p.withIntents g).Means h D R ts
  | .tree ptr zone intent originators cs, R, ts, hmeans => by
      obtain ⟨t, tss, hbase, hread, hholes, hnodup, hlen, hall, hts⟩ := hmeans
      rw [withIntents]
      exact ⟨t, tss, hbase, hread, hholes, hnodup, hlen, meansAll_withIntents cs R tss hall, hts⟩
  | .free ptr zone originators cs, R, ts, hmeans => by
      obtain ⟨R₀, R₁, us, tss, h₀, h₁, hapart, hread, hlen, hall, hts⟩ := hmeans
      rw [withIntents]
      exact ⟨R₀, R₁, us, tss, h₀, h₁, hapart, hread, hlen, meansAll_withIntents cs R₁ tss hall,
        hts⟩

theorem meansAll_withIntents : ∀ (cs : List (Patch P)) (R : Region) (tss : List (List Content)),
    MeansAll h D cs R tss → MeansAll h D (withIntentsAll g cs) R tss
  | [], _, _, hmeans => hmeans
  | c :: cs, R, tss, hmeans => by
      obtain ⟨R₀, R₁, ts, tss', h₀, h₁, hapart, hchild, hrest, htss⟩ := hmeans
      exact ⟨R₀, R₁, ts, tss', h₀, h₁, hapart, means_withIntents c R₀ ts hchild,
        meansAll_withIntents cs R₁ tss' hrest, htss⟩

end

theorem treeZone?_withIntents {q : Patch P} {zone : TreeZone} {intent : Intent}
    (hzone : q.treeZone? = some (zone, intent)) :
    (withIntents g q).treeZone? = some (zone, g q.ptr) := by
  cases q with
  | free ptr zone' originators cs => cases hzone
  | tree ptr zone' intent' originators cs =>
      cases hzone
      rw [withIntents]
      rfl

theorem ptrs_withIntents (p : Patch P) : ptrs (withIntents g p).windIn = ptrs p.windIn := by
  rw [windIn_withIntents, ptrs, List.map_map]
  exact List.map_congr_left fun q _ => ptr_withIntents q

/-- Where the intents only go down, no gap comes up. -/
theorem Patch.Adjoining.withIntents {q : Patch P} (hadjoin : q.Adjoining)
    (hrank : ∀ r ∈ q.windIn, ∀ zone intent, r.treeZone? = some (zone, intent) →
      intent.rank ≤ (g r.ptr).rank) : (withIntents g q).Adjoining := by
  have hzero : ∀ {i : Intent}, i.rank ≤ Intent.default.rank → i = .default := by
    intro i hi
    cases i <;> first | rfl | exact absurd hi (by decide)
  cases q with
  | free ptr zone originators cs =>
      rw [Patch.withIntents]
      trivial
  | tree ptr zone intent originators cs =>
      rw [Patch.withIntents]
      cases hg : g ptr with
      | moveable => trivial
      | copyable => trivial
      | default =>
          have hself := hrank _ (mem_windIn_self _) zone intent rfl
          rw [show (Patch.tree ptr zone intent originators cs).ptr = ptr from rfl, hg] at hself
          obtain rfl := hzero hself
          obtain ⟨hlen, hchildren⟩ := hadjoin
          rw [withIntentsAll_eq]
          refine ⟨by rw [hlen, List.length_map], ?_⟩
          intro r hr hdefault
          rw [List.zip_map_right] at hr
          obtain ⟨r, hmem, rfl⟩ := List.mem_map.mp hr
          obtain ⟨hrg, a, ha⟩ := (isDefault_withIntents r.2).mp hdefault
          show (Patch.withIntents g r.2).base? = some r.1
          rw [base?_withIntents]
          -- a child that is default was default before
          obtain ⟨z, i, hzone⟩ : ∃ z i, r.2.treeZone? = some (z, i) := by
            cases hchild : r.2 with
            | tree ptr' zone' intent' originators' cs' => exact ⟨zone', intent', rfl⟩
            | free ptr' zone' originators' cs' =>
                rw [hchild] at ha
                cases ha
          have hbelow := hrank r.2 (windIn_of_child (p := .tree ptr zone .default originators cs)
            (List.of_mem_zip hmem).2 (mem_windIn_self r.2)) z i hzone
          rw [hrg] at hbelow
          obtain rfl := hzero hbelow
          exact hchildren r hmem ⟨z, hzone⟩

/-- **What the two passes make of the intents**, `f` and then `g`: the first takes default ones
to moveable, the second moveable ones to copyable. -/
structure Staged (layout : Patch P) (f g : Intents) : Prop where
  first : ∀ q ∈ layout.windIn, ∀ zone intent, q.treeZone? = some (zone, intent) →
    f q.ptr = intent ∨ intent = .default ∧ f q.ptr = .moveable
  second : ∀ q ∈ layout.windIn, ∀ zone intent, q.treeZone? = some (zone, intent) →
    g q.ptr = f q.ptr ∨ f q.ptr = .moveable ∧ g q.ptr = .copyable

namespace Staged

theorem rank_le (h : Staged layout f g) : ∀ q ∈ layout.windIn, ∀ zone intent,
    q.treeZone? = some (zone, intent) → intent.rank ≤ (g q.ptr).rank := by
  intro q hq zone intent hzone
  rcases h.second q hq zone intent hzone with hg | ⟨hf, hg⟩ <;>
    rcases h.first q hq zone intent hzone with hf' | ⟨rfl, hf'⟩
  · rw [hg, hf']
  · rw [hg, hf']
    decide
  · rw [hg, ← hf', hf]
    decide
  · rw [hg]
    decide

/-- No default patch is left by the second pass, and none comes up. -/
theorem sameDefaults (h : Staged layout f g) : SameDefaults f g layout.windIn := by
  intro q hq hsome
  obtain ⟨zone, intent, hzone⟩ : ∃ zone intent, q.treeZone? = some (zone, intent) := by
    cases q with
    | tree ptr zone intent originators cs => exact ⟨zone, intent, rfl⟩
    | free ptr zone originators cs => cases hsome
  rcases h.second q hq zone intent hzone with hg | ⟨hf, hg⟩
  · rw [hg]
  · rw [hf, hg]
    decide

/-- A zone in use is still in use after the first pass. -/
theorem used (h : Staged layout f g) {q : Patch P} (hq : q ∈ layout.windIn) {zone : TreeZone}
    {intent : Intent} (hzone : q.treeZone? = some (zone, intent)) (hne : intent ≠ .copyable) :
    f q.ptr ≠ .copyable := by
  rcases h.first q hq zone intent hzone with hf | ⟨_, hf⟩
  · rw [hf]
    exact hne
  · rw [hf]
    decide

/-- A patch that is kept was not to be copied before the second pass either. -/
theorem used_of_kept (h : Staged layout f g) {q : Patch P} (hq : q ∈ layout.windIn) {a : Nat}
    (hkept : Kept g a q) : ∃ zone intent, q.treeZone? = some (zone, intent) ∧ zone.base = a
      ∧ f q.ptr ≠ .copyable := by
  cases q with
  | free ptr zone originators cs => cases hkept.1
  | tree ptr zone intent originators cs =>
      refine ⟨zone, intent, rfl, Option.some.inj hkept.1, ?_⟩
      intro hf
      rcases h.second _ hq zone intent rfl with hg | ⟨hf', _⟩
      · exact hkept.2 (hg.trans hf)
      · rw [hf] at hf'
        cases hf'

end Staged

/-- **Both passes return**, one after the other, and at a base that is used after the first the
second leaves one patch. -/
theorem passes_run (hroot : root ∈ db.rows.keys) (hdistinct : (ptrs layout.windIn).Nodup)
    (hvalid : ValidZones db layout) :
    ∃ f g, orderingPass db root layout = some (layout.withIntents f)
      ∧ chooseCopiesPass (layout.withIntents f) = some (layout.withIntents g)
      ∧ Staged layout f g ∧ Ordered db f layout root ∧ (defaultBases f layout.windIn).Nodup
      ∧ ∀ q ∈ layout.windIn, ∀ zone intent, q.treeZone? = some (zone, intent) →
        f q.ptr ≠ .copyable → ∃ r ∈ layout.windIn, Kept g zone.base r
          ∧ ∀ r' ∈ layout.windIn, Kept g zone.base r' → r' = r := by
  obtain ⟨f, hordering, hlowers, hordered, hnodup⟩ := orderingPass_run hroot hdistinct hvalid
  have hdistinct' : (ptrs (layout.withIntents f).windIn).Nodup := by
    rw [ptrs_withIntents]
    exact hdistinct
  have hdefault : DefaultsDiffer (layout.withIntents f) := (hordered.layoutInOrder hnodup).distinct
  obtain ⟨records, inOrderBases, cs, hchoose, hcollected, hcs, hmem⟩ :=
    chooseCopiesPass_run hdistinct' hdefault
  rw [withIntents_withIntents] at hchoose
  generalize hg : copied (layout.withIntents f).intents cs = g at hchoose
  have hstored : ∀ q ∈ layout.windIn, withIntents f q ∈ (layout.withIntents f).windIn := by
    intro q hq
    rw [windIn_withIntents]
    exact List.mem_map_of_mem hq
  refine ⟨f, g, hordering, hchoose, ⟨?_, ?_⟩, hordered, hnodup, ?_⟩
  · intro q hq zone intent hzone
    have hown := intents_of_mem hdistinct hq hzone
    rcases hlowers q.ptr with hsame | ⟨hbefore, hmoved⟩
    · exact Or.inl (hsame.trans hown)
    · exact Or.inr ⟨hown.symm.trans hbefore, hmoved⟩
  · intro q hq zone intent hzone
    obtain ⟨hcopied, hmove⟩ := hcollected.intent hdistinct' hmem (hstored q hq)
      (treeZone?_withIntents hzone)
    rw [ptr_withIntents, hg] at hcopied
    rw [ptr_withIntents] at hmove
    by_cases hin : q.ptr ∈ cs
    · exact Or.inr ⟨hmove hin, by rw [hcopied, if_pos hin]⟩
    · exact Or.inl (by rw [hcopied, if_neg hin])
  · intro q hq zone intent hzone hused
    obtain ⟨r, hr, hkept, hunique, _⟩ := hcollected.keepsOne hdistinct' hdefault hcs
      (hstored q hq) (treeZone?_withIntents hzone) hused
    rw [hg] at hkept hunique
    rw [windIn_withIntents] at hr
    obtain ⟨r, hmem, rfl⟩ := List.mem_map.mp hr
    unfold Kept at hkept hunique ⊢
    rw [base?_withIntents, ptr_withIntents] at hkept
    refine ⟨r, hmem, hkept, ?_⟩
    -- the patches are told apart by their pointers, which the intents leave
    intro r' hr' hkept'
    have heq := hunique (withIntents f r') (hstored r' hr') (by
      rw [base?_withIntents, ptr_withIntents]
      exact hkept')
    refine List.inj_on_of_nodup_map hdistinct hr' hmem ?_
    rw [← ptr_withIntents (f := f) r', heq, ptr_withIntents]

/-- **The analysis returns**; each zone in use is left to one patch, and the default ones are in
order. -/
theorem analysis_reusesOnce (h : TreeHeap) (hroot : root ∈ db.rows.keys)
    (hdistinct : (ptrs layout.windIn).Nodup) (hvalid : ValidZones db layout)
    (hadjoin : ∀ q ∈ layout.windIn, q.Adjoining) :
    ∃ g, analysis db root layout h = some (layout.withIntents g, h)
      ∧ Analysed db root layout g := by
  obtain ⟨f, g, hordering, hchoose, hstaged, hordered, hnodup, hone⟩ :=
    passes_run hroot hdistinct hvalid
  have hlayout : LayoutInOrder db root (layout.withIntents g) := by
    refine (hordered.congr hstaged.sameDefaults).layoutInOrder ?_
    rw [defaultBases_congr hstaged.sameDefaults]
    exact hnodup
  refine ⟨g, ?_, hstaged.rank_le, hlayout, ?_, ?_⟩
  · unfold analysis
    rw [hordering]
    refine (run_bind rfl).trans ?_
    rw [hchoose]
    refine (run_bind rfl).trans ?_
    -- the intents have only gone down, so the last pass finds no gap
    refine gapFindingPass_adjoining ?_
    intro stored hstored
    rw [windIn_withIntents] at hstored
    obtain ⟨q, hq, rfl⟩ := List.mem_map.mp hstored
    exact (hadjoin q hq).withIntents fun r hr =>
      hstaged.rank_le r ((windIn_sublist hq).subset hr)
  · refine List.Nodup.pairwise_of_forall_ne hdistinct.of_map ?_
    intro p hp q hq hne a hkept hkept'
    obtain ⟨zone, intent, hzone, rfl, hused⟩ := hstaged.used_of_kept hp hkept
    obtain ⟨r, _, _, hunique⟩ := hone p hp zone intent hzone hused
    exact hne ((hunique p hp hkept).trans (hunique q hq hkept').symm)
  · intro q hq zone intent hzone hne
    obtain ⟨r, hr, hkept, _⟩ := hone q hq zone intent hzone (hstaged.used hq hzone hne)
    exact ⟨r, hr, hkept⟩

/-! ## §3. The copies and the merges. -/

section

variable [LinearOrder P]

/-- `TreeUpdater::ApplyUpdate` up to `InversionPass`; `MoveOutPass`, which is between the two
passes, acts on moveable patches only. -/
def copiesAndMerges (layout : Patch P) : Assigning P (Patch P) := do
  let layout ← copyingPass layout
  mergeFreesPass layout

/-- **A layout `layout'` that is ready for the inversion**, made of `layout`: it stands for the
same; its tree patches are the default ones, and free patches touch only these; each originator
is assigned or still there. -/
structure ReadyForInversion (h h' : TreeHeap) (D R : Region) (ts : List Content)
    (layout layout' : Patch P) (a a' : ReplaceAssignments P) : Prop where
  means : ∃ R', layout'.Means h' D R' ts ∧ Disjoint R' D
  changes : ChangesOnly h h' R
  trees : treeZones [layout'] = (treeZones [layout]).filter (fun z => z.2 = .default)
  separated : ∀ q ∈ layout'.windIn, q.Separated
  kept : ∀ p x, a.lookup p = some x → a'.lookup p = some x
  none_lost : ∀ q ∈ layout.windIn, ∀ p ∈ q.originators,
    p ∈ a'.keys ∨ ∃ q' ∈ layout'.windIn, p ∈ q'.originators

/-- **The copies and the merges return**, when nothing is to be moved. -/
theorem copiesAndMerges_means (a : ReplaceAssignments P) (hD : h.Owned D) (hR : R ≤ used h)
    (hRD : Disjoint R D) (hmeans : layout.Means h D R ts)
    (hcopy : ∀ q ∈ layout.windIn, q.Copyable h fun intent => intent = .copyable)
    (hstill : ∀ z ∈ treeZones [layout], z.2 ≠ .moveable)
    (hjoins : ∀ q ∈ layout.windIn, q.JoinsCopied h fun intent => intent = .copyable) :
    ∃ layout' a' h', copiesAndMerges layout a h = some ((layout', a'), h')
      ∧ ReadyForInversion h h' D R ts layout layout' a a' := by
  obtain ⟨layout₁, h₁, R₁, hrun₁, hcopied⟩ := copyingPass_copied hD hR hRD hmeans hcopy
  have hreshaped := hcopied.reshaped
  obtain ⟨layout', h', R', hrun, hmerged⟩ := mergedWalk_means picks_all layout₁ R₁ ts h₁
    (hcopied.kept.changes.owned hRD hD) hcopied.kept.in_memory
    (hcopied.kept.disjoint hD.le_used hRD) hcopied.means (hreshaped.joins hjoins)
  obtain ⟨a', hrun, hrecorded⟩ := hrun a
  have hkept := hcopied.kept.trans hmerged.kept
  have hzones : ∀ p : Patch P, treeZones [p] = p.windIn.filterMap treeZone? := by
    intro p
    unfold treeZones
    rw [windInAll_eq, List.flatMap_singleton]
  refine ⟨layout', a', h', ?_, ⟨R', hmerged.means, hkept.disjoint hD.le_used hRD⟩,
    hkept.changes, ?_, ?_, hrecorded.kept, ?_⟩
  · unfold copiesAndMerges mergeFreesPass
    refine (runs_bind (runs_lift hrun₁)).trans ?_
    rw [freeZoneMergeImpl_eq]
    exact hrun
  · rw [hmerged.trees, hzones layout₁, hreshaped.trees, ← hzones]
    refine List.filter_congr ?_
    intro z hz
    have hne := hstill z hz
    obtain ⟨zone, intent⟩ := z
    cases intent <;> first | rfl | exact absurd rfl hne
  · intro q hq
    obtain ⟨S, vs, hsub⟩ := hmerged.means.sub _ _ _ q hq
    exact (hmerged.settled q hq).separated hsub
  · -- the copies have the originators of the patches
    intro q hq p hp
    have hmem : q.originators ∈ layout₁.windIn.map Patch.originators := by
      rw [hreshaped.originators]
      exact List.mem_map_of_mem hq
    obtain ⟨q₁, hq₁, heq⟩ := List.mem_map.mp hmem
    exact hrecorded.none_lost rfl q₁ hq₁ p (heq ▸ hp)

/-- A copyable zone above a default one. -/
theorem copiesAndMerges_means_smallLayout :
    ∃ layout' a' h', copiesAndMerges smallLayout .empty smallHeap = some ((layout', a'), h')
      ∧ ReadyForInversion smallHeap h' smallRegion ⊥ [smallTree] smallLayout layout' .empty
        a' := by
  refine copiesAndMerges_means .empty smallRegion_owned bot_le disjoint_bot_left
    smallLayout_means ?_ ?_ ?_
  · intro q hq
    have hq : q ∈ [smallLayout, secondLeaf] := hq
    rcases List.mem_pair.mp hq with rfl | rfl
    · exact fun _ => ⟨rfl, 2, 0, smallHeap_holdsZone (Or.inr rfl)⟩
    · intro hpick
      cases hpick
  · intro z hz
    have hz : z ∈ [((⟨0, [2], 0⟩ : TreeZone), Intent.copyable), (⟨2, [], 0⟩, .default)] := hz
    rcases List.mem_pair.mp hz with rfl | rfl <;> decide
  · intro q hq
    have hq : q ∈ [smallLayout, secondLeaf] := hq
    rcases List.mem_pair.mp hq with rfl | rfl
    · intro _ c hc kind hkind
      obtain rfl := List.mem_singleton.mp hc
      cases hkind
    · intro hpick
      cases hpick

/-! ## §4. Both phases. -/

omit [LinearOrder P] in
/-- The bases of the zones that are left where they are differ. -/
theorem Analysed.bases_differ (hg : Analysed db root layout g) :
    ((treeZones [layout.withIntents g]).filter (fun z => z.2 = .default)).Pairwise
      fun z w => z.1.base ≠ w.1.base := by
  -- no two patches that are kept have one base, and default ones are kept
  have hpairs : (treeZones [layout.withIntents g]).Pairwise fun z w =>
      z.2 = .default → w.2 = .default → z.1.base ≠ w.1.base := by
    unfold treeZones
    rw [windInAll_eq, List.flatMap_singleton, windIn_withIntents, List.filterMap_map,
      List.pairwise_filterMap]
    refine hg.once.imp ?_
    intro p q hpq z hz w hw hzdefault hwdefault heq
    have hkept : ∀ {q : Patch P} {z : TreeZone × Intent},
        (withIntents g q).treeZone? = some z → z.2 = .default → Kept g z.1.base q := by
      intro q z hz hdefault
      cases q with
      | free ptr zone originators cs =>
          rw [withIntents] at hz
          cases hz
      | tree ptr zone intent originators cs =>
          rw [withIntents] at hz
          cases hz
          have hdefault : g ptr = .default := hdefault
          exact ⟨rfl, fun hcopy => by
            rw [show (Patch.tree ptr zone intent originators cs).ptr = ptr from rfl,
              hdefault] at hcopy
            cases hcopy⟩
    exact hpq _ (hkept hz hzdefault) (heq ▸ hkept hw hwdefault)
  refine (List.pairwise_filter).mpr (hpairs.imp ?_)
  intro z w hzw hz hw
  exact hzw (of_decide_eq_true hz) (of_decide_eq_true hw)

/-- `Analysis` from `OrderingPass` on and `ApplyUpdate` up to `InversionPass`, with nothing to
move. -/
def analysisAndMerges (db : XTreeDatabase Nat Nat A) (root : Nat) (layout : Patch P) :
    Assigning P (Patch P) := do
  let layout ← analysis db root layout
  copiesAndMerges layout

/-- **Both phases.**  The analysis returns; and when it leaves nothing to move, the copies and
the merges return with a layout that stands for the same, whose tree patches are the default
ones, each with a zone of its own. -/
theorem update_means (a : ReplaceAssignments P) (hroot : root ∈ db.rows.keys)
    (hdistinct : (ptrs layout.windIn).Nodup) (hvalid : ValidZones db layout)
    (hadjoin : ∀ q ∈ layout.windIn, q.Adjoining) (hD : h.Owned D) (hR : R ≤ used h)
    (hRD : Disjoint R D) (hmeans : layout.Means h D R ts) :
    ∃ g, analysis db root layout h = some (layout.withIntents g, h)
      ∧ Analysed db root layout g ∧ (layout.withIntents g).Means h D R ts
      ∧ ((∀ q ∈ (layout.withIntents g).windIn, q.Copyable h fun intent => intent = .copyable) →
        (∀ z ∈ treeZones [layout.withIntents g], z.2 ≠ .moveable) →
        (∀ q ∈ (layout.withIntents g).windIn,
          q.JoinsCopied h fun intent => intent = .copyable) →
        ∃ layout' a' h', analysisAndMerges db root layout a h = some ((layout', a'), h')
          ∧ ReadyForInversion h h' D R ts (layout.withIntents g) layout' a a'
          ∧ (treeZones [layout']).Pairwise fun z w => z.1.base ≠ w.1.base) := by
  obtain ⟨g, hrun, hg⟩ := analysis_reusesOnce h hroot hdistinct hvalid hadjoin
  have hmeans' := means_withIntents (g := g) layout R ts hmeans
  refine ⟨g, hrun, hg, hmeans', ?_⟩
  intro hcopy hstill hjoins
  obtain ⟨layout', a', h', hrun', hready⟩ :=
    copiesAndMerges_means a hD hR hRD hmeans' hcopy hstill hjoins
  refine ⟨layout', a', h', ?_, hready, ?_⟩
  · unfold analysisAndMerges
    exact (runs_bind (runs_lift hrun)).trans hrun'
  · rw [hready.trees]
    exact hg.bases_differ

end

end Inferno.UP
