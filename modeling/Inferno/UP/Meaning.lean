/-
  Inferno.UP.Meaning
  ──────────────────
  What a layout of patches stands for.

    • `Means`       — the trees that a layout stands for: those of each zone, with what the
                      child patches stand for at its terminii,
    • `Means.frame` — a step elsewhere in memory changes none of it,
    • `emptyZonePass_means` — an empty tree zone stands for what its child does.

  Tree zones are read in a region of memory that belongs to the trees of the database, free
  zones each in a region of its own.
-/
import Inferno.DB.DuplicateReadings
import Inferno.DB.MergeReadings
import Inferno.UP.Passes

namespace Inferno.UP

open Inferno.Common Inferno.DB Inferno.Lib Inferno.Lib.Term Update TreeHeap

namespace Patch

variable {P : Type}

/-! ## §1. What a patch stands for. -/

mutual

/-- **What a patch stands for**, with the trees of the database in `D` and its free zones in
`R`. -/
def Means (h : TreeHeap) (D : Region) : Patch P → Region → List Content → Prop
  | .tree _ zone _ _ children, R, ts => ∃ t tss, zone.base ∈ D.2
      ∧ h.ReadsLink zone.terminii D t zone.base ∧ (holes t).Perm zone.terminii
      ∧ zone.terminii.Nodup ∧ zone.terminii.length = tss.length
      ∧ MeansAll h D children R tss ∧ ts = Term.fill (plug zone.terminii tss) t
  | .free _ zone _ children, R, ts => ∃ R₀ R₁ us tss, R₀ ≤ R ∧ R₁ ≤ R ∧ Disjoint R₀ R₁
      ∧ h.ReadsFree R₀ zone us ∧ zone.terminii.length = tss.length
      ∧ MeansAll h D children R₁ tss ∧ ts = fillAll (plug (zone.terminii.map Mutator.slot) tss) us

/-- What each of the children stands for. -/
def MeansAll (h : TreeHeap) (D : Region) : List (Patch P) → Region → List (List Content) → Prop
  | [], _, tss => tss = []
  | child :: rest, R, tss => ∃ R₀ R₁ ts tss', R₀ ≤ R ∧ R₁ ≤ R ∧ Disjoint R₀ R₁
      ∧ Means h D child R₀ ts ∧ MeansAll h D rest R₁ tss' ∧ tss = ts :: tss'

end

variable {h h' : TreeHeap} {D Q R R' S : Region} {ts : List Content} {tss : List (List Content)}

theorem MeansAll.length_eq {cs : List (Patch P)} (hmeans : MeansAll h D cs R tss) :
    tss.length = cs.length := by
  induction cs generalizing R tss with
  | nil =>
      rw [show tss = [] from hmeans]
      rfl
  | cons c cs ih =>
      obtain ⟨_, _, ts, tss', _, _, _, _, hrest, rfl⟩ := hmeans
      rw [List.length_cons, List.length_cons, ih hrest]

theorem MeansAll.mono {cs : List (Patch P)} (hmeans : MeansAll h D cs R tss) (hle : R ≤ S) :
    MeansAll h D cs S tss := by
  cases cs with
  | nil => exact hmeans
  | cons c cs =>
      obtain ⟨R₀, R₁, ts, tss', h₀, h₁, hapart, hchild, hrest, htss⟩ := hmeans
      exact ⟨R₀, R₁, ts, tss', h₀.trans hle, h₁.trans hle, hapart, hchild, hrest, htss⟩

theorem Means.mono {p : Patch P} (hmeans : Means h D p R ts) (hle : R ≤ S) :
    Means h D p S ts := by
  cases p with
  | tree ptr zone intent originators children =>
      obtain ⟨t, tss, hbase, hread, hholes, hnodup, hlen, hall, hts⟩ := hmeans
      exact ⟨t, tss, hbase, hread, hholes, hnodup, hlen, hall.mono hle, hts⟩
  | free ptr zone originators children =>
      obtain ⟨R₀, R₁, us, tss, h₀, h₁, hrest⟩ := hmeans
      exact ⟨R₀, R₁, us, tss, h₀.trans hle, h₁.trans hle, hrest⟩

theorem MeansAll.append {cs ds : List (Patch P)} {uss : List (List Content)}
    (hcs : MeansAll h D cs R tss) (hds : MeansAll h D ds S uss) (hapart : Disjoint R S) :
    MeansAll h D (cs ++ ds) (R ⊔ S) (tss ++ uss) := by
  induction cs generalizing R tss with
  | nil =>
      rw [show tss = [] from hcs]
      exact hds.mono le_sup_right
  | cons c cs ih =>
      obtain ⟨R₀, R₁, ts, tss', h₀, h₁, hapart', hchild, hrest, rfl⟩ := hcs
      refine ⟨R₀, R₁ ⊔ S, ts, tss' ++ uss, h₀.trans le_sup_left, sup_le_sup_right h₁ S, ?_,
        hchild, ih hrest (hapart.mono_left h₁), rfl⟩
      exact disjoint_sup_right.mpr ⟨hapart', hapart.mono_left h₀⟩

/-! ## §2. Frames. -/

mutual

/-- **A step that changes neither the trees of the database nor its free zones** leaves what a
patch stands for. -/
theorem Means.frame (hsteps : ChangesOnly h h' Q) (hD : h.Owned D) (hQD : Disjoint Q D) :
    ∀ (p : Patch P) (R : Region) (ts : List Content), Disjoint Q R → Means h D p R ts →
      Means h' D p R ts
  | .tree _ zone _ _ children, R, ts, hQR, hmeans => by
      obtain ⟨t, tss, hbase, hread, hholes, hnodup, hlen, hall, hts⟩ := hmeans
      refine ⟨t, tss, hbase, ?_, hholes, hnodup, hlen,
        MeansAll.frame hsteps hD hQD children R tss hQR hall, hts⟩
      exact ReadsLink.congr (hsteps.unchanged hQD hD) (le_refl D) t _
        (hsteps.child hQD hD hbase) hread
  | .free _ zone _ children, R, ts, hQR, hmeans => by
      obtain ⟨R₀, R₁, us, tss, h₀, h₁, hapart, hread, hlen, hall, hts⟩ := hmeans
      exact ⟨R₀, R₁, us, tss, h₀, h₁, hapart, hread.frame hsteps (hQR.mono_right h₀), hlen,
        MeansAll.frame hsteps hD hQD children R₁ tss (hQR.mono_right h₁) hall, hts⟩

theorem MeansAll.frame (hsteps : ChangesOnly h h' Q) (hD : h.Owned D) (hQD : Disjoint Q D) :
    ∀ (cs : List (Patch P)) (R : Region) (tss : List (List Content)), Disjoint Q R →
      MeansAll h D cs R tss → MeansAll h' D cs R tss
  | [], _, _, _, hmeans => hmeans
  | c :: cs, R, tss, hQR, hmeans => by
      obtain ⟨R₀, R₁, ts, tss', h₀, h₁, hapart, hchild, hrest, htss⟩ := hmeans
      exact ⟨R₀, R₁, ts, tss', h₀, h₁, hapart,
        Means.frame hsteps hD hQD c R₀ ts (hQR.mono_right h₀) hchild,
        MeansAll.frame hsteps hD hQD cs R₁ tss' (hQR.mono_right h₁) hrest, htss⟩

end

/-! ## §3. Patches of a layout. -/

mutual

/-- Every patch of a layout stands for something. -/
theorem Means.sub : ∀ (p : Patch P) (R : Region) (ts : List Content), Means h D p R ts →
    ∀ q ∈ p.windIn, ∃ S us, Means h D q S us
  | .tree ptr zone intent originators children, R, ts, hmeans, q, hq => by
      unfold windIn at hq
      rcases List.mem_cons.mp hq with rfl | hq
      · exact ⟨R, ts, hmeans⟩
      · obtain ⟨t, tss, _, _, _, _, _, hall, _⟩ := hmeans
        exact MeansAll.sub children R tss hall q hq
  | .free ptr zone originators children, R, ts, hmeans, q, hq => by
      unfold windIn at hq
      rcases List.mem_cons.mp hq with rfl | hq
      · exact ⟨R, ts, hmeans⟩
      · obtain ⟨R₀, R₁, us, tss, _, _, _, _, _, hall, _⟩ := hmeans
        exact MeansAll.sub children R₁ tss hall q hq

theorem MeansAll.sub : ∀ (cs : List (Patch P)) (R : Region) (tss : List (List Content)),
    MeansAll h D cs R tss → ∀ q ∈ windInAll cs, ∃ S us, Means h D q S us
  | [], _, _, _, q, hq => by
      unfold windInAll at hq
      exact absurd hq List.not_mem_nil
  | c :: cs, R, tss, hmeans, q, hq => by
      obtain ⟨R₀, R₁, ts, tss', _, _, _, hchild, hrest, _⟩ := hmeans
      unfold windInAll at hq
      rcases List.mem_append.mp hq with hq | hq
      · exact Means.sub c R₀ ts hchild q hq
      · exact MeansAll.sub cs R₁ tss' hrest q hq

end

/-- The patches of a child are its parent's too. -/
theorem windIn_of_child {p c : Patch P} (hc : c ∈ p.children) {q : Patch P} (hq : q ∈ c.windIn) :
    q ∈ p.windIn := by
  rw [windIn_eq]
  exact List.mem_cons_of_mem _ (mem_windInAll.mpr ⟨c, hc, hq⟩)

/-- The kind of node at the base of a free patch. -/
def baseKind (h : TreeHeap) : Patch P → Option NodeKind
  | .tree .. => none
  | .free _ zone _ _ => zone.base.map fun b => (h.nodeAt b).kind

/-- It stays. -/
theorem Means.baseKind_eq {p : Patch P} (hmeans : Means h D p R ts)
    (hsteps : ChangesOnly h h' Q) : p.baseKind h' = p.baseKind h := by
  cases p with
  | tree ptr zone intent originators children => rfl
  | free ptr zone originators children =>
      obtain ⟨R₀, R₁, us, tss, _, _, _, hread, _⟩ := hmeans
      obtain ⟨b, hb, hbase⟩ := hread.base
      show zone.base.map _ = zone.base.map _
      rw [hb]
      exact congrArg some (hsteps.kind b hbase.has.1)

/-! ## §4. What a pass keeps. -/

/-- **The memory after a pass**: it has changed the region of the layout, whose new region is
the same or new. -/
structure Kept (h h' : TreeHeap) (R R' : Region) : Prop where
  changes : ChangesOnly h h' R
  region_le : R' ≤ R ⊔ unused h
  in_memory : R' ≤ used h'

theorem Kept.refl (hR : R ≤ used h) : Kept h h R R where
  changes := ChangesOnly.refl h R
  region_le := le_sup_left
  in_memory := hR

/-- What is apart from the region, and in memory, is apart from the new one. -/
theorem Kept.disjoint (hkept : Kept h h' R R') (hS : S ≤ used h) (hapart : Disjoint R S) :
    Disjoint R' S :=
  Disjoint.mono_left hkept.region_le
    (disjoint_sup_left.mpr ⟨hapart, (disjoint_unused hS).symm⟩)

theorem Kept.mono (hkept : Kept h h' R R') (hle : R ≤ S) : Kept h h' S R' where
  changes := hkept.changes.mono hle
  region_le := hkept.region_le.trans (sup_le_sup_right hle _)
  in_memory := hkept.in_memory

theorem Kept.trans {h'' : TreeHeap} {R'' : Region} (h1 : Kept h h' R R') (h2 : Kept h' h'' R' R'') :
    Kept h h'' R R'' where
  changes := h1.changes.trans h2.changes h1.region_le
  region_le := h2.region_le.trans (sup_le h1.region_le
    ((unused_mono h1.changes).trans le_sup_right))
  in_memory := h2.in_memory

/-- **Two parts of a layout, one after the other.** -/
theorem Kept.both {h'' : TreeHeap} {S' : Region} (hS : S ≤ used h)
    (hapart : Disjoint R S) (h1 : Kept h h' R R') (h2 : Kept h' h'' S S') :
    Kept h h'' (R ⊔ S) (R' ⊔ S') ∧ Disjoint R' S' := by
  have hnew : S' ≤ (R ⊔ S) ⊔ unused h :=
    h2.region_le.trans (sup_le (le_sup_right.trans le_sup_left)
      ((unused_mono h1.changes).trans le_sup_right))
  refine ⟨⟨?_, ?_, ?_⟩, ?_⟩
  · exact (h1.changes.mono le_sup_left).trans h2.changes (le_sup_right.trans le_sup_left)
  · exact sup_le (h1.region_le.trans (sup_le_sup_right le_sup_left _)) hnew
  · exact sup_le (h1.in_memory.trans (used_mono h2.changes)) h2.in_memory
  · refine (h2.disjoint h1.in_memory ?_).symm
    exact (h1.disjoint hS hapart).symm

/-! ## §5. Empty zones. -/

theorem Means.withPtr {p : Patch P} (hmeans : Means h D p R ts) (ptr : Nat) :
    Means h D (p.withPtr ptr) R ts := by
  cases p with
  | tree _ zone intent originators children => exact hmeans
  | free _ zone originators children => exact hmeans

theorem Means.addOriginators [DecidableEq P] {p : Patch P} (hmeans : Means h D p R ts)
    (new : Originators P) : Means h D (p.addOriginators new) R ts := by
  cases p with
  | tree _ zone intent originators children => exact hmeans
  | free _ zone originators children => exact hmeans

/-- **An empty tree zone** stands for what its child stands for. -/
theorem Means.of_empty {ptr : Nat} {zone : TreeZone} {intent : Intent}
    {originators : Originators P} {children : List (Patch P)} (hempty : zone.isEmpty = true)
    (hmeans : Means h D (.tree ptr zone intent originators children) R ts) :
    ∃ child, children = [child] ∧ Means h D child R ts := by
  obtain ⟨t, tss, _, hread, hholes, _, hlen, hall, hts⟩ := hmeans
  have hsolo : zone.terminii = [zone.base] := by simpa [TreeZone.isEmpty] using hempty
  rw [hsolo] at hread hlen hts
  have ht : t = .hole zone.base := by
    cases t with
    | hole y => rw [hread.1]
    | node label groups => exact absurd (List.mem_singleton_self _) hread.1
  obtain ⟨us, rfl⟩ := List.length_eq_one_iff.mp hlen.symm
  have hchildren : children.length = 1 := hall.length_eq.symm
  obtain ⟨child, rfl⟩ := List.length_eq_one_iff.mp hchildren
  obtain ⟨R₀, R₁, us', tss', h₀, _, _, hchild, _, htss⟩ := hall
  rw [List.cons.injEq] at htss
  refine ⟨child, rfl, ?_⟩
  rw [hts, ht]
  show Means h D child R (plug [zone.base] [us] zone.base)
  rw [plug_head, htss.1]
  exact hchild.mono h₀

/-! ## §6. Passes that leave memory alone. -/

section

variable [LinearOrder P]

mutual

/-- The originators of all patches of a layout. -/
def allOriginators : Patch P → Originators P
  | .tree _ _ _ originators children => originators ∪ allOriginatorsIn children
  | .free _ _ originators children => originators ∪ allOriginatorsIn children

def allOriginatorsIn : List (Patch P) → Originators P
  | [] => ∅
  | child :: rest => allOriginators child ∪ allOriginatorsIn rest

end

theorem allOriginators_withPtr (p : Patch P) (ptr : Nat) :
    (p.withPtr ptr).allOriginators = p.allOriginators := by
  cases p with
  | tree _ zone intent originators children => rfl
  | free _ zone originators children => rfl

theorem allOriginators_add (p : Patch P) (new : Originators P) :
    (p.addOriginators new).allOriginators = new ∪ p.allOriginators := by
  cases p with
  | tree ptr zone intent originators children =>
      show originators ∪ new ∪ allOriginatorsIn children = new ∪ (originators ∪ _)
      rw [Finset.union_comm originators new, Finset.union_assoc]
  | free ptr zone originators children =>
      show originators ∪ new ∪ allOriginatorsIn children = new ∪ (originators ∪ _)
      rw [Finset.union_comm originators new, Finset.union_assoc]

variable {g : Patch P → Update (Patch P)} {F : ZoneProperty}

/-- One patch, whose children have the property already: it comes to have it, and stands for
what it stood for. -/
def KeepsMeaning (h : TreeHeap) (D : Region) (F : ZoneProperty) (g : Patch P → Update (Patch P)) :
    Prop :=
  ∀ (p : Patch P) (R : Region) (ts : List Content), Means h D p R ts →
    EverywhereAll F p.children → ∃ p', g p h = some (p', h) ∧ Means h D p' R ts
      ∧ Everywhere F p' ∧ p'.allOriginators = p.allOriginators

mutual

/-- **A walk** that does so at each patch does so for the layout. -/
theorem walkOut_means (hg : KeepsMeaning h D F g) : ∀ (p : Patch P) (R : Region)
    (ts : List Content), Means h D p R ts → ∃ p', walkOut g p h = some (p', h)
      ∧ Means h D p' R ts ∧ Everywhere F p' ∧ p'.allOriginators = p.allOriginators
  | .tree ptr zone intent originators children, R, ts, hmeans => by
      obtain ⟨t, tss, hbase, hread, hholes, hnodup, hlen, hall, hts⟩ := hmeans
      obtain ⟨cs', hrun, hall', hF, horig⟩ := walkOutAll_means hg children R tss hall
      obtain ⟨p', hrun', hmeans', hF', horig'⟩ := hg (.tree ptr zone intent originators cs') R ts
        ⟨t, tss, hbase, hread, hholes, hnodup, hlen, hall', hts⟩ hF
      refine ⟨p', ?_, hmeans', hF', horig'.trans ?_⟩
      · rw [walkOut]
        exact (run_bind hrun).trans hrun'
      · unfold allOriginators
        rw [horig]
  | .free ptr zone originators children, R, ts, hmeans => by
      obtain ⟨R₀, R₁, us, tss, h₀, h₁, hapart, hread, hlen, hall, hts⟩ := hmeans
      obtain ⟨cs', hrun, hall', hF, horig⟩ := walkOutAll_means hg children R₁ tss hall
      obtain ⟨p', hrun', hmeans', hF', horig'⟩ := hg (.free ptr zone originators cs') R ts
        ⟨R₀, R₁, us, tss, h₀, h₁, hapart, hread, hlen, hall', hts⟩ hF
      refine ⟨p', ?_, hmeans', hF', horig'.trans ?_⟩
      · rw [walkOut]
        exact (run_bind hrun).trans hrun'
      · unfold allOriginators
        rw [horig]

theorem walkOutAll_means (hg : KeepsMeaning h D F g) : ∀ (cs : List (Patch P)) (R : Region)
    (tss : List (List Content)), MeansAll h D cs R tss → ∃ cs', walkOutAll g cs h = some (cs', h)
      ∧ MeansAll h D cs' R tss ∧ EverywhereAll F cs'
      ∧ allOriginatorsIn cs' = allOriginatorsIn cs
  | [], R, tss, hmeans => by
      refine ⟨[], ?_, hmeans, ?_, rfl⟩
      · rw [walkOutAll]
        rfl
      · unfold EverywhereAll
        trivial
  | c :: cs, R, tss, hmeans => by
      obtain ⟨R₀, R₁, ts, tss', h₀, h₁, hapart, hchild, hrest, htss⟩ := hmeans
      obtain ⟨c', hrun, hmeans', hF, horig⟩ := walkOut_means hg c R₀ ts hchild
      obtain ⟨cs', hrun', hall', hF', horig'⟩ := walkOutAll_means hg cs R₁ tss' hrest
      refine ⟨c' :: cs', ?_, ⟨R₀, R₁, ts, tss', h₀, h₁, hapart, hmeans', hall', htss⟩, ?_, ?_⟩
      · rw [walkOutAll]
        refine (run_bind hrun).trans ?_
        exact (run_bind hrun').trans rfl
      · unfold EverywhereAll
        exact ⟨hF, hF'⟩
      · unfold allOriginatorsIn
        rw [horig, horig']

end

/-- No tree zone is empty. -/
def noEmptyTree : ZoneProperty := ⟨fun zone _ => zone.isEmpty = false, fun _ => True⟩

omit [LinearOrder P] in
theorem Everywhere.withPtr {p : Patch P} (hp : Everywhere F p) (ptr : Nat) :
    Everywhere F (p.withPtr ptr) := by
  cases p with
  | tree _ zone intent originators children => exact hp
  | free _ zone originators children => exact hp

theorem Everywhere.addOriginators {p : Patch P} (hp : Everywhere F p) (new : Originators P) :
    Everywhere F (p.addOriginators new) := by
  cases p with
  | tree ptr zone intent originators children => exact hp
  | free ptr zone originators children => exact hp

end

end Patch

/-- **`EmptyZonePass`** returns with a layout that stands for the same, has no empty tree zone,
and has lost no originator; memory is as it was. -/
theorem emptyZonePass_means {P : Type} [LinearOrder P] (h : TreeHeap) (D R : Region)
    (layout : Patch P) (ts : List Content) (hmeans : layout.Means h D R ts) :
    ∃ layout', emptyZonePass layout h = some (layout', h) ∧ layout'.Means h D R ts
      ∧ layout'.Everywhere Patch.noEmptyTree ∧ layout'.allOriginators = layout.allOriginators := by
  apply Patch.walkOut_means _ layout R ts hmeans
  intro p S us hp hchildren
  cases p with
  | free ptr zone originators children =>
      exact ⟨_, rfl, hp, Patch.everywhere_iff.mpr ⟨trivial, hchildren⟩, rfl⟩
  | tree ptr zone intent originators children =>
      cases hempty : zone.isEmpty with
      | false =>
          refine ⟨_, ?_, hp, Patch.everywhere_iff.mpr ⟨hempty, hchildren⟩, rfl⟩
          show (if zone.isEmpty = true then _ else _ : Update (Patch P)) h = _
          rw [hempty, if_neg Bool.false_ne_true]
          rfl
      | true =>
          -- an empty zone stands for what its only child does
          obtain ⟨child, rfl, hchild⟩ := Patch.Means.of_empty hempty hp
          have hF : child.Everywhere Patch.noEmptyTree :=
            Patch.everywhereAll_iff.mp hchildren child (List.mem_singleton_self child)
          refine ⟨(child.addOriginators originators).withPtr ptr, ?_,
            (hchild.addOriginators originators).withPtr ptr,
            (hF.addOriginators originators).withPtr ptr, ?_⟩
          · show (if zone.isEmpty = true then _ else _ : Update (Patch P)) h = _
            rw [hempty, if_pos rfl]
            rfl
          · rw [Patch.allOriginators_withPtr, Patch.allOriginators_add]
            show _ = originators ∪ (child.allOriginators ∪ ∅)
            rw [Finset.union_empty]

/-- The small tree as the tree of the database. -/
def smallRegion : Region := ({0, 1, 2}, {0, 1, 2})

/-- The content of a leaf of it. -/
def smallLeaf (n : Nat) : Content := .node ((smallHeap.nodeAt n).label n) []

/-- The subtree at its second child. -/
def secondLeaf : Patch Nat := .tree 3 ⟨2, [], 0⟩ .default ∅ []

theorem smallHeap_readsLeaf {ends : List Nat} {n : Nat} (hn : n = 1 ∨ n = 2) (hends : n ∉ ends) :
    smallHeap.ReadsLink ends smallRegion (smallLeaf n) n := by
  rcases hn with rfl | rfl
  · exact ⟨hends, 1, rfl, ⟨by decide, Or.inl (by simp [smallRegion])⟩, rfl, trivial⟩
  · exact ⟨hends, 2, rfl, ⟨by decide, Or.inl (by simp [smallRegion])⟩, rfl, trivial⟩

theorem secondLeaf_means : secondLeaf.Means smallHeap smallRegion ⊥ [smallLeaf 2] :=
  ⟨smallLeaf 2, [], by simp [smallRegion], smallHeap_readsLeaf (Or.inr rfl) List.not_mem_nil,
    List.Perm.refl _, List.nodup_nil, rfl, rfl, rfl⟩

theorem emptyZonePass_means_secondLeaf :
    ∃ layout', emptyZonePass (.tree 1 ⟨2, [2], 0⟩ .default {7} [secondLeaf]) smallHeap
        = some (layout', smallHeap)
      ∧ layout'.Means smallHeap smallRegion ⊥ [smallLeaf 2]
      ∧ layout'.Everywhere Patch.noEmptyTree
      ∧ layout'.allOriginators
        = (Patch.tree 1 ⟨2, [2], 0⟩ .default {7} [secondLeaf]).allOriginators :=
  emptyZonePass_means smallHeap smallRegion ⊥ _ [smallLeaf 2]
    ⟨.hole 2, [[smallLeaf 2]], by simp [smallRegion],
      ⟨rfl, Or.inl (List.mem_singleton_self 2)⟩, List.Perm.refl _, List.nodup_singleton 2, rfl,
      ⟨⊥, ⊥, [smallLeaf 2], [], le_rfl, le_rfl, disjoint_bot_left, secondLeaf_means, rfl, rfl⟩,
      rfl⟩

end Inferno.UP
