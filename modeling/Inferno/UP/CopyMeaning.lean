/-
  Inferno.UP.CopyMeaning
  ──────────────────────
  Copies of tree zones stand for what the zones stand for.

    • `Joins`       — where a merge of free patches would be accepted,
    • `Reshaped`    — what the copies keep of the patches themselves,
    • `Copies`      — a pass that copies the tree zones with some intents,
    • `Copies.means` — the copies stand for the same, and only add to memory,
    • `copyingPass_means` — **`CopyingPass`**, after which nothing is left to copy.
-/
import Inferno.UP.Meaning

namespace Inferno.UP

open Inferno.Common Inferno.DB Inferno.Lib Inferno.Lib.Term Update TreeHeap

namespace Patch

variable {P : Type}

/-! ## §1. Where a merge is accepted. -/

/-- A child with a base of this kind goes in at a terminus of this mode; with `assign`, there
is a link to it, that its originators get if it is no scaffold. -/
def Fits (assign : Bool) (mode : Mode) (originators : Originators P) (kind : NodeKind) : Prop :=
  (kind = .subContainer → mode = .container)
    ∧ (assign = true → kind ≠ .subContainer ∧ (originators ≠ ∅ → kind ≠ .scaffold))

/-- The free children of a free patch fit its terminii. -/
def Joins (h : TreeHeap) (assign : Bool) : Patch P → Prop
  | .tree .. => True
  | .free _ zone _ children => ∀ r ∈ zone.terminii.zip children, ∀ kind ∈ r.2.baseKind h,
      Fits assign r.1.mode r.2.originators kind

/-- A container that is a child of a tree patch stands at a link of a container. -/
def AcceptsContainers (h : TreeHeap) : Patch P → Prop
  | .tree _ zone _ _ children => ∀ r ∈ zone.terminii.zip children,
      r.2.baseKind h = some .subContainer → ∀ mode, Duplicate.LinkMode h r.1 mode →
        mode = .container
  | .free .. => True

variable {h₀ h h' : TreeHeap} {D Q R R' : Region} {ts : List Content} {tss : List (List Content)}

/-- Where it is accepted it stays accepted. -/
theorem Joins.later {assign : Bool} {p : Patch P} (hjoins : Joins h assign p)
    (hmeans : Means h D p R ts) (hsteps : ChangesOnly h h' Q) : Joins h' assign p := by
  cases p with
  | tree ptr zone intent originators children => trivial
  | free ptr zone originators children =>
      intro r hr kind hkind
      have hchild : r.2 ∈ children := (List.of_mem_zip hr).2
      obtain ⟨S, us, hsub⟩ := hmeans.sub _ _ _ r.2
        (windIn_of_child (p := .free ptr zone originators children) hchild (mem_windIn_self r.2))
      rw [hsub.baseKind_eq hsteps] at hkind
      exact hjoins r hr kind hkind

/-! ## §2. The patches after the copies. -/

/-- The kind of node at the base of a patch that is free once the zones picked are copied. -/
def copiedKind (h : TreeHeap) (pick : Intent → Bool) : Patch P → Option NodeKind
  | .tree _ zone intent _ _ =>
      if pick intent = true then (h.childOf zone.base).map fun n => (h.nodeAt n).kind else none
  | .free _ zone _ _ => zone.base.map fun b => (h.nodeAt b).kind

/-- There is a link to it then, that its originators get if it is no scaffold. -/
def MayJoin (h : TreeHeap) (pick : Intent → Bool) (c : Patch P) : Prop :=
  ∀ kind ∈ c.copiedKind h pick, kind ≠ .subContainer ∧ (c.originators ≠ ∅ → kind ≠ .scaffold)

/-- So it is for the children of a patch that is free then. -/
def JoinsCopied (h : TreeHeap) (pick : Intent → Bool) : Patch P → Prop
  | .tree _ _ intent _ children => pick intent = true → ∀ c ∈ children, c.MayJoin h pick
  | .free _ _ _ children => ∀ c ∈ children, c.MayJoin h pick

/-- **What the copies keep of the patches**: their originators, and the tree zones that are
not picked. -/
structure Reshaped (h₀ h' : TreeHeap) (pick : Intent → Bool) (p p' : Patch P) : Prop where
  kind : p'.baseKind h' = p.copiedKind h₀ pick
  originators : p'.windIn.map Patch.originators = p.windIn.map Patch.originators
  trees : p'.windIn.filterMap treeZone?
    = (p.windIn.filterMap treeZone?).filter fun z => !pick z.2
  joins : (∀ q ∈ p.windIn, JoinsCopied h₀ pick q) → ∀ q ∈ p'.windIn, Joins h' true q

/-- And of a list of patches. -/
structure ReshapedAll (h₀ h' : TreeHeap) (pick : Intent → Bool) (cs cs' : List (Patch P)) :
    Prop where
  heads : List.Forall₂ (fun c c' => c'.baseKind h' = c.copiedKind h₀ pick
    ∧ c'.originators = c.originators) cs cs'
  originators : (windInAll cs').map Patch.originators = (windInAll cs).map Patch.originators
  trees : (windInAll cs').filterMap treeZone?
    = ((windInAll cs).filterMap treeZone?).filter fun z => !pick z.2
  joins : (∀ q ∈ windInAll cs, JoinsCopied h₀ pick q) → ∀ q ∈ windInAll cs', Joins h' true q

section

variable {pick : Intent → Bool} {c c' p p' : Patch P} {cs cs' : List (Patch P)} {ptr : Nat}
  {zone : TreeZone} {fz : FreeZone} {intent : Intent} {originators : Originators P}

/-- A later step elsewhere in memory changes none of it. -/
theorem Reshaped.later (hp : Reshaped h₀ h pick p p') (hmeans : Means h D p' R ts)
    (hsteps : ChangesOnly h h' Q) : Reshaped h₀ h' pick p p' where
  kind := (hmeans.baseKind_eq hsteps).trans hp.kind
  originators := hp.originators
  trees := hp.trees
  joins hall q hq := by
    obtain ⟨S, us, hsub⟩ := hmeans.sub _ _ _ q hq
    exact (hp.joins hall q hq).later hsub hsteps

theorem ReshapedAll.later (hcs : ReshapedAll h₀ h pick cs cs') (hmeans : MeansAll h D cs' R tss)
    (hsteps : ChangesOnly h h' Q) : ReshapedAll h₀ h' pick cs cs' where
  heads := by
    obtain ⟨hlen, hheads⟩ := List.forall₂_iff_zip.mp hcs.heads
    refine List.forall₂_iff_zip.mpr ⟨hlen, fun {c c'} hmem => ?_⟩
    obtain ⟨S, us, hsub⟩ := hmeans.sub _ _ _ c'
      (mem_windInAll.mpr ⟨c', (List.of_mem_zip hmem).2, mem_windIn_self c'⟩)
    exact ⟨(hsub.baseKind_eq hsteps).trans (hheads hmem).1, (hheads hmem).2⟩
  originators := hcs.originators
  trees := hcs.trees
  joins hall q hq := by
    obtain ⟨S, us, hsub⟩ := hmeans.sub _ _ _ q hq
    exact (hcs.joins hall q hq).later hsub hsteps

theorem ReshapedAll.nil : ReshapedAll h₀ h pick ([] : List (Patch P)) [] where
  heads := List.Forall₂.nil
  originators := rfl
  trees := rfl
  joins _ q hq := by
    unfold windInAll at hq
    exact absurd hq List.not_mem_nil

theorem ReshapedAll.cons (hc : Reshaped h₀ h pick c c') (hcs : ReshapedAll h₀ h pick cs cs') :
    ReshapedAll h₀ h pick (c :: cs) (c' :: cs') where
  heads := by
    have hself := hc.originators
    rw [windIn_eq c', windIn_eq c, List.map_cons, List.map_cons, List.cons.injEq] at hself
    exact List.Forall₂.cons ⟨hc.kind, hself.1⟩ hcs.heads
  originators := by
    rw [windInAll, windInAll, List.map_append, List.map_append, hc.originators, hcs.originators]
  trees := by
    rw [windInAll, windInAll, List.filterMap_append, List.filterMap_append, List.filter_append,
      hc.trees, hcs.trees]
  joins hall := by
    rw [windInAll, List.forall_mem_append] at hall ⊢
    exact ⟨hc.joins hall.1, hcs.joins hall.2⟩

/-- What was fit to be merged once it is free, is. -/
theorem ReshapedAll.fits (hcs : ReshapedAll h₀ h pick cs cs')
    (hmay : ∀ c ∈ cs, MayJoin h₀ pick c) (terminii : List Mutator) :
    ∀ r ∈ terminii.zip cs', ∀ kind ∈ r.2.baseKind h,
      Fits true r.1.mode r.2.originators kind := by
  intro r hr kind hkind
  -- the patch that it was
  obtain ⟨j, hj⟩ := List.mem_iff_getElem?.mp (List.of_mem_zip hr).2
  obtain ⟨hjlt, _⟩ := List.getElem?_eq_some_iff.mp hj
  obtain ⟨c, hc⟩ : ∃ c, cs[j]? = some c :=
    ⟨_, List.getElem?_eq_getElem (hcs.heads.length_eq ▸ hjlt)⟩
  obtain ⟨hhead, horiginators⟩ := (List.forall₂_iff_zip.mp hcs.heads).2
    (List.mem_of_getElem? (List.getElem?_zip_eq_some.mpr ⟨hc, hj⟩))
  rw [hhead] at hkind
  obtain ⟨hnone, hscaffold⟩ := hmay c (List.mem_of_getElem? hc) kind hkind
  rw [horiginators]
  exact ⟨fun hcontainer => absurd hcontainer hnone, fun _ => ⟨hnone, hscaffold⟩⟩

/-- A tree patch that is copied. -/
theorem ReshapedAll.copied (hcs : ReshapedAll h₀ h pick cs cs') (hpick : pick intent = true)
    (hkind : (Patch.free ptr fz originators cs').baseKind h
      = (Patch.tree ptr zone intent originators cs).copiedKind h₀ pick) :
    Reshaped h₀ h pick (.tree ptr zone intent originators cs)
      (.free ptr fz originators cs') where
  kind := hkind
  originators := congrArg (originators :: ·) hcs.originators
  trees := by
    show (windInAll cs').filterMap treeZone?
      = List.filter _ ((zone, intent) :: (windInAll cs).filterMap treeZone?)
    rw [List.filter_cons_of_neg (by simp [hpick])]
    exact hcs.trees
  joins hall := by
    unfold windIn at hall ⊢
    rw [List.forall_mem_cons] at hall ⊢
    exact ⟨hcs.fits (hall.1 hpick) fz.terminii, hcs.joins hall.2⟩

/-- One that stays a tree patch. -/
theorem ReshapedAll.tree (hcs : ReshapedAll h₀ h pick cs cs') (hpick : pick intent = false) :
    Reshaped h₀ h pick (.tree ptr zone intent originators cs)
      (.tree ptr zone intent originators cs') where
  kind := by
    show none = ite _ _ _
    rw [hpick, if_neg Bool.false_ne_true]
  originators := congrArg (originators :: ·) hcs.originators
  trees := by
    show (zone, intent) :: (windInAll cs').filterMap treeZone?
      = List.filter _ ((zone, intent) :: (windInAll cs).filterMap treeZone?)
    rw [List.filter_cons_of_pos (by simp [hpick]), hcs.trees]
  joins hall := by
    unfold windIn at hall ⊢
    rw [List.forall_mem_cons] at hall ⊢
    exact ⟨trivial, hcs.joins hall.2⟩

/-- A free patch. -/
theorem ReshapedAll.free (hcs : ReshapedAll h₀ h pick cs cs')
    (hkind : (Patch.free ptr fz originators cs').baseKind h
      = (Patch.free ptr fz originators cs).copiedKind h₀ pick) :
    Reshaped h₀ h pick (.free ptr fz originators cs) (.free ptr fz originators cs') where
  kind := hkind
  originators := congrArg (originators :: ·) hcs.originators
  trees := hcs.trees
  joins hall := by
    unfold windIn at hall ⊢
    rw [List.forall_mem_cons] at hall ⊢
    exact ⟨hcs.fits hall.1 fz.terminii, hcs.joins hall.2⟩

end

/-! ## §3. Copies. -/

/-- What a pass does that copies the tree zones whose intents are picked. -/
structure Copies (pick : Intent → Bool) (g : Patch P → Update (Patch P)) : Prop where
  tree : ∀ ptr zone intent originators children, g (.tree ptr zone intent originators children)
    = if pick intent = true then duplicateToFree ptr zone originators children
      else pure (.tree ptr zone intent originators children)
  free : ∀ ptr zone originators children, g (.free ptr zone originators children)
    = pure (.free ptr zone originators children)

/-- What a pass can copy: zones of trees in memory, that are not empty. -/
def Copyable (h : TreeHeap) (pick : Intent → Bool) : Patch P → Prop
  | .tree _ zone intent _ _ => pick intent = true →
      zone.isEmpty = false ∧ ∃ k n, h.HoldsZone k zone n
  | .free .. => True

/-- No tree zone is left to copy. -/
def noneToCopy (pick : Intent → Bool) : ZoneProperty :=
  ⟨fun _ intent => pick intent = false, fun _ => True⟩

/-- **The layout after the copies.** -/
structure Copied (h₀ h h' : TreeHeap) (D R : Region) (pick : Intent → Bool) (p : Patch P)
    (ts : List Content) (p' : Patch P) (R' : Region) : Prop where
  grows : h.Grows h'
  kept : Kept h h' R R'
  means : Means h' D p' R' ts
  none_left : Everywhere (noneToCopy pick) p'
  head : p'.baseKind h' = some .subContainer → p.baseKind h₀ = some .subContainer
  joins : (∀ q ∈ p.windIn, Joins h₀ false q ∧ AcceptsContainers h₀ q) →
    ∀ q ∈ p'.windIn, Joins h' false q
  reshaped : Reshaped h₀ h' pick p p'

/-- And of a list of layouts. -/
structure CopiedAll (h₀ h h' : TreeHeap) (D R : Region) (pick : Intent → Bool)
    (cs : List (Patch P)) (tss : List (List Content)) (cs' : List (Patch P)) (R' : Region) :
    Prop where
  grows : h.Grows h'
  kept : Kept h h' R R'
  means : MeansAll h' D cs' R' tss
  none_left : EverywhereAll (noneToCopy pick) cs'
  heads : List.Forall₂ (fun c c' => c'.baseKind h' = some .subContainer →
    c.baseKind h₀ = some .subContainer) cs cs'
  joins : (∀ q ∈ windInAll cs, Joins h₀ false q ∧ AcceptsContainers h₀ q) →
    ∀ q ∈ windInAll cs', Joins h' false q
  reshaped : ReshapedAll h₀ h' pick cs cs'

theorem CopiedAll.cons {h₁ h₂ : TreeHeap} {pick : Intent → Bool} {c c' : Patch P}
    {cs cs' : List (Patch P)} {R₀ R₁ R₀' R₁' : Region} (h1 : Copied h₀ h h₁ D R₀ pick c ts c' R₀')
    (h2 : CopiedAll h₀ h₁ h₂ D R₁ pick cs tss cs' R₁') (hD : h₁.Owned D)
    (hR₁D : Disjoint R₁ D) (hR₁ : R₁ ≤ used h) (hapart : Disjoint R₀ R₁) (h₀le : R₀ ≤ R)
    (h₁le : R₁ ≤ R) :
    CopiedAll h₀ h h₂ D R pick (c :: cs) (ts :: tss) (c' :: cs') (R₀' ⊔ R₁') := by
  obtain ⟨hkept, hdisjoint⟩ := h1.kept.both hR₁ hapart h2.kept
  have hsteps := h2.kept.changes
  have hc' : Means h₂ D c' R₀' ts :=
    Means.frame hsteps hD hR₁D c' R₀' ts (h1.kept.disjoint hR₁ hapart).symm h1.means
  refine ⟨h1.grows.trans h2.grows, hkept.mono (sup_le h₀le h₁le),
    ⟨R₀', R₁', ts, tss, le_sup_left, le_sup_right, hdisjoint, hc', h2.means, rfl⟩, ?_, ?_, ?_,
    ReshapedAll.cons (h1.reshaped.later h1.means hsteps) h2.reshaped⟩
  · unfold EverywhereAll
    exact ⟨h1.none_left, h2.none_left⟩
  · refine List.Forall₂.cons (fun hkind => h1.head ?_) h2.heads
    rw [← h1.means.baseKind_eq hsteps]
    exact hkind
  · intro hall q hq
    unfold windInAll at hall hq
    rw [List.forall_mem_append] at hall
    rcases List.mem_append.mp hq with hq | hq
    · obtain ⟨S, us, hsub⟩ := h1.means.sub _ _ _ q hq
      exact (h1.joins hall.1 q hq).later hsub hsteps
    · exact h2.joins hall.2 q hq

/-- **A tree zone is copied**, above its children's copies. -/
theorem copied_tree {pick : Intent → Bool} {h₁ : TreeHeap} (ptr : Nat) {zone : TreeZone}
    (intent : Intent) (originators : Originators P) {cs cs' : List (Patch P)} {t : Content}
    (hcs : CopiedAll h₀ h h₁ D R pick cs tss cs' R') (hgrows : h₀.Grows h)
    (hread : h₀.ReadsLink zone.terminii D t zone.base) (hholes : (holes t).Perm zone.terminii)
    (hlen : zone.terminii.length = tss.length) (hne : zone.isEmpty = false) {k n : Nat}
    (hz : h₀.HoldsZone k zone n) (hD : h₁.Owned D) (hpick : pick intent = true) :
    ∃ p' h' R'', duplicateToFree ptr zone originators cs' h₁ = some (p', h')
      ∧ Copied h₀ h h' D R pick (.tree ptr zone intent originators cs)
        (Term.fill (plug zone.terminii tss) t) p' R'' := by
  obtain ⟨fz, t', h₂, hrun, hgrows', hlen', hmodes, hkind, hfill, hfree⟩ :=
    TreeZone.duplicate_reads hz hne (hgrows.trans hcs.grows) hread
  -- the duplicate is in nodes that were not there, so all that stood still stands
  have hsteps : ChangesOnly h₁ h₂ ⊥ := ChangesOnly.of_grows hgrows' ⊥
  have hall : MeansAll h₂ D cs' R' tss :=
    MeansAll.frame hsteps hD disjoint_bot_left cs' R' tss disjoint_bot_left hcs.means
  have hnew : Disjoint (between h₁ h₂) R' :=
    (disjoint_unused hcs.kept.in_memory).symm.mono_left (between_le_unused h₁ h₂)
  have hcount : fz.terminii.length = cs'.length := by
    rw [hlen', hlen, hcs.means.length_eq]
  have hslots : (fz.terminii.map Mutator.slot).length = tss.length := by
    rw [List.length_map, hlen', hlen]
  refine ⟨.free ptr fz originators cs', h₂, between h₁ h₂ ⊔ R', ?_,
    hcs.grows.trans hgrows', ⟨?_, ?_, ?_⟩, ?_, ?_, ?_, ?_,
    (hcs.reshaped.later hcs.means hsteps).copied hpick ?_⟩
  · refine (run_bind hrun).trans ?_
    exact (run_bind (run_assert hcount h₂)).trans rfl
  · exact hcs.kept.changes.trans hsteps bot_le
  · exact sup_le ((between_le_unused h₁ h₂).trans ((unused_mono hcs.kept.changes).trans
      le_sup_right)) hcs.kept.region_le
  · exact sup_le ⟨fun n hn => hn.2, fun x hx => hx.2⟩
      (hcs.kept.in_memory.trans (used_mono hsteps))
  · -- it has the zone's content with other holes, and the children's go into these
    refine ⟨between h₁ h₂, R', [t'], tss, le_sup_left, le_sup_right, hnew, hfree,
      hlen'.trans hlen, hall, ?_⟩
    rw [← hfill, fill_fill]
    refine fill_congr t fun x hx => ?_
    have hplug := fillAll_plug_plug (A := NodeLabel) (hlen.trans hslots.symm) hslots hfree.nodup
      (hholes.mem_iff.mp hx)
    rw [List.map_map] at hplug
    exact hplug.symm
  · unfold Everywhere
    exact ⟨trivial, hcs.none_left⟩
  · -- a duplicate of a tree zone has no container at its base
    intro hbase
    obtain ⟨d, hd, hd'⟩ := Option.map_eq_some_iff.mp hbase
    exact absurd hd' (hkind d hd).1
  · intro hok q hq
    unfold windIn at hok hq
    rw [List.forall_mem_cons] at hok
    rcases List.mem_cons.mp hq with rfl | hq
    · intro r hr kind hr'
      refine ⟨?_, fun hfalse => absurd hfalse Bool.false_ne_true⟩
      rintro rfl
      obtain ⟨j, hj⟩ := List.mem_iff_getElem?.mp hr
      obtain ⟨hterminus, hchild⟩ := List.getElem?_zip_eq_some.mp hj
      -- the terminus and the child of the zone at the same place
      obtain ⟨hjlt, _⟩ := List.getElem?_eq_some_iff.mp hterminus
      obtain ⟨x, hx⟩ : ∃ x, zone.terminii[j]? = some x :=
        ⟨_, List.getElem?_eq_getElem (hlen' ▸ hjlt)⟩
      obtain ⟨c, hc⟩ : ∃ c, cs[j]? = some c :=
        ⟨_, List.getElem?_eq_getElem (by rw [hcs.heads.length_eq, ← hcount]; exact hjlt)⟩
      have hmem : r.2 ∈ windInAll cs' :=
        mem_windInAll.mpr ⟨r.2, List.mem_of_getElem? hchild, mem_windIn_self r.2⟩
      obtain ⟨S, us, hsub⟩ := hcs.means.sub _ _ _ r.2 hmem
      rw [hsub.baseKind_eq hsteps] at hr'
      have hcontainer := (List.forall₂_iff_zip.mp hcs.heads).2
        (List.mem_of_getElem? (List.getElem?_zip_eq_some.mpr ⟨hc, hchild⟩)) hr'
      have hmode := hmodes (x, r.1)
        (List.mem_of_getElem? (List.getElem?_zip_eq_some.mpr ⟨hx, hterminus⟩))
      exact hok.1.2 (x, c) (List.mem_of_getElem? (List.getElem?_zip_eq_some.mpr ⟨hx, hc⟩))
        hcontainer _ hmode
    · obtain ⟨S, us, hsub⟩ := hcs.means.sub _ _ _ q hq
      exact (hcs.joins hok.2 q hq).later hsub hsteps
  · obtain ⟨d, hd, _⟩ := hfree.base
    show fz.base.map _ = ite _ _ _
    rw [if_pos hpick, hz.base, hd]
    exact congrArg some (hkind d hd).2

/-- A tree zone that is not copied stays, above its children's copies. -/
theorem CopiedAll.keep {pick : Intent → Bool} {h₁ : TreeHeap} {ptr : Nat} {zone : TreeZone}
    {intent : Intent} {originators : Originators P} {cs cs' : List (Patch P)} {t : Content}
    (hcs : CopiedAll h₀ h h₁ D R pick cs tss cs' R') (hgrows : h₀.Grows h) (hD : h₀.Owned D)
    (hbase : zone.base ∈ D.2) (hread : h₀.ReadsLink zone.terminii D t zone.base)
    (hholes : (holes t).Perm zone.terminii) (hnodup : zone.terminii.Nodup)
    (hlen : zone.terminii.length = tss.length) (hpick : pick intent = false) :
    Copied h₀ h h₁ D R pick (.tree ptr zone intent originators cs)
      (Term.fill (plug zone.terminii tss) t) (.tree ptr zone intent originators cs') R' := by
  have hgrows₁ : h₀.Grows h₁ := hgrows.trans hcs.grows
  have hread₁ : h₁.ReadsLink zone.terminii D t zone.base :=
    ReadsLink.congr (Duplicate.grows_unchanged hgrows₁ hD) (le_refl D) t _
      (hgrows₁.childOf _ (hD.link_lt _ hbase)) hread
  refine ⟨hcs.grows, hcs.kept, ⟨t, tss, hbase, hread₁, hholes, hnodup, hlen, hcs.means, rfl⟩, ?_,
    ?_, ?_, hcs.reshaped.tree hpick⟩
  · unfold Everywhere
    exact ⟨hpick, hcs.none_left⟩
  · intro hkind
    cases hkind
  · intro hok q hq
    unfold windIn at hok hq
    rw [List.forall_mem_cons] at hok
    rcases List.mem_cons.mp hq with rfl | hq
    · trivial
    · exact hcs.joins hok.2 q hq

/-- And so does a free zone. -/
theorem CopiedAll.free {pick : Intent → Bool} {h₁ : TreeHeap} {ptr : Nat} {zone : FreeZone}
    {originators : Originators P} {cs cs' : List (Patch P)} {us : List Content}
    {R₀ R₁ R₁' : Region} (hcs : CopiedAll h₀ h h₁ D R₁ pick cs tss cs' R₁')
    (hgrows : h₀.Grows h) (h₀le : R₀ ≤ R) (h₁le : R₁ ≤ R) (hapart : Disjoint R₀ R₁)
    (hread : h₀.ReadsFree R₀ zone us) (hlen : zone.terminii.length = tss.length) :
    Copied h₀ h h₁ D R pick (.free ptr zone originators cs)
      (fillAll (plug (zone.terminii.map Mutator.slot) tss) us) (.free ptr zone originators cs')
      (R₀ ⊔ R₁') := by
  -- the zone is not touched; only its children were walked
  have hsteps : ChangesOnly h₀ h₁ ⊥ := ChangesOnly.of_grows (hgrows.trans hcs.grows) ⊥
  have hR₀ : R₀ ≤ used h := hread.owned.le_used.trans
    (used_mono (ChangesOnly.of_grows hgrows ⊥))
  -- nor has the kind of its base changed
  have hsame : (Patch.free ptr zone originators cs').baseKind h₁
      = (Patch.free ptr zone originators cs).baseKind h₀ := by
    obtain ⟨b, hb, hbase⟩ := hread.base
    show zone.base.map _ = zone.base.map _
    rw [hb]
    exact congrArg some (hsteps.kind b hbase.has.1)
  refine ⟨hcs.grows, ⟨hcs.kept.changes.mono h₁le, ?_, ?_⟩,
    ⟨R₀, R₁', us, tss, le_sup_left, le_sup_right, (hcs.kept.disjoint hR₀ hapart.symm).symm,
      hread.frame hsteps disjoint_bot_left, hlen, hcs.means, rfl⟩, ?_, hsame.symm.trans, ?_,
    hcs.reshaped.free hsame⟩
  · exact sup_le (h₀le.trans le_sup_left)
      (hcs.kept.region_le.trans (sup_le_sup_right h₁le _))
  · exact sup_le (hR₀.trans (used_mono hcs.kept.changes)) hcs.kept.in_memory
  · unfold Everywhere
    exact ⟨trivial, hcs.none_left⟩
  · intro hok q hq
    unfold windIn at hok hq
    rw [List.forall_mem_cons] at hok
    rcases List.mem_cons.mp hq with rfl | hq
    · -- a copy with a container at its base is of a patch with one
      intro r hr kind hkind
      refine ⟨?_, fun hfalse => absurd hfalse Bool.false_ne_true⟩
      rintro rfl
      obtain ⟨j, hj⟩ := List.mem_iff_getElem?.mp hr
      obtain ⟨hterminus, hchild⟩ := List.getElem?_zip_eq_some.mp hj
      obtain ⟨hjlt, _⟩ := List.getElem?_eq_some_iff.mp hchild
      obtain ⟨c, hc⟩ : ∃ c, cs[j]? = some c :=
        ⟨_, List.getElem?_eq_getElem (hcs.heads.length_eq ▸ hjlt)⟩
      have hcontainer := (List.forall₂_iff_zip.mp hcs.heads).2
        (List.mem_of_getElem? (List.getElem?_zip_eq_some.mpr ⟨hc, hchild⟩)) hkind
      exact (hok.1.1 (r.1, c) (List.mem_of_getElem?
        (List.getElem?_zip_eq_some.mpr ⟨hterminus, hc⟩)) _ hcontainer).1 rfl
    · exact hcs.joins hok.2 q hq

/-! ## §4. The walk. -/

variable {pick : Intent → Bool} {g : Patch P → Update (Patch P)}

mutual

/-- **The copies stand for what the zones stand for**, and nothing that was in memory has
changed. -/
theorem Copies.means (hg : Copies pick g) (hD : h₀.Owned D) : ∀ (p : Patch P) (R : Region)
    (ts : List Content) (h : TreeHeap), h₀.Grows h → R ≤ used h₀ → Disjoint R D →
    Means h₀ D p R ts → (∀ q ∈ p.windIn, Copyable h₀ pick q) →
    ∃ p' h' R', walkOut g p h = some (p', h') ∧ Copied h₀ h h' D R pick p ts p' R'
  | .tree ptr zone intent originators children, R, ts, h, hgrows, hR, hRD, hmeans, hcopy => by
      obtain ⟨t, tss, hbase, hread, hholes, hnodup, hlen, hall, rfl⟩ := hmeans
      unfold windIn at hcopy
      rw [List.forall_mem_cons] at hcopy
      obtain ⟨cs', h₁, R₁, hrun, hcs⟩ :=
        Copies.meansAll hg hD children R tss h hgrows hR hRD hall hcopy.2
      -- the children are copied first, as in the walk
      have hgrows₁ : h₀.Grows h₁ := hgrows.trans hcs.grows
      have hD₁ : h₁.Owned D := Duplicate.grows_owned hgrows₁ hD
      cases hpick : pick intent with
      | true =>
          obtain ⟨hne, k, n, hz⟩ := hcopy.1 hpick
          obtain ⟨p', h₂, R₂, hrun', hcopied⟩ := copied_tree ptr intent originators hcs hgrows
            hread hholes hlen hne hz hD₁ hpick
          refine ⟨p', h₂, R₂, ?_, hcopied⟩
          rw [walkOut]
          refine (run_bind hrun).trans ?_
          rw [hg.tree, if_pos hpick]
          exact hrun'
      | false =>
          refine ⟨.tree ptr zone intent originators cs', h₁, R₁, ?_,
            hcs.keep hgrows hD hbase hread hholes hnodup hlen hpick⟩
          rw [walkOut]
          refine (run_bind hrun).trans ?_
          rw [hg.tree, if_neg (by rw [hpick]; exact Bool.false_ne_true)]
          rfl
  | .free ptr zone originators children, R, ts, h, hgrows, hR, hRD, hmeans, hcopy => by
      obtain ⟨R₀, R₁, us, tss, h₀le, h₁le, hapart, hread, hlen, hall, rfl⟩ := hmeans
      unfold windIn at hcopy
      rw [List.forall_mem_cons] at hcopy
      obtain ⟨cs', h₁, R₁', hrun, hcs⟩ := Copies.meansAll hg hD children R₁ tss h hgrows
        (h₁le.trans hR) (hRD.mono_left h₁le) hall hcopy.2
      -- a free zone is left
      refine ⟨.free ptr zone originators cs', h₁, R₀ ⊔ R₁', ?_,
        hcs.free hgrows h₀le h₁le hapart hread hlen⟩
      rw [walkOut]
      refine (run_bind hrun).trans ?_
      rw [hg.free]
      rfl

theorem Copies.meansAll (hg : Copies pick g) (hD : h₀.Owned D) : ∀ (cs : List (Patch P))
    (R : Region) (tss : List (List Content)) (h : TreeHeap), h₀.Grows h → R ≤ used h₀ →
    Disjoint R D → MeansAll h₀ D cs R tss → (∀ q ∈ windInAll cs, Copyable h₀ pick q) →
    ∃ cs' h' R', walkOutAll g cs h = some (cs', h') ∧ CopiedAll h₀ h h' D R pick cs tss cs' R'
  | [], R, tss, h, hgrows, hR, hRD, hmeans, _ => by
      refine ⟨[], h, R, ?_, Grows.refl h,
        Kept.refl (hR.trans (used_mono (ChangesOnly.of_grows hgrows ⊥))), hmeans, ?_,
        List.Forall₂.nil, fun _ q hq => ?_, ReshapedAll.nil⟩
      · rw [walkOutAll]
        rfl
      · unfold EverywhereAll
        trivial
      · unfold windInAll at hq
        exact absurd hq List.not_mem_nil
  | c :: cs, R, tss, h, hgrows, hR, hRD, hmeans, hcopy => by
      obtain ⟨R₀, R₁, ts, tss', h₀le, h₁le, hapart, hchild, hrest, rfl⟩ := hmeans
      unfold windInAll at hcopy
      rw [List.forall_mem_append] at hcopy
      -- the first child, and the others in the memory that it leaves
      obtain ⟨c', h₁, R₀', hrun, hc⟩ := Copies.means hg hD c R₀ ts h hgrows (h₀le.trans hR)
        (hRD.mono_left h₀le) hchild hcopy.1
      have hgrows₁ : h₀.Grows h₁ := hgrows.trans hc.grows
      obtain ⟨cs', h₂, R₁', hrun', hcs⟩ := Copies.meansAll hg hD cs R₁ tss' h₁ hgrows₁
        (h₁le.trans hR) (hRD.mono_left h₁le) hrest hcopy.2
      refine ⟨c' :: cs', h₂, R₀' ⊔ R₁', ?_, CopiedAll.cons hc hcs
        (Duplicate.grows_owned hgrows₁ hD) (hRD.mono_left h₁le)
        ((h₁le.trans hR).trans (used_mono (ChangesOnly.of_grows hgrows ⊥))) hapart h₀le h₁le⟩
      rw [walkOutAll]
      refine (run_bind hrun).trans ?_
      exact (run_bind hrun').trans rfl

end

/-- A walk over tree patches, at any patch. -/
def onTrees (f : Patch P → Update (Patch P)) : Patch P → Update (Patch P)
  | .tree ptr zone intent originators children =>
      f (.tree ptr zone intent originators children)
  | .free ptr zone originators children => pure (.free ptr zone originators children)

theorem walkTreesOut_eq (f : Patch P → Update (Patch P)) :
    walkTreesOut f = walkOut (onTrees f) := by
  unfold walkTreesOut
  congr 1
  funext patch
  cases patch <;> rfl

theorem walkTreesOut_copies {f : Patch P → Update (Patch P)}
    (hf : ∀ ptr zone intent originators children, f (.tree ptr zone intent originators children)
      = if pick intent = true then duplicateToFree ptr zone originators children
        else pure (.tree ptr zone intent originators children))
    (hD : h₀.Owned D) {p : Patch P} (hR : R ≤ used h₀) (hRD : Disjoint R D)
    (hmeans : Means h₀ D p R ts) (hcopy : ∀ q ∈ p.windIn, Copyable h₀ pick q) :
    ∃ p' h' R', walkTreesOut f p h₀ = some (p', h') ∧ Copied h₀ h₀ h' D R pick p ts p' R' := by
  have hg : Copies pick (onTrees f) := ⟨hf, fun _ _ _ _ => rfl⟩
  rw [walkTreesOut_eq]
  exact hg.means hD p R ts h₀ (Grows.refl h₀) hR hRD hmeans hcopy

end Patch

variable {P : Type}

/-- The pass returns, with the copyable zones copied. -/
theorem copyingPass_copied {h : TreeHeap} {D R : Region} {layout : Patch P} {ts : List Content}
    (hD : h.Owned D) (hR : R ≤ used h) (hRD : Disjoint R D) (hmeans : layout.Means h D R ts)
    (hcopy : ∀ q ∈ layout.windIn, q.Copyable h fun intent => intent = .copyable) :
    ∃ layout' h' R', copyingPass layout h = some (layout', h')
      ∧ Patch.Copied h h h' D R (fun intent => intent = .copyable) layout ts layout' R' := by
  refine Patch.walkTreesOut_copies ?_ hD hR hRD hmeans hcopy
  intro ptr zone intent originators children
  by_cases hintent : intent = .copyable
  · rw [if_pos (decide_eq_true hintent)]
    exact if_pos hintent
  · rw [if_neg (by rw [decide_eq_false hintent]; exact Bool.false_ne_true)]
    exact if_neg hintent

/-- **`CopyingPass`** returns with a layout that stands for the same and has no zone left to copy;
what was in memory is as it was. -/
theorem copyingPass_means (h : TreeHeap) (D R : Region) (layout : Patch P) (ts : List Content)
    (hD : h.Owned D) (hR : R ≤ used h) (hRD : Disjoint R D) (hmeans : layout.Means h D R ts)
    (hcopy : ∀ q ∈ layout.windIn, q.Copyable h fun intent => intent = .copyable) :
    ∃ layout' h' R', copyingPass layout h = some (layout', h') ∧ layout'.Means h' D R' ts
      ∧ Disjoint R' D ∧ h.Grows h'
      ∧ layout'.Everywhere (Patch.noneToCopy fun intent => intent = .copyable) := by
  obtain ⟨p', h', R', hrun, hcopied⟩ := copyingPass_copied hD hR hRD hmeans hcopy
  exact ⟨p', h', R', hrun, hcopied.means, hcopied.kept.disjoint hD.le_used hRD, hcopied.grows,
    hcopied.none_left⟩

theorem smallRegion_owned : smallHeap.Owned smallRegion where
  node_lt := by simp [smallRegion, smallHeap]
  link_lt := by simp [smallRegion, smallHeap]
  links := by
    intro n hn x hx
    simp only [smallRegion, Set.mem_insert_iff, Set.mem_singleton_iff] at hn
    rcases hn with rfl | rfl | rfl
    · have hx : x ∈ [1, 2] := hx
      rcases List.mem_pair.mp hx with rfl | rfl <;> simp [smallRegion]
    · exact absurd hx List.not_mem_nil
    · exact absurd hx List.not_mem_nil
  nodup := by
    intro n hn
    simp only [smallRegion, Set.mem_insert_iff, Set.mem_singleton_iff] at hn
    rcases hn with rfl | rfl | rfl
    · show [1, 2].Nodup
      decide
    · exact List.nodup_nil
    · exact List.nodup_nil
  owner := by
    intro n hn m hm x hx hx'
    simp only [smallRegion, Set.mem_insert_iff, Set.mem_singleton_iff] at hn hm
    rcases hn with rfl | rfl | rfl
    · rcases hm with rfl | rfl | rfl
      · rfl
      · exact absurd hx' List.not_mem_nil
      · exact absurd hx' List.not_mem_nil
    · exact absurd hx List.not_mem_nil
    · exact absurd hx List.not_mem_nil

/-- A copyable zone of the small tree, down to its second child. -/
def smallLayout : Patch Nat := .tree 1 ⟨0, [2], 0⟩ .copyable ∅ [secondLeaf]

def smallTree : Content :=
  .node ((smallHeap.nodeAt 0).label 0) [[smallLeaf 1, smallLeaf 2]]

theorem smallLayout_means : smallLayout.Means smallHeap smallRegion ⊥ [smallTree] := by
  refine ⟨.node ((smallHeap.nodeAt 0).label 0) [[smallLeaf 1, .hole 2]], [[smallLeaf 2]],
    by simp [smallRegion], ⟨by decide, 0, rfl, ⟨by decide, Or.inl (by simp [smallRegion])⟩, rfl,
      ⟨⟨smallHeap_readsLeaf (Or.inl rfl) (by decide), ⟨rfl, Or.inl (List.mem_singleton_self 2)⟩,
        trivial⟩, trivial⟩⟩, List.Perm.refl _, List.nodup_singleton 2, rfl, ?_, rfl⟩
  exact ⟨⊥, ⊥, [smallLeaf 2], [], le_rfl, le_rfl, disjoint_bot_left, secondLeaf_means, rfl, rfl⟩

theorem copyingPass_means_smallLayout :
    ∃ layout' h' R', copyingPass smallLayout smallHeap = some (layout', h')
      ∧ layout'.Means h' smallRegion R' [smallTree] ∧ Disjoint R' smallRegion
      ∧ smallHeap.Grows h'
      ∧ layout'.Everywhere (Patch.noneToCopy fun intent => intent = .copyable) := by
  refine copyingPass_means smallHeap smallRegion ⊥ smallLayout [smallTree] smallRegion_owned
    bot_le disjoint_bot_left smallLayout_means ?_
  intro q hq
  have hq : q ∈ [smallLayout, secondLeaf] := hq
  rcases List.mem_pair.mp hq with rfl | rfl
  · exact fun _ => ⟨rfl, 2, 0, smallHeap_holdsZone (Or.inr rfl)⟩
  · intro hpick
    cases hpick

/-- **`DuplicateAllPass`** returns with free patches only, which stand for the same. -/
theorem duplicateAllPass_copied {h : TreeHeap} {D R : Region} {layout : Patch P}
    {ts : List Content} (hD : h.Owned D) (hR : R ≤ used h) (hRD : Disjoint R D)
    (hmeans : layout.Means h D R ts) (hcopy : ∀ q ∈ layout.windIn, q.Copyable h fun _ => true) :
    ∃ layout' h' R', duplicateAllPass layout h = some (layout', h')
      ∧ Patch.Copied h h h' D R (fun _ => true) layout ts layout' R' := by
  refine Patch.walkTreesOut_copies ?_ hD hR hRD hmeans hcopy
  intro ptr zone intent originators children
  rw [if_pos rfl]

end Inferno.UP
