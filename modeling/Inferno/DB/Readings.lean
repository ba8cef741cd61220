/-
  Inferno.DB.Readings
  ───────────────────
  What a part of memory reads as: a tree with a hole for each end.

    • `NodeLabel`, `Content`  — what a node is, and a tree of such,
    • `Region`, `Owned`   — nodes and links that belong to one party, each link to one node,
    • `ReadsLink`         — the content at a link, down to some ends and to NULLs,
    • `ChangesOnly`       — a step that changes a region, and adds to memory,
    • `ReadsLink.congr`   — what it leaves alone reads as before,
    • `ReadsFree`         — a free zone over a region: trees with a hole for each terminus.

  A specific identifier belongs to nobody, since it is its own duplicate.
-/
import Inferno.DB.DuplicateExact
import Inferno.Lib.Term
import Mathlib.Order.Disjoint
import Mathlib.Data.Set.Basic

namespace Inferno.DB

open Inferno.Common Inferno.Helpers Inferno.Lib Inferno.Lib.Term

/-! ## §1. Contents. -/

/-- What a node is, apart from its children; a specific identifier is itself. -/
structure NodeLabel where
  kind : NodeKind
  typeIndex : Nat
  value : LocalValue
  shapes : List Nat
  identity : Option Nat

/-- **A tree of labels**; a hole has the address of a link. -/
abbrev Content := Term NodeLabel Nat

/-- The label of a record at an address. -/
def NodeRecord.label (r : NodeRecord) (n : Nat) : NodeLabel where
  kind := r.kind
  typeIndex := r.typeIndex
  value := r.value
  shapes := r.items.map itemKind
  identity := if r.kind = .identifier then some n else none

/-! ## §2. Regions. -/

/-- Nodes and links. -/
abbrev Region := Set Nat × Set Nat

/-- What memory `h'` has that `h` has not. -/
def between (h h' : TreeHeap) : Region :=
  ({n | h.nextNode ≤ n ∧ n < h'.nextNode}, {x | h.nextLink ≤ x ∧ x < h'.nextLink})

/-- What is in memory. -/
def used (h : TreeHeap) : Region :=
  ({n | n < h.nextNode}, {x | x < h.nextLink})

/-- What is not yet in memory. -/
def unused (h : TreeHeap) : Region :=
  ({n | h.nextNode ≤ n}, {x | h.nextLink ≤ x})

namespace TreeHeap

variable (h : TreeHeap)

/-- **A region in memory**: the links of its nodes are in it, and each has one place. -/
structure Owned (R : Region) : Prop where
  node_lt : ∀ n ∈ R.1, n < h.nextNode
  link_lt : ∀ x ∈ R.2, x < h.nextLink
  links : ∀ n ∈ R.1, ∀ x ∈ (h.nodeAt n).links, x ∈ R.2
  nodup : ∀ n ∈ R.1, (h.nodeAt n).links.Nodup
  owner : ∀ n ∈ R.1, ∀ m ∈ R.1, ∀ x ∈ (h.nodeAt n).links, x ∈ (h.nodeAt m).links → n = m

/-- A node of the region, or a specific identifier. -/
def Has (R : Region) (n : Nat) : Prop :=
  n < h.nextNode ∧ (n ∈ R.1 ∨ (h.nodeAt n).kind = .identifier)

/-! ## §3. Readings. -/

mutual

/-- **The content at a link**, read down to the ends; a hole is an end, or a NULL. -/
def ReadsLink (ends : List Nat) (R : Region) : Content → Nat → Prop
  | .hole y, x => y = x ∧ (x ∈ ends ∨ h.childOf x = none)
  | .node label groups, x => x ∉ ends ∧ ∃ n, h.childOf x = some n ∧ h.Has R n
      ∧ label = (h.nodeAt n).label n ∧ ReadsItems ends R groups (h.nodeAt n).items

/-- The contents of the items of a node. -/
def ReadsItems (ends : List Nat) (R : Region) : List (List Content) → List (Item Nat) → Prop
  | [], [] => True
  | ts :: groups, item :: items =>
      ReadsLinks ends R ts item.links ∧ ReadsItems ends R groups items
  | _, _ => False

/-- The contents at the links of an item. -/
def ReadsLinks (ends : List Nat) (R : Region) : List Content → List Nat → Prop
  | [], [] => True
  | t :: ts, x :: xs => ReadsLink ends R t x ∧ ReadsLinks ends R ts xs
  | _, _ => False

end

/-- The content at a node. -/
def ReadsNode (ends : List Nat) (R : Region) (t : Content) (n : Nat) : Prop :=
  h.Has R n ∧ ∃ groups, t = .node ((h.nodeAt n).label n) groups
    ∧ h.ReadsItems ends R groups (h.nodeAt n).items

variable {h} {h' h'' : TreeHeap} {ends : List Nat} {R S : Region} {t : Content} {n x : Nat}

theorem readsLink_hole {y : Nat} :
    h.ReadsLink ends R (.hole y) x ↔ y = x ∧ (x ∈ ends ∨ h.childOf x = none) := Iff.rfl

/-- A link that is no end reads as the node it leads to. -/
theorem readsLink_of_node (hends : x ∉ ends) (hchild : h.childOf x = some n)
    (hnode : h.ReadsNode ends R t n) : h.ReadsLink ends R t x := by
  obtain ⟨hhas, groups, rfl, hitems⟩ := hnode
  exact ⟨hends, n, hchild, hhas, rfl, hitems⟩

theorem ReadsLink.node (hends : x ∉ ends) (hchild : h.childOf x = some n)
    (hlink : h.ReadsLink ends R t x) : h.ReadsNode ends R t n := by
  cases t with
  | hole y =>
      rcases hlink.2 with hmem | hnull
      · exact absurd hmem hends
      · rw [hchild] at hnull
        cases hnull
  | node label groups =>
      obtain ⟨_, m, hm, hhas, hlabel, hitems⟩ := hlink
      obtain rfl : n = m := Option.some.inj (hchild.symm.trans hm)
      exact ⟨hhas, groups, by rw [hlabel], hitems⟩

theorem ReadsLinks.length_eq {ts : List Content} {xs : List Nat}
    (hlinks : h.ReadsLinks ends R ts xs) : ts.length = xs.length := by
  induction ts generalizing xs with
  | nil =>
      cases xs with
      | nil => rfl
      | cons x xs => exact hlinks.elim
  | cons t ts ih =>
      cases xs with
      | nil => exact hlinks.elim
      | cons x xs =>
          rw [List.length_cons, List.length_cons, ih hlinks.2]

theorem readsLinks_append {ts us : List Content} {xs ys : List Nat}
    (hts : h.ReadsLinks ends R ts xs) (hus : h.ReadsLinks ends R us ys) :
    h.ReadsLinks ends R (ts ++ us) (xs ++ ys) := by
  induction ts generalizing xs with
  | nil =>
      cases xs with
      | nil => exact hus
      | cons x xs => exact hts.elim
  | cons t ts ih =>
      cases xs with
      | nil => exact hts.elim
      | cons x xs => exact ⟨hts.1, ih hts.2⟩

/-- The contents on either side of a link. -/
theorem ReadsLinks.split {ts : List Content} {xs ys : List Nat}
    (hlinks : h.ReadsLinks ends R ts (xs ++ ys)) : ∃ ts₁ ts₂, ts = ts₁ ++ ts₂
      ∧ h.ReadsLinks ends R ts₁ xs ∧ h.ReadsLinks ends R ts₂ ys := by
  induction xs generalizing ts with
  | nil => exact ⟨[], ts, rfl, trivial, hlinks⟩
  | cons x xs ih =>
      cases ts with
      | nil => exact hlinks.elim
      | cons t ts =>
          obtain ⟨ts₁, ts₂, rfl, h₁, h₂⟩ := ih hlinks.2
          exact ⟨t :: ts₁, ts₂, rfl, ⟨hlinks.1, h₁⟩, h₂⟩

/-! ## §4. Frames. -/

theorem Has.mono (hhas : h.Has R n) (hle : R ≤ S) : h.Has S n :=
  ⟨hhas.1, hhas.2.imp (fun hn => hle.1 hn) id⟩

/-- What a region must keep for its readings to stay: its nodes, and their links. -/
structure Unchanged (h h' : TreeHeap) (R : Region) : Prop where
  node_le : h.nextNode ≤ h'.nextNode
  nodeAt : ∀ n, h.Has R n → h'.nodeAt n = h.nodeAt n
  childOf : ∀ n ∈ R.1, ∀ x ∈ (h.nodeAt n).links, h'.childOf x = h.childOf x

theorem Unchanged.has (hsame : Unchanged h h' R) (hhas : h.Has R n) : h'.Has R n := by
  refine ⟨Nat.lt_of_lt_of_le hhas.1 hsame.node_le, ?_⟩
  rw [hsame.nodeAt n hhas]
  exact hhas.2

/-- The links of a node that is read are unchanged; a specific identifier has none. -/
theorem Unchanged.links (hsame : Unchanged h h' R) (hhas : h.Has R n) :
    ∀ x ∈ (h.nodeAt n).links, h'.childOf x = h.childOf x := by
  intro x hx
  rcases hhas.2 with hn | hkind
  · exact hsame.childOf n hn x hx
  · unfold NodeRecord.links at hx
    rw [(h.nodeAt n).identifier_items hkind] at hx
    exact absurd hx List.not_mem_nil

mutual

theorem ReadsLink.congr (hsame : Unchanged h h' R) (hle : R ≤ S) :
    ∀ (t : Content) (x : Nat), h'.childOf x = h.childOf x → h.ReadsLink ends R t x →
      h'.ReadsLink ends S t x
  | .hole y, x, hx, hread => by
      rw [readsLink_hole] at hread ⊢
      rw [hx]
      exact hread
  | .node label groups, x, hx, hread => by
      obtain ⟨hends, n, hn, hhas, hlabel, hitems⟩ := hread
      have hnode := hsame.nodeAt n hhas
      refine ⟨hends, n, hx.trans hn, (hsame.has hhas).mono hle, ?_, ?_⟩
      · rw [hnode]
        exact hlabel
      · rw [hnode]
        exact ReadsItems.congr hsame hle groups _ (hsame.links hhas) hitems

theorem ReadsItems.congr (hsame : Unchanged h h' R) (hle : R ≤ S) :
    ∀ (groups : List (List Content)) (items : List (Item Nat)),
      (∀ x ∈ items.flatMap Item.links, h'.childOf x = h.childOf x) →
      h.ReadsItems ends R groups items → h'.ReadsItems ends S groups items
  | [], [], _, _ => trivial
  | ts :: groups, item :: items, hx, hread => by
      rw [List.flatMap_cons, List.forall_mem_append] at hx
      exact ⟨ReadsLinks.congr hsame hle ts _ hx.1 hread.1,
        ReadsItems.congr hsame hle groups items hx.2 hread.2⟩
  | [], _ :: _, _, hread => hread.elim
  | _ :: _, [], _, hread => hread.elim

theorem ReadsLinks.congr (hsame : Unchanged h h' R) (hle : R ≤ S) :
    ∀ (ts : List Content) (xs : List Nat), (∀ x ∈ xs, h'.childOf x = h.childOf x) →
      h.ReadsLinks ends R ts xs → h'.ReadsLinks ends S ts xs
  | [], [], _, _ => trivial
  | t :: ts, x :: xs, hx, hread => by
      rw [List.forall_mem_cons] at hx
      exact ⟨ReadsLink.congr hsame hle t x hx.1 hread.1,
        ReadsLinks.congr hsame hle ts xs hx.2 hread.2⟩
  | [], _ :: _, _, hread => hread.elim
  | _ :: _, [], _, hread => hread.elim

end

theorem ReadsNode.congr (hsame : Unchanged h h' R) (hle : R ≤ S)
    (hread : h.ReadsNode ends R t n) : h'.ReadsNode ends S t n := by
  obtain ⟨hhas, groups, rfl, hitems⟩ := hread
  have hnode := hsame.nodeAt n hhas
  refine ⟨(hsame.has hhas).mono hle, groups, ?_, ?_⟩
  · rw [hnode]
  · rw [hnode]
    exact ReadsItems.congr hsame hle groups _ (hsame.links hhas) hitems

theorem Unchanged.refl (h : TreeHeap) (R : Region) : Unchanged h h R :=
  ⟨Nat.le_refl _, fun _ _ => rfl, fun _ _ _ _ => rfl⟩

/-- **A step that changes only a region**, and adds to memory; a link that has a child
keeps it. -/
structure ChangesOnly (h h' : TreeHeap) (R : Region) : Prop where
  node_le : h.nextNode ≤ h'.nextNode
  link_le : h.nextLink ≤ h'.nextLink
  nodeAt : ∀ n, n < h.nextNode → n ∉ R.1 → h'.nodeAt n = h.nodeAt n
  identifier : ∀ n, n < h.nextNode → (h.nodeAt n).kind = .identifier →
    h'.nodeAt n = h.nodeAt n
  kind : ∀ n, n < h.nextNode → (h'.nodeAt n).kind = (h.nodeAt n).kind
  childOf : ∀ x, x < h.nextLink → x ∉ R.2 → h'.childOf x = h.childOf x
  keeps : ∀ x, x < h.nextLink → ∀ n, h.childOf x = some n → h'.childOf x = some n

namespace ChangesOnly

theorem refl (h : TreeHeap) (R : Region) : ChangesOnly h h R :=
  ⟨Nat.le_refl _, Nat.le_refl _, fun _ _ _ => rfl, fun _ _ _ => rfl, fun _ _ => rfl,
    fun _ _ _ => rfl, fun _ _ _ hn => hn⟩

theorem of_grows (hgrows : h.Grows h') (R : Region) : ChangesOnly h h' R :=
  ⟨hgrows.node_le, hgrows.link_le, fun n hn _ => hgrows.nodeAt n hn,
    fun n hn _ => hgrows.nodeAt n hn, fun n hn => by rw [hgrows.nodeAt n hn],
    fun x hx _ => hgrows.childOf x hx, fun x hx n hn => (hgrows.childOf x hx).trans hn⟩

/-- Two steps change what either changes; what the second changes may be new. -/
theorem trans (h1 : ChangesOnly h h' R) (h2 : ChangesOnly h' h'' S)
    (hle : S ≤ R ⊔ unused h) : ChangesOnly h h'' R where
  node_le := Nat.le_trans h1.node_le h2.node_le
  link_le := Nat.le_trans h1.link_le h2.link_le
  nodeAt n hn hout := by
    have hS : n ∉ S.1 := by
      intro hmem
      rcases hle.1 hmem with hR | hnew
      · exact hout hR
      · exact absurd hn (Nat.not_lt_of_le hnew)
    rw [h2.nodeAt n (Nat.lt_of_lt_of_le hn h1.node_le) hS, h1.nodeAt n hn hout]
  identifier n hn hkind := by
    have hsame := h1.identifier n hn hkind
    rw [h2.identifier n (Nat.lt_of_lt_of_le hn h1.node_le) (by rw [hsame]; exact hkind), hsame]
  kind n hn := by
    rw [h2.kind n (Nat.lt_of_lt_of_le hn h1.node_le), h1.kind n hn]
  childOf x hx hout := by
    have hS : x ∉ S.2 := by
      intro hmem
      rcases hle.2 hmem with hR | hnew
      · exact hout hR
      · exact absurd hx (Nat.not_lt_of_le hnew)
    rw [h2.childOf x (Nat.lt_of_lt_of_le hx h1.link_le) hS, h1.childOf x hx hout]
  keeps x hx n hn := h2.keeps x (Nat.lt_of_lt_of_le hx h1.link_le) n (h1.keeps x hx n hn)

theorem mono (h1 : ChangesOnly h h' R) (hle : R ≤ S) : ChangesOnly h h' S where
  node_le := h1.node_le
  link_le := h1.link_le
  nodeAt n hn hout := h1.nodeAt n hn fun hmem => hout (hle.1 hmem)
  identifier := h1.identifier
  kind := h1.kind
  childOf x hx hout := h1.childOf x hx fun hmem => hout (hle.2 hmem)
  keeps := h1.keeps

variable (hsteps : ChangesOnly h h' R) (hapart : Disjoint R S)

include hsteps hapart

/-- A link of another region leads where it led. -/
theorem child (howned : h.Owned S) (hx : x ∈ S.2) : h'.childOf x = h.childOf x :=
  hsteps.childOf x (howned.link_lt x hx)
    (Set.disjoint_right.mp (Prod.disjoint_iff.mp hapart).2 hx)

/-- **The frame rule**: another region is unchanged. -/
theorem unchanged (howned : h.Owned S) : Unchanged h h' S where
  node_le := hsteps.node_le
  nodeAt n hhas := by
    rcases hhas.2 with hn | hkind
    · exact hsteps.nodeAt n hhas.1 (Set.disjoint_right.mp (Prod.disjoint_iff.mp hapart).1 hn)
    · exact hsteps.identifier n hhas.1 hkind
  childOf n hn x hx := child hsteps hapart howned (howned.links n hn x hx)

/-- And as it was owned. -/
theorem owned (howned : h.Owned S) : h'.Owned S := by
  have hnode : ∀ n ∈ S.1, h'.nodeAt n = h.nodeAt n := fun n hn =>
    (unchanged hsteps hapart howned).nodeAt n ⟨howned.node_lt n hn, Or.inl hn⟩
  refine ⟨fun n hn => Nat.lt_of_lt_of_le (howned.node_lt n hn) hsteps.node_le,
    fun x hx => Nat.lt_of_lt_of_le (howned.link_lt x hx) hsteps.link_le, ?_, ?_, ?_⟩
  · intro n hn
    rw [hnode n hn]
    exact howned.links n hn
  · intro n hn
    rw [hnode n hn]
    exact howned.nodup n hn
  · intro n hn m hm
    rw [hnode n hn, hnode m hm]
    exact howned.owner n hn m hm

end ChangesOnly

/-- Two regions that are apart are owned together. -/
theorem Owned.sup (hR : h.Owned R) (hS : h.Owned S) (hapart : Disjoint R S) :
    h.Owned (R ⊔ S) := by
  have hlinks : ∀ x, x ∈ R.2 → x ∉ S.2 := fun x hx =>
    Set.disjoint_left.mp (Prod.disjoint_iff.mp hapart).2 hx
  refine ⟨?_, ?_, ?_, ?_, ?_⟩
  · exact fun n hn => hn.elim (hR.node_lt n) (hS.node_lt n)
  · exact fun x hx => hx.elim (hR.link_lt x) (hS.link_lt x)
  · exact fun n hn x hx => hn.imp (fun hn => hR.links n hn x hx) (fun hn => hS.links n hn x hx)
  · exact fun n hn => hn.elim (hR.nodup n) (hS.nodup n)
  · intro n hn m hm x hxn hxm
    rcases hn with hn | hn <;> rcases hm with hm | hm
    · exact hR.owner n hn m hm x hxn hxm
    · exact absurd (hS.links m hm x hxm) (hlinks x (hR.links n hn x hxn))
    · exact absurd (hS.links n hn x hxn) (hlinks x (hR.links m hm x hxm))
    · exact hS.owner n hn m hm x hxn hxm

theorem Owned.le_used (hR : h.Owned R) : R ≤ used h :=
  ⟨fun n hn => hR.node_lt n hn, fun x hx => hR.link_lt x hx⟩

/-- What is in memory is apart from what is not. -/
theorem disjoint_unused (hR : R ≤ used h) : Disjoint R (unused h) := by
  refine Prod.disjoint_iff.mpr ⟨Set.disjoint_left.mpr ?_, Set.disjoint_left.mpr ?_⟩
  · exact fun n hn hnew => absurd (hR.1 hn) (Nat.not_lt_of_le hnew)
  · exact fun x hx hnew => absurd (hR.2 hx) (Nat.not_lt_of_le hnew)

theorem used_mono (hsteps : ChangesOnly h h' R) : used h ≤ used h' :=
  ⟨fun _ hn => Nat.lt_of_lt_of_le hn hsteps.node_le,
    fun _ hx => Nat.lt_of_lt_of_le hx hsteps.link_le⟩

theorem between_le_unused (h h' : TreeHeap) : between h h' ≤ unused h :=
  ⟨fun _ hn => hn.1, fun _ hx => hx.1⟩

theorem unused_mono (hsteps : ChangesOnly h h' R) : unused h' ≤ unused h :=
  ⟨fun _ hn => Nat.le_trans hsteps.node_le hn, fun _ hx => Nat.le_trans hsteps.link_le hx⟩

mutual

/-- A hole below a link is NULL. -/
theorem ReadsLink.null {y : Nat} : ∀ (t : Content) (x : Nat), h.ReadsLink [] R t x →
    y ∈ holes t → h.childOf y = none
  | .hole z, x, hread, hy => by
      obtain rfl : y = z := List.mem_singleton.mp hy
      obtain ⟨rfl, hends | hnull⟩ := hread
      · exact absurd hends List.not_mem_nil
      · exact hnull
  | .node _ groups, _, hread, hy => by
      obtain ⟨_, n, _, _, _, hitems⟩ := hread
      exact ReadsItems.null groups _ hitems hy

theorem ReadsItems.null {y : Nat} : ∀ (groups : List (List Content)) (items : List (Item Nat)),
    h.ReadsItems [] R groups items → y ∈ holesIn groups → h.childOf y = none
  | [], _, _, hy => absurd hy List.not_mem_nil
  | ts :: groups, item :: items, hread, hy => by
      rcases List.mem_append.mp hy with hy | hy
      · exact ReadsLinks.null ts _ hread.1 hy
      · exact ReadsItems.null groups items hread.2 hy
  | _ :: _, [], hread, _ => hread.elim

theorem ReadsLinks.null {y : Nat} : ∀ (ts : List Content) (xs : List Nat),
    h.ReadsLinks [] R ts xs → y ∈ holesAll ts → h.childOf y = none
  | [], _, _, hy => absurd hy List.not_mem_nil
  | t :: ts, x :: xs, hread, hy => by
      rcases List.mem_append.mp hy with hy | hy
      · exact ReadsLink.null t x hread.1 hy
      · exact ReadsLinks.null ts xs hread.2 hy
  | _ :: _, [], hread, _ => hread.elim

end

/-! ## §5. Free zones. -/

/-- What the base of a free zone reads as: the elements of a container, or one tree. -/
def ReadsBase (h : TreeHeap) (R : Region) (us : List Content) (b : Nat) : Prop :=
  ((h.nodeAt b).kind = .subContainer ∧ h.Has R b ∧ ∃ item, (h.nodeAt b).items = [item]
    ∧ item.mode = .container ∧ h.ReadsLinks [] R us item.links) ∨
  ((h.nodeAt b).kind ≠ .subContainer ∧ ∃ t, us = [t] ∧ h.ReadsNode [] R t b)

/-- **What a free zone reads as**, over a region that it owns: trees whose holes are the
placeholders that its terminii stand at. -/
structure ReadsFree (h : TreeHeap) (R : Region) (z : FreeZone) (us : List Content) : Prop where
  base : ∃ b, z.base = some b ∧ h.ReadsBase R us b
  owned : h.Owned R
  holes : (holesAll us).Perm (z.terminii.map Mutator.slot)
  nodup : (z.terminii.map Mutator.slot).Nodup
  placed : ∀ m ∈ z.terminii, m.parentNode ∈ R.1 ∧ (h.nodeAt m.parentNode).HasPlace m

section

variable {Q : Region} {z : FreeZone} {us : List Content}

theorem ReadsBase.has {b : Nat} (hbase : h.ReadsBase R us b) : h.Has R b := by
  rcases hbase with ⟨_, hhas, _⟩ | ⟨_, _, _, hhas, _⟩
  · exact hhas
  · exact hhas

theorem ReadsBase.congr {b : Nat} (hsame : Unchanged h h' R) (hbase : h.ReadsBase R us b) :
    h'.ReadsBase R us b := by
  have hnode := hsame.nodeAt b hbase.has
  rcases hbase with ⟨hkind, hhas, item, hitems, hmode, hread⟩ | ⟨hkind, t, rfl, hread⟩
  · refine Or.inl ⟨by rw [hnode]; exact hkind, hsame.has hhas, item, by rw [hnode]; exact hitems,
      hmode, ?_⟩
    have hlinks : ∀ x ∈ item.links, h'.childOf x = h.childOf x := by
      intro x hx
      apply hsame.links hhas
      unfold NodeRecord.links
      rw [hitems, List.flatMap_singleton]
      exact hx
    exact ReadsLinks.congr hsame (le_refl R) us _ hlinks hread
  · exact Or.inr ⟨by rw [hnode]; exact hkind, t, rfl, hread.congr hsame (le_refl R)⟩

/-- **A zone is framed** by its region. -/
theorem ReadsFree.frame (hz : h.ReadsFree R z us) (hsteps : ChangesOnly h h' Q)
    (hapart : Disjoint Q R) : h'.ReadsFree R z us where
  base := by
    obtain ⟨b, hb, hbase⟩ := hz.base
    exact ⟨b, hb, hbase.congr (hsteps.unchanged hapart hz.owned)⟩
  owned := hsteps.owned hapart hz.owned
  holes := hz.holes
  nodup := hz.nodup
  placed m hm := by
    have hplace := hz.placed m hm
    refine ⟨hplace.1, ?_⟩
    rw [(hsteps.unchanged hapart hz.owned).nodeAt _
      ⟨hz.owned.node_lt _ hplace.1, Or.inl hplace.1⟩]
    exact hplace.2

/-- A placeholder is a link of its node. -/
theorem ReadsFree.slot_mem (hz : h.ReadsFree R z us) {m : Mutator} (hm : m ∈ z.terminii) :
    m.slot ∈ (h.nodeAt m.parentNode).links ∧ m.slot ∈ R.2 := by
  obtain ⟨hparent, item, hget, hslot, _⟩ := hz.placed m hm
  have hlink : m.slot ∈ (h.nodeAt m.parentNode).links :=
    List.mem_flatMap.mpr ⟨item, List.mem_of_getElem? hget, hslot⟩
  exact ⟨hlink, hz.owned.links _ hparent _ hlink⟩

/-- The holes are NULL. -/
theorem ReadsFree.null (hz : h.ReadsFree R z us) {y : Nat} (hy : y ∈ holesAll us) :
    h.childOf y = none := by
  obtain ⟨b, _, hbase⟩ := hz.base
  rcases hbase with ⟨_, _, item, _, _, hread⟩ | ⟨_, t, rfl, _, groups, rfl, hread⟩
  · exact ReadsLinks.null us _ hread hy
  · rw [holesAll_singleton] at hy
    exact ReadsItems.null groups _ hread hy

theorem ReadsFree.slot_null (hz : h.ReadsFree R z us) {m : Mutator} (hm : m ∈ z.terminii) :
    h.childOf m.slot = none :=
  hz.null (hz.holes.mem_iff.mpr (List.mem_map_of_mem hm))

end

end TreeHeap

end Inferno.DB
