/-
  Inferno.DB.DuplicateExact
  ─────────────────────────
  What `Duplicate` makes of a tree.

    • `Made`, `Inside`   — new memory, with a placeholder and a mutator for each terminus,
    • `Copied`           — a duplicate: the same tree, but for the placeholders,
    • `links_spec`, `items_spec`, `subtreeWorker_spec` — the loops and the recursion,
    • `duplicate_spec`   — the free zone, with its terminii in the order of the zone's,
    • `duplicate_empty`  — of an empty zone there is none.

  A duplicate is the same tree in any later memory that keeps what was made, with the
  placeholders filled or not.
-/
import Inferno.DB.HeapTrees

namespace Inferno.DB

open Inferno.Common Inferno.Helpers Update

/-! ## §1. Running updates. -/

namespace TreeHeap

/-- The memory with a new link. -/
def addLink (h : TreeHeap) (child : Option Nat) : TreeHeap :=
  { h with childOf := Function.update h.childOf h.nextLink child, nextLink := h.nextLink + 1 }

/-- The memory with a new node. -/
def addNode (h : TreeHeap) (record : NodeRecord) : TreeHeap :=
  { h with nodeAt := Function.update h.nodeAt h.nextNode record, nextNode := h.nextNode + 1 }

/-- The memory with another record of a node. -/
def putNode (h : TreeHeap) (n : Nat) (record : NodeRecord) : TreeHeap :=
  { h with nodeAt := Function.update h.nodeAt n record }

end TreeHeap

/-- A node with other members. -/
def NodeRecord.withItems (r : NodeRecord) (items : List (Item Nat))
    (hkind : r.kind ≠ .identifier) : NodeRecord :=
  { r with items := items, identifier_items := fun h => absurd h hkind }

namespace Update

variable {A B : Type} {h h' : TreeHeap}

theorem run_bind {x : Update A} {f : A → Update B} {a : A} (hx : x h = some (a, h')) :
    (x >>= f) h = f a h' := by
  show Option.bind (x h) _ = _
  rw [hx]
  rfl

theorem run_pure (a : A) (h : TreeHeap) : (pure a : Update A) h = some (a, h) := rfl

theorem run_assert {p : Prop} [Decidable p] (hp : p) (h : TreeHeap) :
    assert p h = some ((), h) := by
  unfold assert
  rw [if_pos hp]
  rfl

theorem run_newLink (child : Option Nat) (h : TreeHeap) :
    newLink child h = some (h.nextLink, h.addLink child) := rfl

theorem run_newNode (record : NodeRecord) (h : TreeHeap) :
    newNode record h = some (h.nextNode, h.addNode record) := rfl

theorem run_setItems {n : Nat} (items : List (Item Nat))
    (hkind : (h.nodeAt n).kind ≠ .identifier) :
    setItems n items h = some ((), h.putNode n ((h.nodeAt n).withItems items hkind)) := by
  show (if hk : (h.nodeAt n).kind = .identifier then _ else _ : Update Unit) h = _
  rw [dif_neg hkind]
  rfl

end Update

namespace Duplicate

open TreeHeap

/-! ## §2. What is made. -/

/-- The placeholders. -/
def slots (found : List (Nat × Mutator)) : List Nat := found.map fun p => p.2.slot

/-- **New memory**: what was there is as it was, and the placeholders are new. -/
structure Made (h h' : TreeHeap) (found : List (Nat × Mutator)) : Prop where
  grows : h.Grows h'
  fresh : ∀ x ∈ slots found, h.nextLink ≤ x ∧ x < h'.nextLink
  null : ∀ x ∈ slots found, h'.childOf x = none
  nodup : (slots found).Nodup

variable {h h₁ h₂ h'' : TreeHeap} {found found' : List (Nat × Mutator)}

theorem slots_append : slots (found ++ found') = slots found ++ slots found' :=
  List.map_append

theorem Made.nil (hgrows : h.Grows h₁) : Made h h₁ [] where
  grows := hgrows
  fresh _ hx := absurd hx List.not_mem_nil
  null _ hx := absurd hx List.not_mem_nil
  nodup := List.nodup_nil

theorem Made.append (h1 : Made h h₁ found) (h2 : Made h₁ h₂ found') :
    Made h h₂ (found ++ found') where
  grows := h1.grows.trans h2.grows
  fresh x hx := by
    have hle1 := h1.grows.link_le
    have hle2 := h2.grows.link_le
    rw [slots_append, List.mem_append] at hx
    rcases hx with hx | hx
    · have hlt := h1.fresh x hx
      omega
    · have hlt := h2.fresh x hx
      omega
  null x hx := by
    rw [slots_append, List.mem_append] at hx
    rcases hx with hx | hx
    · rw [h2.grows.childOf x (h1.fresh x hx).2]
      exact h1.null x hx
    · exact h2.null x hx
  nodup := by
    rw [slots_append]
    refine h1.nodup.append h2.nodup fun x hx hx' => ?_
    have hlt := (h1.fresh x hx).2
    have hle := (h2.fresh x hx').1
    omega

/-- What is kept of two pieces is kept of the first. -/
theorem Made.keeps_left (h2 : Made h₁ h₂ found')
    (hkeeps : Keeps h h₂ (slots (found ++ found')) h'') : Keeps h h₁ (slots found) h'' where
  nodeAt n hle hlt := by
    rw [hkeeps.nodeAt n hle (by have := h2.grows.node_le; omega), h2.grows.nodeAt n hlt]
  childOf x hle hlt hx := by
    have hnot : x ∉ slots (found ++ found') := by
      rw [slots_append, List.mem_append]
      rintro (hx' | hx')
      · exact hx hx'
      · have hge := (h2.fresh x hx').1
        omega
    rw [hkeeps.childOf x hle (by have := h2.grows.link_le; omega) hnot, h2.grows.childOf x hlt]

/-- And of the second. -/
theorem Made.keeps_right (h1 : Made h h₁ found)
    (hkeeps : Keeps h h₂ (slots (found ++ found')) h'') : Keeps h₁ h₂ (slots found') h'' where
  nodeAt n hle hlt := hkeeps.nodeAt n (by have := h1.grows.node_le; omega) hlt
  childOf x hle hlt hx := by
    have hnot : x ∉ slots (found ++ found') := by
      rw [slots_append, List.mem_append]
      rintro (hx' | hx')
      · have hge := (h1.fresh x hx').2
        omega
      · exact hx hx'
    exact hkeeps.childOf x (by have := h1.grows.link_le; omega) hlt hnot

end Duplicate

/-- The mutator stands at a link of the node. -/
def NodeRecord.HasPlace (r : NodeRecord) (m : Mutator) : Prop :=
  ∃ item, r.items[m.item]? = some item ∧ m.slot ∈ item.links ∧ m.mode = item.mode

namespace Duplicate

open TreeHeap

/-- The mutator stands in a node made between. -/
structure Inside (h h' : TreeHeap) (m : Mutator) : Prop where
  parent_ge : h.nextNode ≤ m.parentNode
  parent_lt : m.parentNode < h'.nextNode
  place : (h'.nodeAt m.parentNode).HasPlace m

theorem Inside.mono {h h' h₁ h₂ : TreeHeap} {m : Mutator} (hin : Inside h₁ h₂ m)
    (h1 : h.Grows h₁) (h2 : h₂.Grows h') : Inside h h' m where
  parent_ge := Nat.le_trans h1.node_le hin.parent_ge
  parent_lt := Nat.lt_of_lt_of_le hin.parent_lt h2.node_le
  place := by
    rw [h2.nodeAt _ hin.parent_lt]
    exact hin.place

/-! ## §3. Duplicates. -/

variable (h₀ : TreeHeap) (ts : List Nat)

/-- **A duplicate** `d` of the tree at `n`, made from `h` to `h'`. -/
structure Copied (k n : Nat) (h h' : TreeHeap) (d : Nat) (found : List (Nat × Mutator)) :
    Prop where
  made : Made h h' found
  met : found.map Prod.fst = h₀.terminiiMet ts k n
  inside : ∀ p ∈ found, Inside h h' p.2
  same : ∀ (h'' : TreeHeap) (P : Nat → Nat → Prop), h₀.Grows h'' →
    Keeps h h' (slots found) h'' → (∀ p ∈ found, P p.1 p.2.slot) → h''.SameUpTo P k n d

/-- The duplicate of a list of links, as links of item `i` of `dest`. -/
structure CopiedLinks (k dest i : Nat) (mode : Mode) (xs : List Nat) (h h' : TreeHeap)
    (ys : List Nat) (found : List (Nat × Mutator)) : Prop where
  made : Made h h' found
  met : found.map Prod.fst = xs.flatMap fun x =>
    if x ∈ ts then [x] else (h₀.childOf x).elim [] (h₀.terminiiMet ts k)
  inside : ∀ p ∈ found, Inside h h' p.2 ∨ (p.2 = ⟨mode, dest, i, p.2.slot⟩ ∧ p.2.slot ∈ ys)
  same : ∀ (h'' : TreeHeap) (P : Nat → Nat → Prop), h₀.Grows h'' →
    Keeps h h' (slots found) h'' → (∀ p ∈ found, P p.1 p.2.slot) →
    List.Forall₂ (h''.SameLink P k) xs ys

/-- The duplicates of the items of a node from item `i` on. -/
structure CopiedItems (k dest i : Nat) (items : List (Item Nat)) (h h' : TreeHeap)
    (items' : List (Item Nat)) (found : List (Nat × Mutator)) : Prop where
  made : Made h h' found
  met : found.map Prod.fst = (items.flatMap Item.links).flatMap fun x =>
    if x ∈ ts then [x] else (h₀.childOf x).elim [] (h₀.terminiiMet ts k)
  inside : ∀ p ∈ found, Inside h h' p.2 ∨ (p.2.parentNode = dest ∧ i ≤ p.2.item ∧
    ∃ item, items'[p.2.item - i]? = some item ∧ p.2.slot ∈ item.links ∧ p.2.mode = item.mode)
  same : ∀ (h'' : TreeHeap) (P : Nat → Nat → Prop), h₀.Grows h'' →
    Keeps h h' (slots found) h'' → (∀ p ∈ found, P p.1 p.2.slot) →
    List.Forall₂ (Item.Rel (h''.SameLink P k)) items items'

variable {h₀ ts} {k dest i : Nat} {mode : Mode} {h h₁ h₂ : TreeHeap}
  {found found' : List (Nat × Mutator)}

theorem CopiedLinks.append {xs xs' ys ys' : List Nat}
    (h1 : CopiedLinks h₀ ts k dest i mode xs h h₁ ys found)
    (h2 : CopiedLinks h₀ ts k dest i mode xs' h₁ h₂ ys' found') :
    CopiedLinks h₀ ts k dest i mode (xs ++ xs') h h₂ (ys ++ ys') (found ++ found') where
  made := h1.made.append h2.made
  met := by rw [List.map_append, List.flatMap_append, h1.met, h2.met]
  inside p hp := by
    rcases List.mem_append.mp hp with hp | hp
    · refine (h1.inside p hp).imp (fun hin => hin.mono (Grows.refl h) h2.made.grows) ?_
      exact fun hat => ⟨hat.1, List.mem_append_left _ hat.2⟩
    · refine (h2.inside p hp).imp (fun hin => hin.mono h1.made.grows (Grows.refl h₂)) ?_
      exact fun hat => ⟨hat.1, List.mem_append_right _ hat.2⟩
  same h'' P hgrows hkeeps hP := by
    have hP1 := fun p hp => hP p (List.mem_append_left _ hp)
    have hP2 := fun p hp => hP p (List.mem_append_right _ hp)
    exact List.rel_append (h1.same h'' P hgrows (h2.made.keeps_left hkeeps) hP1)
      (h2.same h'' P hgrows (h1.made.keeps_right hkeeps) hP2)

theorem CopiedItems.cons {item : Item Nat} (item' : Item Nat) {items items' : List (Item Nat)}
    (h1 : CopiedLinks h₀ ts k dest i item.mode item.links h h₁ item'.links found)
    (hrel : ∀ R : Nat → Nat → Prop, List.Forall₂ R item.links item'.links →
      Item.Rel R item item') (hmode : item'.mode = item.mode)
    (h2 : CopiedItems h₀ ts k dest (i + 1) items h₁ h₂ items' found') :
    CopiedItems h₀ ts k dest i (item :: items) h h₂ (item' :: items') (found ++ found') where
  made := h1.made.append h2.made
  met := by rw [List.map_append, List.flatMap_cons, List.flatMap_append, h1.met, h2.met]
  -- the terminii of the first item stand at place `i`, those of the rest behind it
  inside p hp := by
    rcases List.mem_append.mp hp with hp | hp
    · refine (h1.inside p hp).imp (fun hin => hin.mono (Grows.refl h) h2.made.grows) ?_
      rintro ⟨heq, hmem⟩
      rw [heq]
      refine ⟨rfl, Nat.le_refl i, item', ?_, hmem, hmode.symm⟩
      show (item' :: items')[i - i]? = some item'
      rw [Nat.sub_self]
      rfl
    · refine (h2.inside p hp).imp (fun hin => hin.mono h1.made.grows (Grows.refl h₂)) ?_
      rintro ⟨hparent, hle, item'', hget, hmem, hm⟩
      refine ⟨hparent, by omega, item'', ?_, hmem, hm⟩
      have hsub : p.2.item - i = (p.2.item - (i + 1)) + 1 := by omega
      rw [hsub]
      exact hget
  same h'' P hgrows hkeeps hP := by
    have hP1 := fun p hp => hP p (List.mem_append_left _ hp)
    have hP2 := fun p hp => hP p (List.mem_append_right _ hp)
    exact List.Forall₂.cons
      (hrel _ (h1.same h'' P hgrows (h2.made.keeps_left hkeeps) hP1))
      (h2.same h'' P hgrows (h1.made.keeps_right hkeeps) hP2)

/-! ## §4. The loops. -/

/-- What the recursion does with the children of a node. -/
def Works (h₀ : TreeHeap) (ts : List Nat) (k fuel : Nat)
    (worker : Nat → Update (Nat × List (Nat × Mutator))) : Prop :=
  ∀ (h : TreeHeap) (c : Nat), h₀.Grows h → h₀.IsTree k c →
    (h₀.linksBelow k c).length < fuel →
    ∃ d found h', worker c h = some ((d, found), h') ∧ Copied h₀ ts k c h h' d found

/-- A link with a tree below it that is not too deep. -/
def HasTree (h₀ : TreeHeap) (k fuel x : Nat) : Prop :=
  x < h₀.nextLink ∧ ∃ c, h₀.childOf x = some c ∧ h₀.IsTree k c
    ∧ (h₀.linksBelow k c).length < fuel

variable {fuel : Nat} {worker : Nat → Update (Nat × List (Nat × Mutator))}

/-- A new link changes nothing that was there. -/
theorem made_addLink (child : Option Nat) : Made h (h.addLink child) [] := by
  refine Made.nil ⟨Nat.le_refl _, Nat.le_succ _, fun _ _ => rfl, fun x hx => ?_⟩
  exact Function.update_of_ne (by omega) _ _

/-- A terminus becomes a placeholder. -/
theorem copiedLinks_terminus {x : Nat} (hmem : x ∈ ts) :
    CopiedLinks h₀ ts k dest i mode [x] h (h.addLink none) [h.nextLink]
      [(x, ⟨mode, dest, i, h.nextLink⟩)] where
  made := by
    refine ⟨(made_addLink none).grows, ?_, ?_, List.nodup_singleton _⟩
    · intro y hy
      rw [show y = h.nextLink from List.mem_singleton.mp hy]
      exact ⟨Nat.le_refl _, Nat.lt_succ_self _⟩
    · intro y hy
      rw [show y = h.nextLink from List.mem_singleton.mp hy]
      exact Function.update_self _ _ _
  met := by
    rw [List.flatMap_singleton, if_pos hmem]
    rfl
  inside p hp := by
    rw [List.mem_singleton.mp hp]
    exact Or.inr ⟨rfl, List.mem_singleton_self _⟩
  same h'' P _ _ hP :=
    List.Forall₂.cons (Or.inl (hP _ (List.mem_singleton_self _))) List.Forall₂.nil

/-- Any other link becomes a link to the duplicate of its child. -/
theorem copiedLinks_child {x c d : Nat} (hmem : x ∉ ts) (hlt : x < h₀.nextLink)
    (hc : h₀.childOf x = some c) (hcopied : Copied h₀ ts k c h h₁ d found) :
    CopiedLinks h₀ ts k dest i mode [x] h (h₁.addLink (some d)) [h₁.nextLink] found := by
  have hnew := made_addLink (h := h₁) (some d)
  have hmade := hcopied.made.append hnew
  rw [List.append_nil] at hmade
  refine ⟨hmade, ?_, ?_, ?_⟩
  · rw [List.flatMap_singleton, if_neg hmem, hc]
    exact hcopied.met
  · intro p hp
    exact Or.inl ((hcopied.inside p hp).mono (Grows.refl h) hnew.grows)
  · intro h'' P hgrows hkeeps hP
    have hsub := hcopied.same h'' P hgrows (hnew.keeps_left (by rwa [List.append_nil])) hP
    have hlink : h''.childOf h₁.nextLink = some d := by
      rw [hkeeps.childOf h₁.nextLink hcopied.made.grows.link_le (Nat.lt_succ_self _)]
      · exact Function.update_self _ _ _
      · intro hslot
        exact absurd (hcopied.made.fresh _ hslot).2 (Nat.lt_irrefl _)
    have hx : h''.childOf x = some c := by rw [hgrows.childOf x hlt, hc]
    exact List.Forall₂.cons (Or.inr ⟨c, d, hx, hlink, hsub⟩) List.Forall₂.nil

theorem links_spec (dest i : Nat) (mode : Mode) (hworker : Works h₀ ts k fuel worker)
    {xs : List Nat}
    (hxs : ∀ x ∈ xs, HasTree h₀ k fuel x) : ∀ {h : TreeHeap}, h₀.Grows h →
    ∃ ys found h', Duplicate.links ts worker dest i mode xs h = some ((ys, found), h')
      ∧ CopiedLinks h₀ ts k dest i mode xs h h' ys found := by
  induction xs with
  | nil =>
      intro h _
      refine ⟨[], [], h, rfl, Made.nil (Grows.refl h), rfl, ?_, ?_⟩
      · exact fun p hp => absurd hp List.not_mem_nil
      · exact fun _ _ _ _ _ => List.Forall₂.nil
  | cons x xs ih =>
      intro h hgrows
      rw [List.forall_mem_cons] at hxs
      obtain ⟨⟨hlt, c, hc, htree, hfuel⟩, hxs⟩ := hxs
      have hchild : getChild x h = some (some c, h) := by
        show some (h.childOf x, h) = _
        rw [hgrows.childOf x hlt, hc]
      -- the link, and the memory after it
      have hone : ∃ y found h₁, (if x ∈ ts then do
            let slot ← newLink none
            return (slot, [(x, ⟨mode, dest, i, slot⟩)])
          else do
            let copied ← worker c
            return (← newLink (some copied.1), copied.2) : Update (Nat × List (Nat × Mutator))) h
            = some ((y, found), h₁) ∧ CopiedLinks h₀ ts k dest i mode [x] h h₁ [y] found := by
        by_cases hmem : x ∈ ts
        · rw [if_pos hmem]
          exact ⟨_, _, _, rfl, copiedLinks_terminus hmem⟩
        · rw [if_neg hmem]
          obtain ⟨d, found, h₁, hrun, hcopied⟩ := hworker h c hgrows htree hfuel
          rw [run_bind hrun]
          exact ⟨_, _, _, rfl, copiedLinks_child hmem hlt hc hcopied⟩
      obtain ⟨y, found, h₁, hrun, hcopied⟩ := hone
      obtain ⟨ys, found', h₂, hrun', hcopied'⟩ := ih hxs (hgrows.trans hcopied.made.grows)
      refine ⟨y :: ys, found ++ found', h₂, ?_, hcopied.append hcopied'⟩
      rw [Duplicate.links]
      refine (run_bind hchild).trans ?_
      refine (run_bind hrun).trans ?_
      refine (run_bind hrun').trans ?_
      rfl

theorem CopiedLinks.length_eq {xs ys : List Nat}
    (hcopied : CopiedLinks h₀ ts k dest i mode xs h h₁ ys found) (hgrows : h₀.Grows h) :
    xs.length = ys.length :=
  (hcopied.same h₁ (fun _ _ => True) (hgrows.trans hcopied.made.grows)
    ⟨fun _ _ _ => rfl, fun _ _ _ _ => rfl⟩ (fun _ _ => trivial)).length_eq

theorem items_spec (dest : Nat) (hworker : Works h₀ ts k fuel worker)
    {items : List (Item Nat)} : ∀ {i : Nat} {h : TreeHeap},
    (∀ x ∈ items.flatMap Item.links, HasTree h₀ k fuel x) →
    h₀.Grows h → ∃ items' found h',
      Duplicate.items ts worker dest i items h = some ((items', found), h')
        ∧ CopiedItems h₀ ts k dest i items h h' items' found := by
  induction items with
  | nil =>
      intro i h _ _
      refine ⟨[], [], h, rfl, Made.nil (Grows.refl h), rfl, ?_, ?_⟩
      · exact fun p hp => absurd hp List.not_mem_nil
      · exact fun _ _ _ _ _ => List.Forall₂.nil
  | cons item items ih =>
      intro i h hxs hgrows
      -- the links of this item, and then the other items
      rw [List.flatMap_cons, List.forall_mem_append] at hxs
      obtain ⟨ys, found, h₁, hrun, hcopied⟩ := links_spec dest i item.mode hworker hxs.1 hgrows
      obtain ⟨items', found', h₂, hrun', hcopied'⟩ :=
        ih (i := i + 1) hxs.2 (hgrows.trans hcopied.made.grows)
      have hlen := hcopied.length_eq hgrows
      -- only how the copied links are put together differs with the item
      rw [Duplicate.items]
      cases item with
      | singular x =>
          obtain ⟨y, rfl⟩ := List.length_eq_one_iff.mp hlen.symm
          refine ⟨.singular y :: items', found ++ found', h₂, ?_, ?_⟩
          · refine (run_bind hrun).trans ?_
            refine (run_bind (run_pure (Item.singular y) h₁)).trans ?_
            refine (run_bind hrun').trans ?_
            rfl
          · refine CopiedItems.cons (.singular y) hcopied (fun R hR => ?_) rfl hcopied'
            cases hR with
            | cons hxy _ => exact .singular hxy
      | sequence xs =>
          refine ⟨.sequence ys :: items', found ++ found', h₂, ?_, ?_⟩
          · refine (run_bind hrun).trans ?_
            refine (run_bind (run_pure (Item.sequence ys) h₁)).trans ?_
            refine (run_bind hrun').trans ?_
            rfl
          · exact CopiedItems.cons (.sequence ys) hcopied (fun R hR => .sequence hR) rfl hcopied'
      | collection xs =>
          refine ⟨.collection ys :: items', found ++ found', h₂, ?_, ?_⟩
          · refine (run_bind hrun).trans ?_
            refine (run_bind (run_pure (Item.collection ys) h₁)).trans ?_
            refine (run_bind hrun').trans ?_
            rfl
          · exact CopiedItems.cons (.collection ys) hcopied (fun R hR => .collection hR) rfl hcopied'

theorem grows_addNode (h : TreeHeap) (record : NodeRecord) : h.Grows (h.addNode record) where
  node_le := Nat.le_succ _
  link_le := Nat.le_refl _
  nodeAt _ hn := Function.update_of_ne (by omega) _ _
  childOf _ _ := rfl

/-- The members of a new node make it the duplicate. -/
theorem copied_putNode {n : Nat} {items : List (Item Nat)}
    {hkind : (h₀.nodeAt n).kind ≠ .identifier} (hlt : n < h₀.nextNode)
    (hcopied : CopiedItems h₀ ts k h.nextNode 0 (h₀.nodeAt n).items
      (h.addNode ((h₀.nodeAt n).withItems [] hkind)) h₂ items found)
    (hdest : h₂.nodeAt h.nextNode = (h₀.nodeAt n).withItems [] hkind)
    (hkind₂ : (h₂.nodeAt h.nextNode).kind ≠ .identifier) :
    Copied h₀ ts (k + 1) n h
      (h₂.putNode h.nextNode ((h₂.nodeAt h.nextNode).withItems items hkind₂)) h.nextNode found := by
  have hnew := grows_addNode h ((h₀.nodeAt n).withItems [] hkind)
  have hmade := hcopied.made
  have hmiddle : h.nextNode < (h.addNode ((h₀.nodeAt n).withItems [] hkind)).nextNode :=
    Nat.lt_succ_self _
  have hin : h.nextNode < h₂.nextNode := Nat.lt_of_lt_of_le hmiddle hmade.grows.node_le
  -- memory has grown by the node and by what its items made
  refine ⟨⟨⟨?_, ?_, ?_, ?_⟩, ?_, ?_, hmade.nodup⟩, hcopied.met, ?_, ?_⟩
  · exact Nat.le_of_lt hin
  · exact hmade.grows.link_le
  · intro m hm
    have hne : m ≠ h.nextNode := by omega
    show Function.update h₂.nodeAt _ _ m = _
    rw [Function.update_of_ne hne]
    exact (hnew.trans hmade.grows).nodeAt m hm
  · exact hmade.grows.childOf
  · exact hmade.fresh
  · exact hmade.null
  · -- a terminus below an item, or at a link of the node itself
    intro p hp
    rcases hcopied.inside p hp with hin' | ⟨hparent, _, hplace⟩
    · have hge := hin'.parent_ge
      refine ⟨by omega, hin'.parent_lt, ?_⟩
      show (Function.update h₂.nodeAt _ _ p.2.parentNode).HasPlace p.2
      rw [Function.update_of_ne (by omega)]
      exact hin'.place
    · refine ⟨Nat.le_of_eq hparent.symm, by rw [hparent]; exact hin, ?_⟩
      show (Function.update h₂.nodeAt _ _ p.2.parentNode).HasPlace p.2
      rw [hparent, Function.update_self]
      exact hplace
  · -- in any later memory the node reads as the source
    intro h'' P hgrows' hkeeps hP
    have hitems := hcopied.same h'' P hgrows' ?_ hP
    · have hd : h''.nodeAt h.nextNode = (h₂.nodeAt h.nextNode).withItems items hkind₂ := by
        rw [hkeeps.nodeAt _ (Nat.le_refl _) hin]
        exact Function.update_self _ _ _
      have hclass : (h₀.nodeAt n).SameClass (h₂.nodeAt h.nextNode) := by
        rw [hdest]
        exact ⟨hkind, rfl, rfl, rfl⟩
      refine sameUpTo_succ.mpr (Or.inr ⟨?_, ?_⟩)
      · rw [hd, hgrows'.nodeAt n hlt]
        exact ⟨hkind, hclass.kind, hclass.typeIndex, hclass.value⟩
      · rw [hd, hgrows'.nodeAt n hlt]
        exact hitems
    · refine ⟨fun m hle hlt => ?_, hkeeps.childOf⟩
      have hne : m ≠ h.nextNode := by omega
      rw [hkeeps.nodeAt m (by omega) hlt]
      exact Function.update_of_ne hne _ _

/-- **`DuplicateSubtreeWorker`** returns with a duplicate of any tree. -/
theorem subtreeWorker_spec : Works h₀ ts k fuel (Duplicate.subtreeWorker ts fuel) := by
  induction fuel generalizing k with
  | zero => exact fun _ _ _ _ hlt => absurd hlt (Nat.not_lt_zero _)
  | succ fuel ih =>
      intro h n hgrows htree hfuel
      -- a tree of height zero is none
      cases k with
      | zero => exact htree.elim
      | succ k =>
          have hnode : h.nodeAt n = h₀.nodeAt n := hgrows.nodeAt n htree.1
          have hget : getNode n h = some (h₀.nodeAt n, h) := by
            show some (h.nodeAt n, h) = _
            rw [hnode]
          rw [Duplicate.subtreeWorker]
          by_cases hkind : (h₀.nodeAt n).kind = .identifier
          · -- a specific identifier is its own duplicate
            refine ⟨n, [], h, ?_, ?_⟩
            · refine (run_bind hget).trans ?_
              rw [if_pos hkind]
              rfl
            · refine ⟨Made.nil (Grows.refl h), ?_, fun p hp => absurd hp List.not_mem_nil, ?_⟩
              · have hlinks : (h₀.nodeAt n).links = [] := by
                  unfold NodeRecord.links
                  rw [(h₀.nodeAt n).identifier_items hkind]
                  rfl
                show [] = List.flatMap _ (h₀.nodeAt n).links
                rw [hlinks]
                rfl
              · intro h'' P hgrows' _ _
                refine Or.inl ⟨rfl, ?_⟩
                rw [hgrows'.nodeAt n htree.1]
                exact hkind
          · -- another node: a new one, and then its items
            have hnew := grows_addNode h ((h₀.nodeAt n).withItems [] hkind)
            have hchild : ∀ x ∈ (h₀.nodeAt n).links, HasTree h₀ k fuel x := by
              intro x hx
              obtain ⟨hlt, c, hc, hsub⟩ := htree.2.2 x hx
              have hless := length_linksBelow_lt (k := k) hx hc
              exact ⟨hlt, c, hc, hsub, by omega⟩
            obtain ⟨items, found, h₂, hrun, hcopied⟩ :=
              items_spec h.nextNode ih (i := 0) hchild (hgrows.trans hnew)
            have hdest : h₂.nodeAt h.nextNode = (h₀.nodeAt n).withItems [] hkind := by
              rw [hcopied.made.grows.nodeAt _ (Nat.lt_succ_self _)]
              exact Function.update_self _ _ _
            have hkind₂ : (h₂.nodeAt h.nextNode).kind ≠ .identifier := by
              rw [hdest]
              exact hkind
            refine ⟨h.nextNode, found, _, ?_, copied_putNode htree.1 hcopied hdest hkind₂⟩
            refine (run_bind hget).trans ?_
            rw [if_neg hkind]
            refine (run_bind (run_newNode _ h)).trans ?_
            refine (run_bind hrun).trans ?_
            refine (run_bind (run_setItems items hkind₂)).trans ?_
            rfl

end Duplicate

/-! ## §5. Zones. -/

theorem NodeRecord.HasPlace.mode_ne_null {r : NodeRecord} {m : Mutator} (hplace : r.HasPlace m) :
    m.mode ≠ .null := by
  obtain ⟨item, _, _, hmode⟩ := hplace
  rw [hmode]
  cases item <;> exact fun heq => Mode.noConfusion heq

theorem Mutator.run_getTreePtrInterface {m : Mutator} (hmode : m.mode ≠ .null) (h : TreeHeap) :
    m.getTreePtrInterface h = some (m.slot, h) :=
  (run_bind (run_assert hmode h)).trans rfl

theorem Mutator.run_getChildTreePtr {m : Mutator} (hmode : m.mode ≠ .null) (h : TreeHeap) :
    m.getChildTreePtr h = some (h.childOf m.slot, h) :=
  (run_bind (Mutator.run_getTreePtrInterface hmode h)).trans rfl

/-- Where the terminii are placeholders, a free zone is made. -/
theorem FreeZone.run_make {h : TreeHeap} {d : Nat} {ms : List Mutator}
    (hms : ∀ m ∈ ms, m.mode ≠ .null ∧ h.childOf m.slot = none)
    (hnodup : (ms.map Mutator.slot).Nodup) :
    FreeZone.make (some d) ms h = some (⟨some d, ms⟩, h) := by
  have hcheck : FreeZone.checkTerminii ms h = some ((), h) := by
    clear hnodup
    induction ms with
    | nil => rfl
    | cons m ms ih =>
        rw [List.forall_mem_cons] at hms
        rw [FreeZone.checkTerminii]
        refine (run_bind (Mutator.run_getChildTreePtr hms.1.1 h)).trans ?_
        refine (run_bind (run_assert hms.1.2 h)).trans ?_
        exact ih hms.2
  refine (run_bind hcheck).trans ?_
  exact (run_bind (run_assert hnodup h)).trans rfl

namespace TreeZone

open TreeHeap Duplicate

/-- **The duplicate of a zone**: the tree at `n` up to the terminii, with placeholders
that stand for them in their order. -/
structure Duplicated (h₀ : TreeHeap) (k : Nat) (z : TreeZone) (n : Nat) (h h' : TreeHeap)
    (d : Nat) (ms : List Mutator) : Prop where
  grows : h.Grows h'
  length : ms.length = z.terminii.length
  fresh : ∀ m ∈ ms, h.nextLink ≤ m.slot ∧ m.slot < h'.nextLink
  null : ∀ m ∈ ms, h'.childOf m.slot = none
  nodup : (ms.map Mutator.slot).Nodup
  inside : ∀ m ∈ ms, Inside h h' m
  same : ∀ (h'' : TreeHeap) (P : Nat → Nat → Prop), h₀.Grows h'' →
    Keeps h h' (ms.map Mutator.slot) h'' →
    (∀ p ∈ z.terminii.zip (ms.map Mutator.slot), P p.1 p.2) → h''.SameUpTo P k n d

theorem mapM_fst {found : List (Nat × Mutator)} {f : Nat → Option Mutator}
    (hf : ∀ p ∈ found, f p.1 = some p.2) :
    (found.map Prod.fst).mapM f = some (found.map Prod.snd) := by
  induction found with
  | nil => rfl
  | cons p found ih =>
      rw [List.forall_mem_cons] at hf
      rw [List.map_cons, List.mapM_cons, hf.1, ih hf.2]
      rfl

/-- What is found for a terminus met once. -/
theorem find_fst {found : List (Nat × Mutator)} (hnodup : (found.map Prod.fst).Nodup) :
    ∀ p ∈ found, (found.find? (·.1 = p.1)).map (·.2) = some p.2 := by
  induction found with
  | nil => exact fun _ hp => absurd hp List.not_mem_nil
  | cons q found ih =>
      intro p hp
      rw [List.map_cons, List.nodup_cons] at hnodup
      rcases List.mem_cons.mp hp with rfl | hp
      · rw [List.find?_cons_of_pos (by simp)]
        rfl
      · have hne : q.1 ≠ p.1 := fun heq => hnodup.1 (heq ▸ List.mem_map_of_mem hp)
        rw [List.find?_cons_of_neg (by simpa using hne)]
        exact ih hnodup.2 p hp

variable {h₀ h : TreeHeap} {k n : Nat} {z : TreeZone}

/-- `TreeZone::Duplicate`, with what its worker returns. -/
theorem duplicate_run (hz : h₀.HoldsZone k z n) (hne : z.isEmpty = false) (hgrows : h₀.Grows h)
    {d : Nat} {found : List (Nat × Mutator)} {h' : TreeHeap}
    (hrun : Duplicate.subtreeWorker z.terminii h.nextLink n h = some ((d, found), h'))
    (hcopied : Copied h₀ z.terminii k n h h' d found) :
    z.duplicate h = some (⟨some d, found.map Prod.snd⟩, h') := by
  -- the worker met the terminii in the zone's order
  have hmet : found.map Prod.fst = z.terminii := by
    rw [hcopied.met, hz.terminiiMet hne]
  have hslots : (found.map Prod.snd).map Mutator.slot = slots found := List.map_map
  have hmapM : z.terminii.mapM (fun t => (found.find? (·.1 = t)).map (·.2))
      = some (found.map Prod.snd) := by
    rw [← hmet]
    exact mapM_fst (find_fst (hmet ▸ hz.terminii_nodup))
  have hbase : getChild z.base h = some (some n, h) := by
    show some (h.childOf z.base, h) = _
    rw [hgrows.childOf _ hz.base_lt, hz.base]
  unfold TreeZone.duplicate
  rw [if_neg (by rw [hne]; exact Bool.false_ne_true)]
  -- the program of `Duplicate`, step by step
  refine (run_bind (run_assert (hz.base_not_mem hne) h)).trans ?_
  refine (run_bind hbase).trans ?_
  refine (run_bind (show (get : Update TreeHeap) h = some (h, h) from rfl)).trans ?_
  refine (run_bind hrun).trans ?_
  dsimp only
  rw [hmapM]
  refine FreeZone.run_make (fun m hm => ?_) ?_
  · obtain ⟨p, hp, rfl⟩ := List.mem_map.mp hm
    refine ⟨(hcopied.inside p hp).place.mode_ne_null, hcopied.made.null _ ?_⟩
    exact List.mem_map_of_mem hp
  · rw [hslots]
    exact hcopied.made.nodup

/-- **`TreeZone::Duplicate`** returns with a duplicate of any zone that is not empty. -/
theorem duplicate_spec (hz : h₀.HoldsZone k z n) (hne : z.isEmpty = false)
    (hgrows : h₀.Grows h) : ∃ d ms h', z.duplicate h = some (⟨some d, ms⟩, h')
      ∧ Duplicated h₀ k z n h h' d ms := by
  have hfuel : (h₀.linksBelow k n).length < h.nextLink :=
    Nat.lt_of_lt_of_le hz.length_lt hgrows.link_le
  -- the worker's specification, with the fuel that `duplicate` gives it
  have hworks : Works h₀ z.terminii k h.nextLink
      (Duplicate.subtreeWorker z.terminii h.nextLink) := subtreeWorker_spec
  obtain ⟨d, found, h', hrun, hcopied⟩ := hworks h n hgrows hz.tree hfuel
  have hmet : found.map Prod.fst = z.terminii := by
    rw [hcopied.met, hz.terminiiMet hne]
  have hslots : (found.map Prod.snd).map Mutator.slot = slots found := List.map_map
  have hmem {m : Mutator} (hm : m ∈ found.map Prod.snd) : m.slot ∈ slots found := by
    rw [← hslots]
    exact List.mem_map_of_mem hm
  refine ⟨d, found.map Prod.snd, h', duplicate_run hz hne hgrows hrun hcopied,
    hcopied.made.grows, ?_, ?_, ?_, ?_, ?_, ?_⟩
  · rw [← hmet, List.length_map, List.length_map]
  · exact fun m hm => hcopied.made.fresh _ (hmem hm)
  · exact fun m hm => hcopied.made.null _ (hmem hm)
  · rw [hslots]
    exact hcopied.made.nodup
  · intro m hm
    obtain ⟨p, hp, rfl⟩ := List.mem_map.mp hm
    exact hcopied.inside p hp
  · -- a later reading of the copies passes over whatever fills the terminii
    intro h'' P hgrows' hkeeps hP
    rw [hslots] at hkeeps
    refine hcopied.same h'' P hgrows' hkeeps fun p hp => hP (p.1, p.2.slot) ?_
    rw [← hmet, hslots]
    unfold slots
    rw [List.zip_map']
    exact List.mem_map.mpr ⟨p, hp, rfl⟩

/-- **An empty zone is not duplicated**: the constructor asks its null terminus for a child. -/
theorem duplicate_empty (hempty : z.isEmpty = true) (h : TreeHeap) : z.duplicate h = none := by
  unfold TreeZone.duplicate
  rw [if_pos hempty]
  rfl

end TreeZone

end Inferno.DB
