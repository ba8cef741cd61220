/-
  Inferno.DB.DuplicateReadings
  ────────────────────────────
  What a duplicate of a zone reads as.

    • `content`, `linkContent` — the content of a tree without NULLs,
    • `ReadsLink.eq_content`   — whoever reads such a tree reads that,
    • `Fresh`                  — what a part of the duplication adds to memory: a region
                                 of its own, and some links for a node to come,
    • `duplicate_reads`        — the duplicate reads as the zone, with each terminus
                                 renamed to its placeholder.
-/
import Inferno.DB.DuplicateExact
import Inferno.DB.Readings

namespace Inferno.DB

open Inferno.Common Inferno.Helpers Inferno.Lib Inferno.Lib.Term Update TreeHeap

/-! ## §1. The content of a tree. -/

namespace TreeHeap

section

variable (h : TreeHeap)

/-- The content at a link, from that of the nodes. -/
def linkContent (ends : List Nat) (below : Nat → Content) (x : Nat) : Content :=
  if x ∈ ends then .hole x else (h.childOf x).elim (.hole x) below

/-- **The content of a tree** of at most so many levels, down to the ends. -/
def content (ends : List Nat) : Nat → Nat → Content
  | 0, n => .node ((h.nodeAt n).label n) []
  | k + 1, n => .node ((h.nodeAt n).label n) ((h.nodeAt n).items.map fun item =>
      item.links.map (h.linkContent ends (content ends k)))

end

variable {h : TreeHeap} {ends : List Nat} {R : Region}

theorem linkContent_end {below : Nat → Content} {x : Nat} (hx : x ∈ ends) :
    h.linkContent ends below x = .hole x :=
  if_pos hx

theorem linkContent_child {below : Nat → Content} {x n : Nat} (hx : x ∉ ends)
    (hn : h.childOf x = some n) : h.linkContent ends below x = below n := by
  unfold linkContent
  rw [if_neg hx, hn]
  rfl

mutual

/-- **Whoever reads a tree reads its content.** -/
theorem ReadsLink.eq_content : ∀ (t : Content) (x k n : Nat), h.childOf x = some n →
    h.IsTree k n → h.ReadsLink ends R t x → t = h.linkContent ends (h.content ends k) x
  | .hole y, x, k, n, hn, _, hread => by
      obtain ⟨rfl, hends | hnull⟩ := hread
      · rw [linkContent_end hends]
      · rw [hn] at hnull
        cases hnull
  | .node label groups, x, k, n, hn, htree, hread => by
      obtain ⟨hends, m, hm, _, hlabel, hitems⟩ := hread
      obtain rfl : n = m := Option.some.inj (hn.symm.trans hm)
      rw [linkContent_child hends hn]
      cases k with
      | zero => exact htree.elim
      | succ k =>
          rw [content, hlabel, ← ReadsItems.eq_content groups _ k (fun x hx => ?_) hitems]
          exact (htree.2.2 x hx).2

theorem ReadsItems.eq_content : ∀ (groups : List (List Content)) (items : List (Item Nat))
    (k : Nat), (∀ x ∈ items.flatMap Item.links, ∃ n, h.childOf x = some n ∧ h.IsTree k n) →
    h.ReadsItems ends R groups items → groups = items.map fun item =>
      item.links.map (h.linkContent ends (h.content ends k))
  | [], [], _, _, _ => rfl
  | ts :: groups, item :: items, k, hx, hread => by
      rw [List.flatMap_cons, List.forall_mem_append] at hx
      rw [List.map_cons, ← ReadsLinks.eq_content ts _ k hx.1 hread.1,
        ← ReadsItems.eq_content groups items k hx.2 hread.2]
  | [], _ :: _, _, _, hread => hread.elim
  | _ :: _, [], _, _, hread => hread.elim

theorem ReadsLinks.eq_content : ∀ (ts : List Content) (xs : List Nat) (k : Nat),
    (∀ x ∈ xs, ∃ n, h.childOf x = some n ∧ h.IsTree k n) → h.ReadsLinks ends R ts xs →
    ts = xs.map (h.linkContent ends (h.content ends k))
  | [], [], _, _, _ => rfl
  | t :: ts, x :: xs, k, hx, hread => by
      rw [List.forall_mem_cons] at hx
      obtain ⟨⟨n, hn, htree⟩, hxs⟩ := hx
      rw [List.map_cons, ← ReadsLink.eq_content t x k n hn htree hread.1,
        ← ReadsLinks.eq_content ts xs k hxs hread.2]
  | [], _ :: _, _, _, hread => hread.elim
  | _ :: _, [], _, _, hread => hread.elim

end

/-- The holes of a content are the terminii that a walk ends at. -/
theorem holes_content {k n : Nat} (htree : h.IsTree k n) :
    holes (h.content ends k n) = h.terminiiMet ends k n := by
  induction k generalizing n with
  | zero => exact htree.elim
  | succ k ih =>
      show holesIn _ = List.flatMap _ ((h.nodeAt n).items.flatMap Item.links)
      rw [holesIn_eq, List.flatMap_map, List.flatMap_assoc]
      apply List.flatMap_congr
      intro item hitem
      rw [holesAll_eq, List.flatMap_map]
      apply List.flatMap_congr
      intro x hx
      obtain ⟨_, c, hc, hsub⟩ := htree.2.2 x (List.mem_flatMap.mpr ⟨item, hitem, hx⟩)
      by_cases hends : x ∈ ends
      · rw [linkContent_end hends, if_pos hends]
        rfl
      · rw [linkContent_child hends hc, if_neg hends, hc]
        exact ih hsub

end TreeHeap

namespace Duplicate

/-! ## §2. New regions. -/

/-- **What a part of the duplication adds**: its nodes own their links, and the links `ys`
have no node yet. -/
structure Fresh (h h' : TreeHeap) (ys : List Nat) (found : List (Nat × Mutator)) : Prop where
  made : Made h h' found
  owned : h'.Owned (between h h')
  links : ∀ y ∈ ys, y ∈ (between h h').2
  nodup : ys.Nodup
  free : ∀ n ∈ (between h h').1, ∀ y ∈ ys, y ∉ (h'.nodeAt n).links

variable {h h' h₀ h₁ h₂ : TreeHeap} {found found' : List (Nat × Mutator)} {ys ys' : List Nat}

/-- With no new nodes there is nothing to own. -/
theorem owned_of_no_nodes (hnode : h'.nextNode ≤ h.nextNode) : h'.Owned (between h h') := by
  have hno : ∀ n, n ∉ (between h h').1 := fun n hn => by
    have hle := hn.1
    have hlt := hn.2
    omega
  exact ⟨fun n hn => absurd hn (hno n), fun x hx => hx.2, fun n hn => absurd hn (hno n),
    fun n hn => absurd hn (hno n), fun n hn => absurd hn (hno n)⟩

theorem Fresh.nil (h : TreeHeap) : Fresh h h [] [] where
  made := Made.nil (Grows.refl h)
  owned := owned_of_no_nodes (Nat.le_refl _)
  links _ hy := absurd hy List.not_mem_nil
  nodup := List.nodup_nil
  free _ _ _ hy := absurd hy List.not_mem_nil

/-- A new link. -/
theorem Fresh.addLink (child : Option Nat) : Fresh h (h.addLink child) [h.nextLink] [] where
  made := made_addLink child
  owned := owned_of_no_nodes (Nat.le_refl _)
  links y hy := by
    rw [List.mem_singleton.mp hy]
    exact ⟨Nat.le_refl _, Nat.lt_succ_self _⟩
  nodup := List.nodup_singleton _
  free n hn := by
    have hle : h.nextNode ≤ n := hn.1
    have hlt : n < h.nextNode := hn.2
    omega

/-- A terminus becomes a placeholder. -/
theorem Fresh.terminus (x : Nat) (m : Mutator) (hm : m.slot = h.nextLink) :
    Fresh h (h.addLink none) [h.nextLink] [(x, m)] where
  made := by
    refine ⟨(made_addLink none).grows, ?_, ?_, List.nodup_singleton _⟩
    · intro y hy
      rw [show y = m.slot from List.mem_singleton.mp hy, hm]
      exact ⟨Nat.le_refl _, Nat.lt_succ_self _⟩
    · intro y hy
      rw [show y = m.slot from List.mem_singleton.mp hy, hm]
      exact Function.update_self _ _ _
  owned := (Fresh.addLink none).owned
  links := (Fresh.addLink none).links
  nodup := List.nodup_singleton _
  free := (Fresh.addLink none).free

theorem between_append (h1 : h.Grows h₁) (h2 : h₁.Grows h₂) :
    between h h₂ = between h h₁ ⊔ between h₁ h₂ := by
  have hn1 := h1.node_le
  have hn2 := h2.node_le
  have hl1 := h1.link_le
  have hl2 := h2.link_le
  refine Prod.ext (Set.ext fun n => ?_) (Set.ext fun x => ?_)
  · show h.nextNode ≤ n ∧ n < h₂.nextNode ↔
      (h.nextNode ≤ n ∧ n < h₁.nextNode) ∨ (h₁.nextNode ≤ n ∧ n < h₂.nextNode)
    omega
  · show h.nextLink ≤ x ∧ x < h₂.nextLink ↔
      (h.nextLink ≤ x ∧ x < h₁.nextLink) ∨ (h₁.nextLink ≤ x ∧ x < h₂.nextLink)
    omega

theorem between_disjoint : Disjoint (between h h₁) (between h₁ h₂) := by
  refine Prod.disjoint_iff.mpr ⟨Set.disjoint_left.mpr ?_, Set.disjoint_left.mpr ?_⟩
  · intro n hn hn'
    exact absurd hn.2 (Nat.not_lt_of_le hn'.1)
  · intro x hx hx'
    exact absurd hx.2 (Nat.not_lt_of_le hx'.1)

/-- Memory that has grown leaves a region as it was. -/
theorem grows_unchanged {R : Region} (hgrows : h.Grows h') (howned : h.Owned R) :
    Unchanged h h' R :=
  (ChangesOnly.of_grows hgrows ⊥).unchanged disjoint_bot_left howned

theorem grows_owned {R : Region} (hgrows : h.Grows h') (howned : h.Owned R) : h'.Owned R :=
  (ChangesOnly.of_grows hgrows ⊥).owned disjoint_bot_left howned

/-- **Two parts, one after the other.** -/
theorem Fresh.append (h1 : Fresh h h₁ ys found) (h2 : Fresh h₁ h₂ ys' found') :
    Fresh h h₂ (ys ++ ys') (found ++ found') where
  made := h1.made.append h2.made
  owned := by
    rw [between_append h1.made.grows h2.made.grows]
    exact (grows_owned h2.made.grows h1.owned).sup h2.owned between_disjoint
  links y hy := by
    rw [between_append h1.made.grows h2.made.grows]
    exact (List.mem_append.mp hy).imp (h1.links y) (h2.links y)
  nodup := by
    refine List.nodup_append'.mpr ⟨h1.nodup, h2.nodup, fun y hy hy' => ?_⟩
    exact absurd (h1.links y hy).2 (Nat.not_lt_of_le (h2.links y hy').1)
  free n hn y hy := by
    rw [between_append h1.made.grows h2.made.grows] at hn
    rcases hn with hn | hn
    · rw [h2.made.grows.nodeAt n hn.2]
      rcases List.mem_append.mp hy with hy | hy
      · exact h1.free n hn y hy
      · intro hmem
        exact absurd (h1.owned.links n hn y hmem).2 (Nat.not_lt_of_le (h2.links y hy).1)
    · rcases List.mem_append.mp hy with hy | hy
      · intro hmem
        exact absurd (h1.links y hy).2 (Nat.not_lt_of_le (h2.owned.links n hn y hmem).1)
      · exact h2.free n hn y hy

/-! ## §3. Renaming. -/

/-- Each terminus as the placeholder found for it. -/
def renamed (found : List (Nat × Mutator)) : Nat → List Content :=
  plug (found.map Prod.fst) (found.map fun p => [.hole p.2.slot])

theorem renamed_left {x : Nat} (hx : x ∈ found.map Prod.fst) :
    renamed (found ++ found') x = renamed found x := by
  unfold renamed
  rw [List.map_append, List.map_append]
  exact plug_append_left (by rw [List.length_map, List.length_map]) hx

theorem renamed_right {x : Nat} (hx : x ∉ found.map Prod.fst) :
    renamed (found ++ found') x = renamed found' x := by
  unfold renamed
  rw [List.map_append, List.map_append]
  exact plug_append_right (by rw [List.length_map, List.length_map]) hx

/-! ## §4. The worker. -/

/-- The mode of a terminus at a link. -/
def LinkMode (h : TreeHeap) (x : Nat) (mode : Mode) : Prop :=
  ∃ n item, item ∈ (h.nodeAt n).items ∧ x ∈ item.links ∧ mode = item.mode

variable {ts : List Nat} {k fuel dest i : Nat} {mode : Mode}
  {worker : Nat → Update (Nat × List (Nat × Mutator))}

/-- **The duplicate of a tree**: the links at `ys` read as the contents `us`, renamed. -/
structure CopyReads (h₀ : TreeHeap) (us : List Content) (h h' : TreeHeap) (ys : List Nat)
    (found : List (Nat × Mutator)) : Prop where
  fresh : Fresh h h' ys found
  length : ys.length = us.length
  met : found.map Prod.fst = holesAll us
  modes : ∀ p ∈ found, LinkMode h₀ p.1 p.2.mode
  reads : (found.map Prod.fst).Nodup →
    h'.ReadsLinks [] (between h h') (fillAll (renamed found) us) ys

theorem CopyReads.append {us us' : List Content} (h1 : CopyReads h₀ us h h₁ ys found)
    (h2 : CopyReads h₀ us' h₁ h₂ ys' found') :
    CopyReads h₀ (us ++ us') h h₂ (ys ++ ys') (found ++ found') where
  fresh := h1.fresh.append h2.fresh
  length := by rw [List.length_append, List.length_append, h1.length, h2.length]
  met := by rw [List.map_append, h1.met, h2.met, holesAll_append]
  modes p hp := (List.mem_append.mp hp).elim (h1.modes p) (h2.modes p)
  reads hnodup := by
    have hboth := hnodup
    rw [List.map_append] at hboth
    have hle := between_append h1.fresh.made.grows h2.fresh.made.grows
    have hleft : fillAll (renamed (found ++ found')) us = fillAll (renamed found) us :=
      fillAll_congr us fun x hx => renamed_left (h1.met ▸ hx)
    have hright : fillAll (renamed (found ++ found')) us' = fillAll (renamed found') us' := by
      refine fillAll_congr us' fun x hx => renamed_right fun hmem => ?_
      exact (List.nodup_append'.mp hboth).2.2 hmem (h2.met ▸ hx)
    rw [fillAll_append, hleft, hright, hle]
    refine readsLinks_append ?_ ?_
    · refine ReadsLinks.congr (grows_unchanged h2.fresh.made.grows h1.fresh.owned) le_sup_left
        _ _ ?_ (h1.reads (List.nodup_append'.mp hboth).1)
      exact fun y hy => h2.fresh.made.grows.childOf y (h1.fresh.links y hy).2
    · exact ReadsLinks.congr (Unchanged.refl _ _) le_sup_right _ _ (fun _ _ => rfl)
        (h2.reads (List.nodup_append'.mp hboth).2.1)

/-- What the recursion does with the children of a node. -/
def WorksReads (h₀ : TreeHeap) (ts : List Nat) (k fuel : Nat)
    (worker : Nat → Update (Nat × List (Nat × Mutator))) : Prop :=
  ∀ (h : TreeHeap) (c : Nat), h₀.Grows h → h₀.IsTree k c →
    (h₀.linksBelow k c).length < fuel →
    ∃ d found h', worker c h = some ((d, found), h') ∧ Fresh h h' [] found
      ∧ found.map Prod.fst = holes (h₀.content ts k c)
      ∧ (∀ p ∈ found, LinkMode h₀ p.1 p.2.mode)
      ∧ ((found.map Prod.fst).Nodup → ∃ t, fill (renamed found) (h₀.content ts k c) = [t]
        ∧ h'.ReadsNode [] (between h h') t d)

/-- One link. -/
theorem link_reads (dest i : Nat) (hworker : WorksReads h₀ ts k fuel worker) {x : Nat}
    (hmode : LinkMode h₀ x mode) (hx : HasTree h₀ k fuel x) (hgrows : h₀.Grows h) :
    ∃ c y found h', h₀.childOf x = some c ∧ (if x ∈ ts then do
        let slot ← newLink none
        return (slot, [(x, ⟨mode, dest, i, slot⟩)])
      else do
        let copied ← worker c
        return (← newLink (some copied.1), copied.2) : Update (Nat × List (Nat × Mutator))) h
        = some ((y, found), h')
      ∧ CopyReads h₀ [h₀.linkContent ts (h₀.content ts k) x] h h' [y] found := by
  obtain ⟨hlt, c, hc, htree, hfuel⟩ := hx
  by_cases hmem : x ∈ ts
  · -- a terminus: a new NULL link, which is the hole of the copy
    refine ⟨c, _, _, _, hc, (by rw [if_pos hmem]; rfl), Fresh.terminus x _ rfl, rfl, ?_,
      fun p hp => ?_, ?_⟩
    · rw [linkContent_end hmem]
      rfl
    · rw [List.mem_singleton.mp hp]
      exact hmode
    · intro _
      rw [linkContent_end hmem, fillAll_singleton]
      show ReadsLinks _ [] _ (renamed _ x) _
      unfold renamed
      rw [List.map_singleton, List.map_singleton, plug_head]
      exact ⟨⟨rfl, Or.inr (Function.update_self _ _ _)⟩, trivial⟩
  · -- no terminus: the node below is copied first, and then the link to it made
    obtain ⟨d, found, h₁, hrun, hfresh, hmet, hmodes, hreads⟩ := hworker h c hgrows htree hfuel
    have hlink := hfresh.append (Fresh.addLink (some d))
    rw [List.append_nil, List.nil_append] at hlink
    have hchild : (h₁.addLink (some d)).childOf h₁.nextLink = some d :=
      Function.update_self _ _ _
    have hcontent : h₀.linkContent ts (h₀.content ts k) x = h₀.content ts k c :=
      linkContent_child hmem hc
    refine ⟨c, _, _, _, hc, ?_, hlink, rfl, ?_, hmodes, ?_⟩
    · rw [if_neg hmem]
      exact (run_bind hrun).trans rfl
    · rw [hcontent, hmet, holesAll_singleton]
    · intro hnodup
      obtain ⟨t, ht, hnode⟩ := hreads hnodup
      rw [hcontent, fillAll_singleton, ht]
      refine ⟨readsLink_of_node List.not_mem_nil hchild ?_, trivial⟩
      -- the link is new, so it changes nothing of the node's copy
      have hgrows' : h₁.Grows (h₁.addLink (some d)) := (made_addLink (some d)).grows
      refine hnode.congr (grows_unchanged hgrows' hfresh.owned) ?_
      rw [between_append hfresh.made.grows hgrows']
      exact le_sup_left

/-- The links of an item. -/
theorem links_reads (dest i : Nat) (hworker : WorksReads h₀ ts k fuel worker)
    {xs : List Nat} (hmodes : ∀ x ∈ xs, LinkMode h₀ x mode)
    (hxs : ∀ x ∈ xs, HasTree h₀ k fuel x) : ∀ {h : TreeHeap}, h₀.Grows h →
    ∃ ys found h', Duplicate.links ts worker dest i mode xs h = some ((ys, found), h')
      ∧ CopyReads h₀ (xs.map (h₀.linkContent ts (h₀.content ts k))) h h' ys found := by
  induction xs with
  | nil =>
      intro h _
      exact ⟨[], [], h, rfl, Fresh.nil h, rfl, rfl, fun p hp => absurd hp List.not_mem_nil,
        fun _ => trivial⟩
  | cons x xs ih =>
      intro h hgrows
      rw [List.forall_mem_cons] at hxs hmodes
      obtain ⟨c, y, found, h₁, hc, hrun, hcopy⟩ :=
        link_reads dest i hworker hmodes.1 hxs.1 hgrows
      obtain ⟨ys, found', h₂, hrun', hcopy'⟩ :=
        ih hmodes.2 hxs.2 (hgrows.trans hcopy.fresh.made.grows)
      have hchild : getChild x h = some (some c, h) := by
        show some (h.childOf x, h) = _
        rw [hgrows.childOf x hxs.1.1, hc]
      refine ⟨y :: ys, found ++ found', h₂, ?_, hcopy.append hcopy'⟩
      rw [Duplicate.links]
      refine (run_bind hchild).trans ?_
      refine (run_bind hrun).trans ?_
      exact (run_bind hrun').trans rfl

/-- **The duplicate of the items of a node.** -/
structure ItemsRead (h₀ : TreeHeap) (groups : List (List Content)) (shapes : List Nat)
    (h h' : TreeHeap)
    (items : List (Item Nat)) (found : List (Nat × Mutator)) : Prop where
  fresh : Fresh h h' (items.flatMap Item.links) found
  met : found.map Prod.fst = holesIn groups
  modes : ∀ p ∈ found, LinkMode h₀ p.1 p.2.mode
  shapes : items.map itemKind = shapes
  reads : (found.map Prod.fst).Nodup →
    h'.ReadsItems [] (between h h') (fillIn (renamed found) groups) items

theorem ItemsRead.cons {us : List Content} {groups : List (List Content)} {shapes : List Nat}
    (item : Item Nat) {items : List (Item Nat)} (h1 : CopyReads h₀ us h h₁ item.links found)
    (h2 : ItemsRead h₀ groups shapes h₁ h₂ items found') :
    ItemsRead h₀ (us :: groups) (itemKind item :: shapes) h h₂ (item :: items)
      (found ++ found') where
  fresh := by
    rw [List.flatMap_cons]
    exact h1.fresh.append h2.fresh
  met := by
    rw [List.map_append, h1.met, h2.met]
    rfl
  modes p hp := (List.mem_append.mp hp).elim (h1.modes p) (h2.modes p)
  shapes := by rw [List.map_cons, h2.shapes]
  reads hnodup := by
    have hboth := hnodup
    rw [List.map_append] at hboth
    have hle := between_append h1.fresh.made.grows h2.fresh.made.grows
    -- the renaming of each group takes no link of the other
    have hleft : fillAll (renamed (found ++ found')) us = fillAll (renamed found) us :=
      fillAll_congr us fun x hx => renamed_left (h1.met ▸ hx)
    have hright : fillIn (renamed (found ++ found')) groups
        = fillIn (renamed found') groups := by
      refine fillIn_congr groups fun x hx => renamed_right fun hmem => ?_
      exact (List.nodup_append'.mp hboth).2.2 hmem (h2.met ▸ hx)
    unfold fillIn
    rw [hleft, hright, hle]
    refine ⟨?_, ?_⟩
    · -- the first group is not touched by what is made for the rest
      refine ReadsLinks.congr (grows_unchanged h2.fresh.made.grows h1.fresh.owned) le_sup_left
        _ _ ?_ (h1.reads (List.nodup_append'.mp hboth).1)
      exact fun y hy => h2.fresh.made.grows.childOf y (h1.fresh.links y hy).2
    · exact ReadsItems.congr (Unchanged.refl _ _) le_sup_right _ _ (fun _ _ => rfl)
        (h2.reads (List.nodup_append'.mp hboth).2.1)

/-- The loop over the items. -/
theorem items_reads (dest n : Nat) (hworker : WorksReads h₀ ts k fuel worker)
    {items : List (Item Nat)} : ∀ {i : Nat} {h : TreeHeap},
    (∀ item ∈ items, item ∈ (h₀.nodeAt n).items) →
    (∀ x ∈ items.flatMap Item.links, HasTree h₀ k fuel x) → h₀.Grows h →
    ∃ items' found h', Duplicate.items ts worker dest i items h = some ((items', found), h')
      ∧ ItemsRead h₀ (items.map fun item => item.links.map (h₀.linkContent ts (h₀.content ts k)))
        (items.map itemKind) h h' items' found := by
  induction items with
  | nil =>
      intro i h _ _ _
      exact ⟨[], [], h, rfl, Fresh.nil h, rfl, fun p hp => absurd hp List.not_mem_nil, rfl,
        fun _ => trivial⟩
  | cons item items ih =>
      intro i h hsource hxs hgrows
      rw [List.forall_mem_cons] at hsource
      rw [List.flatMap_cons, List.forall_mem_append] at hxs
      -- the links of this item, and then the other items
      obtain ⟨ys, found, h₁, hrun, hcopy⟩ := links_reads dest i hworker
        (fun x hx => (⟨n, item, hsource.1, hx, rfl⟩ : LinkMode h₀ x item.mode)) hxs.1 hgrows
      obtain ⟨items', found', h₂, hrun', hcopy'⟩ :=
        ih (i := i + 1) hsource.2 hxs.2 (hgrows.trans hcopy.fresh.made.grows)
      rw [Duplicate.items]
      cases item with
      | singular x =>
          obtain ⟨y, rfl⟩ := List.length_eq_one_iff.mp hcopy.length
          refine ⟨.singular y :: items', found ++ found', h₂, ?_,
            ItemsRead.cons (.singular y) hcopy hcopy'⟩
          refine (run_bind hrun).trans ?_
          refine (run_bind (run_pure (Item.singular y) h₁)).trans ?_
          exact (run_bind hrun').trans rfl
      | sequence xs =>
          refine ⟨.sequence ys :: items', found ++ found', h₂, ?_,
            ItemsRead.cons (.sequence ys) hcopy hcopy'⟩
          refine (run_bind hrun).trans ?_
          refine (run_bind (run_pure (Item.sequence ys) h₁)).trans ?_
          exact (run_bind hrun').trans rfl
      | collection xs =>
          refine ⟨.collection ys :: items', found ++ found', h₂, ?_,
            ItemsRead.cons (.collection ys) hcopy hcopy'⟩
          refine (run_bind hrun).trans ?_
          refine (run_bind (run_pure (Item.collection ys) h₁)).trans ?_
          exact (run_bind hrun').trans rfl

/-- The node that has the links of the items is theirs alone. -/
theorem Fresh.putNode {record : NodeRecord} {items : List (Item Nat)}
    (hfresh : Fresh (h.addNode record) h₂ (items.flatMap Item.links) found)
    (hkind : (h₂.nodeAt h.nextNode).kind ≠ .identifier) :
    Fresh h (h₂.putNode h.nextNode ((h₂.nodeAt h.nextNode).withItems items hkind)) []
      found := by
  -- what the items have made comes after the new node
  have hnew := grows_addNode h record
  have hmade := hfresh.made
  have hlt : h.nextNode < h₂.nextNode :=
    Nat.lt_of_lt_of_le (Nat.lt_succ_self _) hmade.grows.node_le
  have hself : (h₂.putNode h.nextNode ((h₂.nodeAt h.nextNode).withItems items hkind)).nodeAt
      h.nextNode = (h₂.nodeAt h.nextNode).withItems items hkind := Function.update_self _ _ _
  have hother {n : Nat} (hn : n ≠ h.nextNode) :
      (h₂.putNode h.nextNode ((h₂.nodeAt h.nextNode).withItems items hkind)).nodeAt n
        = h₂.nodeAt n := Function.update_of_ne hn _ _
  -- a node of the region is the new one, or one of its subtrees'
  have hcases {n : Nat} (hn : h.nextNode ≤ n ∧ n < h₂.nextNode) (hne : n ≠ h.nextNode) :
      n ∈ (between (h.addNode record) h₂).1 :=
    ⟨Nat.lt_of_le_of_ne hn.1 (Ne.symm hne), hn.2⟩
  -- memory; the links of the region; and each with one owner
  refine ⟨⟨⟨Nat.le_of_lt hlt, hmade.grows.link_le, ?_, hmade.grows.childOf⟩, hmade.fresh,
    hmade.null, hmade.nodup⟩, ⟨fun n hn => hn.2, fun x hx => hx.2, ?_, ?_, ?_⟩, ?_,
    List.nodup_nil, fun _ _ _ hy => absurd hy List.not_mem_nil⟩
  · intro n hn
    rw [hother (Nat.ne_of_lt hn), (hnew.trans hmade.grows).nodeAt n hn]
  · intro n hn x hx
    by_cases hne : n = h.nextNode
    · rw [hne, hself] at hx
      exact hfresh.links x hx
    · rw [hother hne] at hx
      exact hfresh.owned.links n (hcases hn hne) x hx
  · intro n hn
    by_cases hne : n = h.nextNode
    · rw [hne, hself]
      exact hfresh.nodup
    · rw [hother hne]
      exact hfresh.owned.nodup n (hcases hn hne)
  · -- two owners of one link: one of them would be the new node
    intro n hn m hm x hxn hxm
    by_cases hne : n = h.nextNode
    · by_cases hme : m = h.nextNode
      · rw [hne, hme]
      · rw [hne, hself] at hxn
        rw [hother hme] at hxm
        exact absurd hxm (hfresh.free m (hcases hm hme) x hxn)
    · rw [hother hne] at hxn
      by_cases hme : m = h.nextNode
      · rw [hme, hself] at hxm
        exact absurd hxn (hfresh.free n (hcases hn hne) x hxm)
      · rw [hother hme] at hxm
        exact hfresh.owned.owner n (hcases hn hne) m (hcases hm hme) x hxn hxm
  · exact fun _ hy => absurd hy List.not_mem_nil

/-- The label of a node with other items of the same shapes, elsewhere. -/
theorem label_copy {r : NodeRecord} {items : List (Item Nat)} {n d : Nat}
    (hkind : r.kind ≠ .identifier) (hshapes : items.map itemKind = r.items.map itemKind)
    (hkind' : (r.withItems [] hkind).kind ≠ .identifier) :
    ((r.withItems [] hkind).withItems items hkind').label d = r.label n := by
  show NodeLabel.mk r.kind r.typeIndex r.value (items.map itemKind)
    (if r.kind = .identifier then some d else none) = NodeLabel.mk _ _ _ _ _
  rw [hshapes, if_neg hkind, if_neg hkind]

/-- And it reads as the node whose items they are copied from. -/
theorem readsNode_putNode {n : Nat} {items : List (Item Nat)} {groups : List (List Content)}
    {hkind : (h₀.nodeAt n).kind ≠ .identifier}
    (hdest : h₂.nodeAt h.nextNode = (h₀.nodeAt n).withItems [] hkind)
    (hkind₂ : (h₂.nodeAt h.nextNode).kind ≠ .identifier)
    (hread : ItemsRead h₀ groups ((h₀.nodeAt n).items.map itemKind)
      (h.addNode ((h₀.nodeAt n).withItems [] hkind)) h₂ items found)
    (hnodup : (found.map Prod.fst).Nodup) :
    (h₂.putNode h.nextNode ((h₂.nodeAt h.nextNode).withItems items hkind₂)).ReadsNode []
      (between h (h₂.putNode h.nextNode ((h₂.nodeAt h.nextNode).withItems items hkind₂)))
      (.node ((h₀.nodeAt n).label n) (fillIn (renamed found) groups)) h.nextNode := by
  have hlt : h.nextNode < h₂.nextNode :=
    Nat.lt_of_lt_of_le (Nat.lt_succ_self _) hread.fresh.made.grows.node_le
  have hself : (h₂.putNode h.nextNode ((h₂.nodeAt h.nextNode).withItems items hkind₂)).nodeAt
      h.nextNode = (h₂.nodeAt h.nextNode).withItems items hkind₂ := Function.update_self _ _ _
  refine ⟨⟨hlt, Or.inl ⟨Nat.le_refl _, hlt⟩⟩, fillIn (renamed found) groups, ?_, ?_⟩
  · -- the label is that of the source node, whose shapes the items have
    have hlabel : ((h₂.nodeAt h.nextNode).withItems items hkind₂).label h.nextNode
        = (h₀.nodeAt n).label n := by
      revert hkind₂
      rw [hdest]
      exact fun hkind₂ _ => label_copy hkind hread.shapes hkind₂
    rw [hself, hlabel]
  · rw [hself]
    show TreeHeap.ReadsItems _ [] _ _ items
    -- the items read as they did: the node that is put is none of those below them
    refine ReadsItems.congr (h := h₂) ?_ ?_ _ _ (fun _ _ => rfl) (hread.reads hnodup)
    · refine ⟨Nat.le_refl _, fun m hm => ?_, fun _ _ _ _ => rfl⟩
      refine Function.update_of_ne ?_ _ _
      rintro rfl
      rcases hm.2 with hin | hid
      · exact absurd hin.1 (Nat.not_succ_le_self _)
      · exact hkind₂ hid
    · exact ⟨fun m hm => ⟨Nat.le_of_succ_le hm.1, hm.2⟩, fun x hx => hx⟩

/-- **`DuplicateSubtreeWorker`** returns with a node that reads as the tree, renamed. -/
theorem subtreeWorker_reads : WorksReads h₀ ts k fuel (Duplicate.subtreeWorker ts fuel) := by
  -- on the fuel; a tree of height zero is none
  induction fuel generalizing k with
  | zero => exact fun _ _ _ _ hlt => absurd hlt (Nat.not_lt_zero _)
  | succ fuel ih =>
      intro h n hgrows htree hfuel
      cases k with
      | zero => exact htree.elim
      | succ k =>
          have hnode : h.nodeAt n = h₀.nodeAt n := hgrows.nodeAt n htree.1
          have hget : getNode n h = some (h₀.nodeAt n, h) := by
            show some (h.nodeAt n, h) = _
            rw [hnode]
          rw [Duplicate.subtreeWorker]
          by_cases hkind : (h₀.nodeAt n).kind = .identifier
          · -- a specific identifier is its own duplicate
            have hitems := (h₀.nodeAt n).identifier_items hkind
            have hcontent : h₀.content ts (k + 1) n = .node ((h₀.nodeAt n).label n) [] := by
              show Term.node _ (List.map _ _) = _
              rw [hitems]
              rfl
            refine ⟨n, [], h, ?_, Fresh.nil h, ?_, fun p hp => absurd hp List.not_mem_nil,
              fun _ => ⟨.node ((h₀.nodeAt n).label n) [], ?_, ?_⟩⟩
            · refine (run_bind hget).trans ?_
              rw [if_pos hkind]
              rfl
            · rw [hcontent]
              rfl
            · rw [hcontent]
              rfl
            · refine ⟨⟨Nat.lt_of_lt_of_le htree.1 hgrows.node_le, Or.inr ?_⟩, [], ?_, ?_⟩
              · rw [hnode]
                exact hkind
              · rw [hnode]
              · rw [hnode, hitems]
                trivial
          · -- another node: a new one, and then its items
            have hnew := grows_addNode h ((h₀.nodeAt n).withItems [] hkind)
            have hchild : ∀ x ∈ (h₀.nodeAt n).links, HasTree h₀ k fuel x := by
              intro x hx
              obtain ⟨hlt, c, hc, hsub⟩ := htree.2.2 x hx
              have hless := length_linksBelow_lt (k := k) hx hc
              exact ⟨hlt, c, hc, hsub, by omega⟩
            obtain ⟨items, found, h₂, hrun, hread⟩ :=
              items_reads h.nextNode n ih (i := 0) (fun _ hitem => hitem) hchild
                (hgrows.trans hnew)
            have hdest : h₂.nodeAt h.nextNode = (h₀.nodeAt n).withItems [] hkind := by
              rw [hread.fresh.made.grows.nodeAt _ (Nat.lt_succ_self _)]
              exact Function.update_self _ _ _
            have hkind₂ : (h₂.nodeAt h.nextNode).kind ≠ .identifier := by
              rw [hdest]
              exact hkind
            refine ⟨h.nextNode, found, _, ?_, hread.fresh.putNode hkind₂, hread.met, hread.modes, ?_⟩
            · refine (run_bind hget).trans ?_
              rw [if_neg hkind]
              refine (run_bind (run_newNode _ h)).trans ?_
              refine (run_bind hrun).trans ?_
              exact (run_bind (run_setItems items hkind₂)).trans rfl
            · intro hnodup
              refine ⟨_, rfl, ?_⟩
              exact readsNode_putNode hdest hkind₂ hread hnodup

end Duplicate

namespace TreeZone

open Duplicate

variable {h₀ h : TreeHeap} {k n : Nat} {z : TreeZone} {D : Region} {t : Content}

/-- **The duplicate of a zone reads as the zone**, with a placeholder for each terminus. -/
theorem duplicate_reads (hz : h₀.HoldsZone k z n) (hne : z.isEmpty = false)
    (hgrows : h₀.Grows h) (hread : h₀.ReadsLink z.terminii D t z.base) :
    ∃ fz t' h', z.duplicate h = some (fz, h') ∧ h.Grows h'
      ∧ fz.terminii.length = z.terminii.length
      ∧ (∀ p ∈ z.terminii.zip fz.terminii, LinkMode h₀ p.1 p.2.mode)
      ∧ (∀ d ∈ fz.base, (h'.nodeAt d).kind ≠ .subContainer
        ∧ (h'.nodeAt d).kind = (h₀.nodeAt n).kind)
      ∧ fill (plug z.terminii (fz.terminii.map fun m => [.hole m.slot])) t = [t']
      ∧ h'.ReadsFree (between h h') fz [t'] := by
  have hfuel : (h₀.linksBelow k n).length < h.nextLink :=
    Nat.lt_of_lt_of_le hz.length_lt hgrows.link_le
  have hworks : Works h₀ z.terminii k h.nextLink
      (Duplicate.subtreeWorker z.terminii h.nextLink) := subtreeWorker_spec
  have hreads : WorksReads h₀ z.terminii k h.nextLink
      (Duplicate.subtreeWorker z.terminii h.nextLink) := subtreeWorker_reads
  -- the run of the copy, with what it reads as
  obtain ⟨d, found, h', hrun, hcopied⟩ := hworks h n hgrows hz.tree hfuel
  obtain ⟨d', found', h'', hrun', hfresh, hmet, hmodes, hnode⟩ := hreads h n hgrows hz.tree hfuel
  rw [hrun] at hrun'
  cases hrun'
  -- the tree that the link reads as is the content of the node
  have hcontent : t = h₀.content z.terminii k n := by
    rw [hread.eq_content t z.base k n hz.base hz.tree]
    exact linkContent_child (hz.base_not_mem hne) hz.base
  have hfst : found.map Prod.fst = z.terminii := by
    rw [hcopied.met, hz.terminiiMet hne]
  obtain ⟨t', ht', hreadnode⟩ := hnode (hfst ▸ hz.terminii_nodup)
  have hfill : fill (plug z.terminii ((found.map Prod.snd).map fun m => [.hole m.slot])) t
      = [t'] := by
    rw [hcontent, ← ht']
    unfold renamed
    rw [hfst, List.map_map]
    rfl
  have hslots : (found.map Prod.snd).map Mutator.slot = slots found := List.map_map
  -- the node that is copied is no container, and its copy has its label
  have hkind : (h'.nodeAt d).kind ≠ .subContainer
      ∧ (h'.nodeAt d).kind = (h₀.nodeAt n).kind := by
    have htree := hz.tree
    cases k with
    | zero => exact htree.elim
    | succ k =>
        obtain ⟨_, groups, rfl, _⟩ := hreadnode
        have hlabels : (h₀.nodeAt n).label n = (h'.nodeAt d).label d := by
          injection (List.singleton_inj.mp ht')
        have hsame : (h₀.nodeAt n).kind = (h'.nodeAt d).kind := congrArg NodeLabel.kind hlabels
        rw [← hsame]
        exact ⟨htree.2.1, rfl⟩
  -- the zone: its terminii, their modes, the base, and the holes
  refine ⟨⟨some d, found.map Prod.snd⟩, t', h', duplicate_run hz hne hgrows hrun hcopied,
    hcopied.made.grows, ?_, ?_, ?_, hfill, ⟨d, rfl, Or.inr ⟨hkind.1, t', rfl, hreadnode⟩⟩,
    hfresh.owned, ?_, ?_, ?_⟩
  · show (found.map Prod.snd).length = _
    rw [List.length_map, ← hfst, List.length_map]
  · intro p hp
    rw [← hfst, List.zip_map'] at hp
    obtain ⟨q, hq, rfl⟩ := List.mem_map.mp hp
    exact hmodes q hq
  · intro d' hd'
    obtain rfl : d = d' := Option.some.inj hd'
    exact hkind
  · -- the holes are the terminii, in order
    have hholes : holes t = z.terminii := by
      rw [hcontent, holes_content hz.tree, hz.terminiiMet hne]
    have hlen : z.terminii.length
        = ((found.map Prod.snd).map fun m => [Term.hole (A := NodeLabel) m.slot]).length := by
      rw [List.length_map, List.length_map, ← hfst, List.length_map]
    rw [← hfill, holesAll_fill, hholes, flatMap_holesAll_plug hlen hz.terminii_nodup,
      ← List.flatMap_def, holesAll_eq, List.flatMap_assoc]
    show List.Perm ((found.map Prod.snd).flatMap fun m => [m.slot]) _
    rw [← List.map_eq_flatMap]
  · show ((found.map Prod.snd).map Mutator.slot).Nodup
    rw [hslots]
    exact hcopied.made.nodup
  · intro m hm
    obtain ⟨p, hp, rfl⟩ := List.mem_map.mp hm
    have hinside := hcopied.inside p hp
    exact ⟨⟨hinside.parent_ge, hinside.parent_lt⟩, hinside.place⟩

end TreeZone

end Inferno.DB
