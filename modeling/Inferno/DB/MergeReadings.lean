/-
  Inferno.DB.MergeReadings
  ────────────────────────
  What `MergeTerminus` makes of what zones read as.

    • `Fills`       — links in place of a placeholder, read where the hole was,
    • `ReadsFree.fills` — the parent with a hole filled,
    • `Merged`      — what a merge makes: the parent with the child's trees at the hole,
    • `merge_reads` — **`MergeTerminus` makes that**, whether the child is a tree or the
                      elements of a container.
-/
import Inferno.DB.ContainerMerge
import Inferno.DB.Readings
import Inferno.DB.ZoneRoundTrip

namespace Inferno.DB

open Inferno.Common Inferno.Helpers Inferno.Lib Inferno.Lib.Term Update TreeHeap

/-! ## §1. Links in place of a placeholder. -/

/-- The links in place of `slot`. -/
def inPlaceOf (slot : Nat) (new : List Nat) (x : Nat) : List Nat :=
  if x = slot then new else [x]

/-- The trees in place of the hole `slot`. -/
def atHole (slot : Nat) (vs : List Content) (y : Nat) : List Content :=
  if y = slot then vs else [.hole y]

theorem inPlaceOf_self {slot : Nat} {new : List Nat} : inPlaceOf slot new slot = new :=
  if_pos rfl

theorem inPlaceOf_ne {slot x : Nat} {new : List Nat} (hne : x ≠ slot) :
    inPlaceOf slot new x = [x] :=
  if_neg hne

/-- Where the placeholder is not, nothing is put. -/
theorem flatMap_inPlaceOf {slot : Nat} {new xs : List Nat} (hslot : slot ∉ xs) :
    xs.flatMap (inPlaceOf slot new) = xs := by
  induction xs with
  | nil => rfl
  | cons x xs ih =>
      rw [List.mem_cons, not_or] at hslot
      rw [List.flatMap_cons, inPlaceOf_ne (Ne.symm hslot.1), ih hslot.2]
      rfl

namespace TreeHeap

/-- **New links in place of a placeholder**: in the nodes of a region, `new` is where `slot`
was, and reads as `vs`. -/
structure Fills (h h' : TreeHeap) (R S : Region) (slot : Nat) (new : List Nat)
    (vs : List Content) : Prop where
  has : ∀ n, h.Has R n → h'.Has S n
  label : ∀ n, h.Has R n → (h'.nodeAt n).label n = (h.nodeAt n).label n
  links : ∀ n, h.Has R n → (h'.nodeAt n).items.map Item.links
    = (h.nodeAt n).items.map fun item => item.links.flatMap (inPlaceOf slot new)
  childOf : ∀ n, h.Has R n → ∀ x ∈ (h.nodeAt n).links, x ≠ slot →
    h'.childOf x = h.childOf x
  null : h.childOf slot = none
  reads : h'.ReadsLinks [] S vs new

section

variable {h h' : TreeHeap} {R S : Region} {slot : Nat} {new : List Nat} {vs : List Content}

mutual

theorem Fills.link (hfills : Fills h h' R S slot new vs) : ∀ (t : Content) (x : Nat),
    (x ≠ slot → h'.childOf x = h.childOf x) → h.ReadsLink [] R t x →
    h'.ReadsLinks [] S (Term.fill (atHole slot vs) t) (inPlaceOf slot new x)
  | .hole y, x, hx, hread => by
      obtain ⟨rfl, hends | hnull⟩ := hread
      · exact absurd hends List.not_mem_nil
      · show h'.ReadsLinks [] S (atHole slot vs y) _
        by_cases hy : y = slot
        · unfold atHole
          rw [if_pos hy, hy, inPlaceOf_self]
          exact hfills.reads
        · unfold atHole
          rw [if_neg hy, inPlaceOf_ne hy]
          exact ⟨⟨rfl, Or.inr ((hx hy).trans hnull)⟩, trivial⟩
  | .node label groups, x, hx, hread => by
      obtain ⟨hends, n, hn, hhas, hlabel, hitems⟩ := hread
      have hne : x ≠ slot := by
        rintro rfl
        rw [hfills.null] at hn
        cases hn
      rw [inPlaceOf_ne hne]
      refine ⟨⟨hends, n, (hx hne).trans hn, hfills.has n hhas, ?_, ?_⟩, trivial⟩
      · rw [hfills.label n hhas]
        exact hlabel
      · exact hfills.items groups _ _ (hfills.links n hhas) (hfills.childOf n hhas) hitems

theorem Fills.items (hfills : Fills h h' R S slot new vs) : ∀ (groups : List (List Content))
    (items items' : List (Item Nat)),
    items'.map Item.links = items.map (fun item => item.links.flatMap (inPlaceOf slot new)) →
    (∀ x ∈ items.flatMap Item.links, x ≠ slot → h'.childOf x = h.childOf x) →
    h.ReadsItems [] R groups items →
    h'.ReadsItems [] S (fillIn (atHole slot vs) groups) items'
  | [], [], [], _, _, _ => trivial
  | ts :: groups, item :: items, item' :: items', hmap, hx, hread => by
      rw [List.map_cons, List.map_cons, List.cons.injEq] at hmap
      rw [List.flatMap_cons, List.forall_mem_append] at hx
      refine ⟨?_, hfills.items groups items items' hmap.2 hx.2 hread.2⟩
      rw [hmap.1]
      exact hfills.all ts _ hx.1 hread.1
  | [], _ :: _, _, _, _, hread => hread.elim
  | _ :: _, [], _, _, _, hread => hread.elim
  | [], [], _ :: _, hmap, _, _ => absurd hmap (by simp)
  | _ :: _, _ :: _, [], hmap, _, _ => absurd hmap (by simp)

theorem Fills.all (hfills : Fills h h' R S slot new vs) : ∀ (ts : List Content)
    (xs : List Nat), (∀ x ∈ xs, x ≠ slot → h'.childOf x = h.childOf x) →
    h.ReadsLinks [] R ts xs →
    h'.ReadsLinks [] S (fillAll (atHole slot vs) ts) (xs.flatMap (inPlaceOf slot new))
  | [], [], _, _ => trivial
  | t :: ts, x :: xs, hx, hread => by
      rw [List.forall_mem_cons] at hx
      rw [List.flatMap_cons]
      exact readsLinks_append (hfills.link t x hx.1 hread.1) (hfills.all ts xs hx.2 hread.2)
  | [], _ :: _, _, hread => hread.elim
  | _ :: _, [], _, hread => hread.elim

end

/-- A node, with the hole filled. -/
theorem Fills.node (hfills : Fills h h' R S slot new vs) {t : Content} {n : Nat}
    (hread : h.ReadsNode [] R t n) :
    ∃ t', Term.fill (atHole slot vs) t = [t'] ∧ h'.ReadsNode [] S t' n := by
  obtain ⟨hhas, groups, rfl, hitems⟩ := hread
  refine ⟨_, rfl, hfills.has n hhas, _, ?_,
    hfills.items groups _ _ (hfills.links n hhas) (hfills.childOf n hhas) hitems⟩
  rw [hfills.label n hhas]

theorem mode_of_itemKind {a b : Item Nat} (hkind : itemKind a = itemKind b) :
    a.mode = b.mode := by
  cases a <;> cases b <;> first | rfl | exact absurd hkind (by simp [itemKind])

/-- The items of a node, one by one. -/
theorem Fills.item (hfills : Fills h h' R S slot new vs) {n j : Nat} (hhas : h.Has R n)
    {item : Item Nat} (hget : (h.nodeAt n).items[j]? = some item) :
    ∃ item', (h'.nodeAt n).items[j]? = some item' ∧ item'.mode = item.mode
      ∧ item'.links = item.links.flatMap (inPlaceOf slot new) := by
  have hlinks : ((h'.nodeAt n).items[j]?).map Item.links
      = ((h.nodeAt n).items[j]?).map fun item => item.links.flatMap (inPlaceOf slot new) := by
    rw [← List.getElem?_map, ← List.getElem?_map, hfills.links n hhas]
  have hshapes : ((h'.nodeAt n).items[j]?).map itemKind
      = ((h.nodeAt n).items[j]?).map itemKind := by
    rw [← List.getElem?_map, ← List.getElem?_map]
    exact congrArg (·[j]?) (congrArg NodeLabel.shapes (hfills.label n hhas))
  rw [hget] at hlinks hshapes
  obtain ⟨item', hget', hlinks'⟩ := Option.map_eq_some_iff.mp hlinks
  rw [hget'] at hshapes
  exact ⟨item', hget', mode_of_itemKind (Option.some.inj hshapes), hlinks'⟩

end

/-! ## §2. The parent with a hole filled. -/

section

variable {h h' : TreeHeap} {R S : Region} {z : FreeZone} {us vs : List Content}
  {i : Nat} {t : Mutator}

/-- What comes before and after a terminus. -/
theorem eq_take_append_cons {α : Type} {l : List α} {a : α} (hget : l[i]? = some a) :
    l = l.take i ++ a :: l.drop (i + 1) := by
  obtain ⟨hlt, rfl⟩ := List.getElem?_eq_some_iff.mp hget
  rw [← List.drop_eq_getElem_cons hlt, List.take_append_drop]

/-- **The parent with a hole filled**: the terminii `ms` of what fills it come in place of
the terminus `t`. -/
theorem ReadsFree.fills (hz : h.ReadsFree R z us) (ht : z.terminii[i]? = some t)
    {new : List Nat} (hfills : Fills h h' R S t.slot new vs) (hle : ∀ n ∈ R.1, n ∈ S.1)
    (howned : h'.Owned S) {ms : List Mutator}
    (hholes : (holesAll vs).Perm (ms.map Mutator.slot)) (hnodup : (ms.map Mutator.slot).Nodup)
    (hapart : ∀ m ∈ ms, ∀ m' ∈ z.terminii, m'.slot ≠ t.slot → m.slot ≠ m'.slot)
    (hplaced : ∀ m ∈ ms, m.parentNode ∈ S.1 ∧ (h'.nodeAt m.parentNode).HasPlace m) :
    h'.ReadsFree S ⟨z.base, z.terminii.take i ++ ms ++ z.terminii.drop (i + 1)⟩
      (fillAll (atHole t.slot vs) us) := by
  -- the terminii before and after the one that is filled
  have hsplit := eq_take_append_cons ht
  have hslots : z.terminii.map Mutator.slot = (z.terminii.take i).map Mutator.slot
      ++ t.slot :: (z.terminii.drop (i + 1)).map Mutator.slot := by
    rw [← List.map_cons, ← List.map_append, ← hsplit]
  have hnodup' := hz.nodup
  rw [hslots, List.nodup_append', List.nodup_cons] at hnodup'
  obtain ⟨htake, ⟨htdrop, hdrop⟩, hdisjoint⟩ := hnodup'
  have httake : t.slot ∉ (z.terminii.take i).map Mutator.slot :=
    fun hmem => hdisjoint hmem List.mem_cons_self
  -- a terminus that stays is another one
  have hother {m : Mutator} (hm : m ∈ z.terminii.take i ++ z.terminii.drop (i + 1)) :
      m ∈ z.terminii ∧ m.slot ≠ t.slot := by
    rcases List.mem_append.mp hm with hm | hm
    · exact ⟨List.mem_of_mem_take hm, fun heq => httake (heq ▸ List.mem_map_of_mem hm)⟩
    · exact ⟨List.mem_of_mem_drop hm, fun heq => htdrop (heq ▸ List.mem_map_of_mem hm)⟩
  have hrest {m m' : Mutator} (hm : m ∈ ms)
      (hm' : m' ∈ z.terminii.take i ++ z.terminii.drop (i + 1)) : m.slot ≠ m'.slot :=
    hapart m hm m' (hother hm').1 (hother hm').2
  -- the base, the holes, their difference, and their places
  refine ⟨?_, howned, ?_, ?_, ?_⟩
  · obtain ⟨b, hb, hbase⟩ := hz.base
    have hkind : (h'.nodeAt b).kind = (h.nodeAt b).kind :=
      congrArg NodeLabel.kind (hfills.label b hbase.has)
    refine ⟨b, hb, ?_⟩
    -- the base is a container, or a node
    rcases hbase with ⟨hb', hhas, item, hitems, hmode, hread⟩ | ⟨hb', u, rfl, hread⟩
    · obtain ⟨item', hget', hmode', hlinks'⟩ :=
        hfills.item hhas (show (h.nodeAt b).items[0]? = some item by rw [hitems]; rfl)
      have hlength : (h'.nodeAt b).items.length = 1 := by
        have hlen := congrArg List.length (hfills.links b hhas)
        rw [List.length_map, List.length_map, hitems] at hlen
        exact hlen
      obtain ⟨item'', hitem''⟩ := List.length_eq_one_iff.mp hlength
      rw [hitem''] at hget'
      obtain rfl : item'' = item' := Option.some.inj hget'
      refine Or.inl ⟨by rw [hkind]; exact hb', hfills.has b hhas, item'', hitem'',
        hmode'.trans hmode, ?_⟩
      rw [hlinks']
      refine hfills.all us _ (fun x hx => hfills.childOf b hhas x ?_) hread
      unfold NodeRecord.links
      rw [hitems, List.flatMap_singleton]
      exact hx
    · obtain ⟨u', hu', hread'⟩ := hfills.node hread
      exact Or.inr ⟨by rw [hkind]; exact hb', u', by rw [fillAll_singleton, hu'], hread'⟩
  · -- the holes: those of the zone, with the new ones at the place
    rw [holesAll_fillAll]
    have hfilled : (fun y => holesAll (atHole t.slot vs y)) = inPlaceOf t.slot (holesAll vs) := by
      funext y
      unfold atHole inPlaceOf
      split
      · rfl
      · rfl
    rw [hfilled]
    refine (hz.holes.flatMap_right _).trans ?_
    rw [hslots, List.flatMap_append, List.flatMap_cons, inPlaceOf_self, flatMap_inPlaceOf httake,
      flatMap_inPlaceOf htdrop, ← List.append_assoc, List.map_append, List.map_append]
    exact (hholes.append_left _).append_right _
  · rw [List.map_append, List.map_append]
    refine List.nodup_append'.mpr ⟨List.nodup_append'.mpr ⟨htake, hnodup, ?_⟩, hdrop, ?_⟩
    · intro x hx hx'
      obtain ⟨m', hm', rfl⟩ := List.mem_map.mp hx
      obtain ⟨m, hm, heq⟩ := List.mem_map.mp hx'
      exact hrest hm (List.mem_append_left _ hm') heq
    · intro x hx hx'
      obtain ⟨m', hm', rfl⟩ := List.mem_map.mp hx'
      rcases List.mem_append.mp hx with hx | hx
      · exact hdisjoint hx (List.mem_cons_of_mem _ hx')
      · obtain ⟨m, hm, heq⟩ := List.mem_map.mp hx
        exact hrest hm (List.mem_append_right _ hm') heq
  · -- a terminus that came with the child, or one that stays
    intro m hm
    have hcases : m ∈ ms ∨ m ∈ z.terminii.take i ++ z.terminii.drop (i + 1) := by
      rw [List.mem_append, List.mem_append] at hm
      rw [List.mem_append]
      tauto
    rcases hcases with hm | hm
    · exact hplaced m hm
    · obtain ⟨hparent, item, hget, hslot, hmode⟩ := hz.placed m (hother hm).1
      have hhas : h.Has R m.parentNode := ⟨hz.owned.node_lt _ hparent, Or.inl hparent⟩
      obtain ⟨item', hget', hmode', hlinks'⟩ := hfills.item hhas hget
      refine ⟨hle _ hparent, item', hget', ?_, hmode.trans hmode'.symm⟩
      rw [hlinks']
      refine List.mem_flatMap.mpr ⟨m.slot, hslot, ?_⟩
      rw [inPlaceOf_ne (hother hm).2]
      exact List.mem_singleton_self _

end

/-! ## §3. Merges. -/

/-- **What a merge makes** of a zone and a child zone at the terminus `i`, which is `t`: the
terminii `ms` of the child come in its place, and the child's trees are at the hole, with
holes that take what the child's would. -/
structure Merged (h h' : TreeHeap) (R R' : Region) (z : FreeZone) (i : Nat) (t : Mutator)
    (childZone : FreeZone) (us vs : List Content) (ms : List Mutator) (S : Region)
    (ws : List Content) : Prop where
  length : ms.length = childZone.terminii.length
  reads : h'.ReadsFree S ⟨z.base, z.terminii.take i ++ ms ++ z.terminii.drop (i + 1)⟩
    (fillAll (atHole t.slot ws) us)
  holes : ∀ y ∈ holesAll ws, y ∈ ms.map Mutator.slot
  filled : ∀ tss : List (List Content), fillAll (plug (ms.map Mutator.slot) tss) ws
    = fillAll (plug (childZone.terminii.map Mutator.slot) tss) vs
  changes : ChangesOnly h h' R
  region_le : S ≤ R ⊔ R' ⊔ unused h

section

variable {h : TreeHeap} {R R' : Region} {z childZone : FreeZone} {us vs : List Content}
  {i e : Nat} {t : Mutator}

theorem run_isEmpty {base : Nat} (hbase : z.base = some base) :
    z.isEmpty h = some (false, h) := by
  unfold FreeZone.isEmpty
  rw [hbase]
  rfl

/-- A tree goes in at a terminus. -/
theorem mergeTerminus_node (hz : z.base.isSome) (ht : z.terminii[i]? = some t)
    (hmode : t.mode ≠ .null) (hbase : childZone.base = some e)
    (hkind : (h.nodeAt e).kind ≠ .subContainer) : z.mergeTerminus i childZone true h
      = some ((⟨z.base, z.terminii.take i ++ childZone.terminii ++ z.terminii.drop (i + 1)⟩,
        i + childZone.terminii.length, some t.slot),
        { h with childOf := Function.update h.childOf t.slot (some e) }) := by
  obtain ⟨b, hb⟩ := Option.isSome_iff_exists.mp hz
  have hcontainer : childZone.tryGetContainerBase h = some (none, h) := by
    unfold FreeZone.tryGetContainerBase
    rw [hbase]
    exact (run_bind (run_isContainerInterface hkind)).trans rfl
  have hexchange : t.exchangeChild childZone.base h = some (h.childOf t.slot,
      { h with childOf := Function.update h.childOf t.slot (some e) }) := by
    rw [hbase]
    refine (run_bind (run_isContainerInterface hkind)).trans ?_
    refine (run_bind (run_assert rfl h)).trans ?_
    exact (run_bind (Mutator.run_getChildTreePtr hmode h)).trans rfl
  unfold FreeZone.mergeTerminus
  rw [ht]
  refine (run_bind (run_isEmpty hbase)).trans ?_
  refine (run_bind (run_isEmpty hb)).trans ?_
  refine (run_bind hcontainer).trans ?_
  refine (run_bind hexchange).trans ?_
  exact (run_bind (run_resultingXLink hmode)).trans rfl

/-- A zone whose base is no container reads as one tree. -/
theorem ReadsFree.node_of_base (hchild : h.ReadsFree R' childZone vs)
    (hbase : childZone.base = some e) (hkind : (h.nodeAt e).kind ≠ .subContainer) :
    ∃ v, vs = [v] ∧ h.ReadsNode [] R' v e := by
  obtain ⟨b, hb, hread⟩ := hchild.base
  obtain rfl : e = b := Option.some.inj (hbase.symm.trans hb)
  rcases hread with ⟨hcontainer, _⟩ | ⟨_, hnode⟩
  · exact absurd hcontainer hkind
  · exact hnode

/-- Links of two regions that are apart. -/
theorem ne_of_disjoint (hapart : Disjoint R R') {x y : Nat} (hx : x ∈ R.2) (hy : y ∈ R'.2) :
    y ≠ x := by
  intro heq
  exact Set.disjoint_left.mp (Prod.disjoint_iff.mp hapart).2 hx (heq ▸ hy)

/-- **A tree at a placeholder.** -/
theorem merged_node (hz : h.ReadsFree R z us) (hchild : h.ReadsFree R' childZone vs)
    (hapart : Disjoint R R') (ht : z.terminii[i]? = some t) (hbase : childZone.base = some e)
    (hkind : (h.nodeAt e).kind ≠ .subContainer) :
    Merged h { h with childOf := Function.update h.childOf t.slot (some e) } R R' z i t childZone
      us vs childZone.terminii (R ⊔ R') vs := by
  -- only the placeholder's link is written
  have htmem : t ∈ z.terminii := List.mem_of_getElem? ht
  have hslot : t.slot ∈ R.2 := (hz.slot_mem htmem).2
  obtain ⟨v, rfl, hnode⟩ := hchild.node_of_base hbase hkind
  have hchanges : ChangesOnly h
      { h with childOf := Function.update h.childOf t.slot (some e) } R := by
    refine ⟨Nat.le_refl _, Nat.le_refl _, fun _ _ _ => rfl, fun _ _ _ => rfl, fun _ _ => rfl,
      fun x _ hx => ?_, fun x _ n hn => ?_⟩
    · refine Function.update_of_ne ?_ _ _
      rintro rfl
      exact hx hslot
    · rw [← hn]
      refine Function.update_of_ne ?_ _ _
      rintro rfl
      rw [hz.slot_null htmem] at hn
      cases hn
  -- the child reads as it did
  have hchild' := hchild.frame hchanges hapart
  have howned : TreeHeap.Owned
      { h with childOf := Function.update h.childOf t.slot (some e) } (R ⊔ R') := by
    have hboth := hz.owned.sup hchild.owned hapart
    exact ⟨hboth.node_lt, hboth.link_lt, hboth.links, hboth.nodup, hboth.owner⟩
  have hsame := hchanges.unchanged hapart hchild.owned
  -- it fills the hole, and nothing else of the zone is changed
  have hfills : Fills h { h with childOf := Function.update h.childOf t.slot (some e) } R (R ⊔ R')
      t.slot [t.slot] [v] := by
    refine ⟨fun n hn => hn.mono le_sup_left, fun _ _ => rfl, fun n _ => ?_, fun n _ x _ hx => ?_,
      hz.slot_null htmem, ?_⟩
    · refine List.map_congr_left fun item _ => ?_
      have hself : inPlaceOf t.slot [t.slot] = fun x => [x] := by
        funext x
        unfold inPlaceOf
        split
        · next heq => rw [heq]
        · rfl
      rw [hself]
      exact (List.flatMap_singleton' item.links).symm
    · exact Function.update_of_ne hx _ _
    · refine ⟨readsLink_of_node List.not_mem_nil (Function.update_self _ _ _) ?_, trivial⟩
      exact hnode.congr hsame le_sup_right
  refine ⟨rfl, ?_, fun y hy => hchild.holes.mem_iff.mp hy, fun _ => rfl, hchanges, le_sup_left⟩
  refine hz.fills ht hfills (fun n hn => Or.inl hn) howned hchild.holes hchild.nodup ?_ ?_
  · intro m hm m' hm' _
    exact ne_of_disjoint hapart (hz.slot_mem hm').2 (hchild.slot_mem hm).2
  · intro m hm
    have hplace := hchild'.placed m hm
    exact ⟨Or.inr hplace.1, hplace.2⟩

end

/-! ## §4. The elements of a container at a placeholder. -/

section

variable {h h' h₁ : TreeHeap} {Q R R' S : Region} {z childZone : FreeZone} {us vs : List Content}
  {i e : Nat} {t : Mutator} {item : Item Nat} {new xs : List Nat} {record : NodeRecord}

/-- The item of the parent that changes, among the others. -/
theorem inParent_split (hin : InParent h t new record) : ∃ A B item₀ item' before after,
    (h.nodeAt t.parentNode).items = A ++ item₀ :: B ∧ record.items = A ++ item' :: B
      ∧ itemKind item' = itemKind item₀ ∧ item₀.links = before ++ t.slot :: after
      ∧ item'.links = before ++ new ++ after := by
  obtain ⟨item₀, item', before, after, hget, hitems, _, hkind, _, hlinks, hlinks'⟩ := hin.items
  obtain ⟨hlt, hget'⟩ := List.getElem?_eq_some_iff.mp hget
  obtain ⟨A, B, hsplit, _, hset⟩ := @List.exists_of_set _ _ item' _ hlt
  rw [hget'] at hsplit
  exact ⟨A, B, item₀, item', before, after, hsplit, hitems.trans hset, hkind, hlinks, hlinks'⟩

/-- The parent has the label it had. -/
theorem inParent_label (hin : InParent h t new record) (n : Nat) :
    record.label n = (h.nodeAt t.parentNode).label n := by
  obtain ⟨A, B, item₀, item', _, _, hitems, hitems', hkind, _⟩ := inParent_split hin
  have hshapes : record.items.map itemKind = (h.nodeAt t.parentNode).items.map itemKind := by
    rw [hitems, hitems', List.map_append, List.map_append, List.map_cons, List.map_cons, hkind]
  unfold NodeRecord.label
  rw [hin.label.1, hin.label.2.1, hin.label.2.2, hshapes]

/-- And in its items, the new links are where the placeholder was. -/
theorem inParent_links (hin : InParent h t new record)
    (hnodup : (h.nodeAt t.parentNode).links.Nodup) : record.items.map Item.links
      = (h.nodeAt t.parentNode).items.map fun item =>
          item.links.flatMap (inPlaceOf t.slot new) := by
  obtain ⟨A, B, item₀, item', before, after, hitems, hitems', _, hlinks, hlinks'⟩ :=
    inParent_split hin
  unfold NodeRecord.links at hnodup
  rw [hitems, List.flatMap_append, List.flatMap_cons, hlinks, List.nodup_append',
    List.nodup_append', List.nodup_append', List.nodup_cons] at hnodup
  obtain ⟨_, ⟨⟨_, ⟨hafter, _⟩, hbefore⟩, _, hB⟩, hA⟩ := hnodup
  have hsame {items : List (Item Nat)} (hslot : t.slot ∉ items.flatMap Item.links) :
      items.map Item.links
        = items.map fun item => item.links.flatMap (inPlaceOf t.slot new) := by
    refine List.map_congr_left fun item hitem => (flatMap_inPlaceOf fun hmem => hslot ?_).symm
    exact List.mem_flatMap.mpr ⟨item, hitem, hmem⟩
  have hitem : item'.links = item₀.links.flatMap (inPlaceOf t.slot new) := by
    rw [hlinks, hlinks', List.flatMap_append, List.flatMap_cons, inPlaceOf_self,
      flatMap_inPlaceOf fun hmem => hbefore hmem List.mem_cons_self, flatMap_inPlaceOf hafter,
      List.append_assoc]
  have hslot : t.slot ∈ before ++ t.slot :: after :=
    List.mem_append_right _ List.mem_cons_self
  rw [hitems, hitems', List.map_append, List.map_append, List.map_cons, List.map_cons, hitem,
    hsame fun hmem => hA hmem (List.mem_append_left _ hslot), hsame fun hmem => hB hslot hmem]

theorem mem_flatMap_inPlaceOf {slot x : Nat} : x ∈ xs.flatMap (inPlaceOf slot new)
    ↔ (slot ∈ xs ∧ x ∈ new) ∨ (x ∈ xs ∧ x ≠ slot) := by
  rw [List.mem_flatMap]
  constructor
  · intro hmem
    obtain ⟨y, hy, hx⟩ := hmem
    by_cases hys : y = slot
    · rw [hys, inPlaceOf_self] at hx
      exact Or.inl ⟨hys ▸ hy, hx⟩
    · rw [inPlaceOf_ne hys, List.mem_singleton] at hx
      rw [hx]
      exact Or.inr ⟨hy, hys⟩
  · intro hmem
    rcases hmem with ⟨hslot, hx⟩ | ⟨hx, hne⟩
    · exact ⟨slot, hslot, by rw [inPlaceOf_self]; exact hx⟩
    · exact ⟨x, hx, by rw [inPlaceOf_ne hne]; exact List.mem_singleton_self x⟩

/-- **A region with new links in place of one** is owned as before. -/
theorem Owned.inPlace (howned : h.Owned Q) (slot : Nat) (hnode : h.nextNode ≤ h'.nextNode)
    (hlink : h.nextLink ≤ h'.nextLink) (hfresh : ∀ y ∈ new, h.nextLink ≤ y ∧ y < h'.nextLink)
    (hnodup : new.Nodup)
    (hlinks : ∀ n ∈ Q.1, (h'.nodeAt n).links = (h.nodeAt n).links.flatMap (inPlaceOf slot new)) :
    h'.Owned (Q ⊔ (∅, {y | y ∈ new})) := by
  have hold {n x : Nat} (hn : n ∈ Q.1) (hx : x ∈ (h.nodeAt n).links) : x < h.nextLink :=
    howned.link_lt x (howned.links n hn x hx)
  -- a new link is in no node that was there
  have hnew {n x : Nat} (hn : n ∈ Q.1) (hx : x ∈ (h.nodeAt n).links) : x ∉ new := by
    intro hmem
    exact absurd (hold hn hx) (Nat.not_lt_of_le (hfresh x hmem).1)
  -- the nodes; the links; who has them; and that each has one owner
  refine ⟨?_, ?_, ?_, ?_, ?_⟩
  · intro n hn
    exact Nat.lt_of_lt_of_le (howned.node_lt n (hn.resolve_right id)) hnode
  · intro x hx
    rcases hx with hx | hx
    · exact Nat.lt_of_lt_of_le (howned.link_lt x hx) hlink
    · exact (hfresh x hx).2
  · intro n hn x hx
    have hn' : n ∈ Q.1 := hn.resolve_right id
    rw [hlinks n hn', mem_flatMap_inPlaceOf] at hx
    exact hx.symm.imp (fun hx => howned.links n hn' x hx.1) (fun hx => hx.2)
  · intro n hn
    have hn' : n ∈ Q.1 := hn.resolve_right id
    rw [hlinks n hn', List.nodup_flatMap]
    refine ⟨fun x _ => ?_, ?_⟩
    · by_cases hx : x = slot
      · rw [hx, inPlaceOf_self]
        exact hnodup
      · rw [inPlaceOf_ne hx]
        exact List.nodup_singleton x
    · -- the links of a node stay different: the new ones are in one place
      refine (howned.nodup n hn').imp_of_mem fun {x y} hx hy hne => ?_
      intro w hwx hwy
      by_cases hxs : x = slot
      · have hys : y ≠ slot := fun heq => hne (hxs.trans heq.symm)
        rw [hxs, inPlaceOf_self] at hwx
        rw [inPlaceOf_ne hys, List.mem_singleton] at hwy
        exact hnew hn' hy (hwy ▸ hwx)
      · rw [inPlaceOf_ne hxs, List.mem_singleton] at hwx
        by_cases hys : y = slot
        · rw [hys, inPlaceOf_self] at hwy
          exact hnew hn' hx (hwx ▸ hwy)
        · rw [inPlaceOf_ne hys, List.mem_singleton] at hwy
          exact hne (hwx.symm.trans hwy)
  · -- a link that two nodes have is an old one
    intro n hn m hm x hxn hxm
    have hn' : n ∈ Q.1 := hn.resolve_right id
    have hm' : m ∈ Q.1 := hm.resolve_right id
    rw [hlinks n hn', mem_flatMap_inPlaceOf] at hxn
    rw [hlinks m hm', mem_flatMap_inPlaceOf] at hxm
    rcases hxn with ⟨hsn, hx⟩ | ⟨hxn, _⟩
    · rcases hxm with ⟨hsm, _⟩ | ⟨hxm, _⟩
      · exact howned.owner n hn' m hm' slot hsn hsm
      · exact absurd hx (hnew hm' hxm)
    · rcases hxm with ⟨_, hx⟩ | ⟨hxm, _⟩
      · exact absurd hx (hnew hn' hxn)
      · exact howned.owner n hn' m hm' x hxn hxm

/-- An element that is NULL reads as a hole. -/
theorem hole_mem_of_null (hread : h.ReadsLinks [] R vs xs) {x : Nat} (hx : x ∈ xs)
    (hnull : h.childOf x = none) : Term.hole x ∈ vs := by
  induction xs generalizing vs with
  | nil => exact absurd hx List.not_mem_nil
  | cons y xs ih =>
      cases vs with
      | nil => exact hread.elim
      | cons v vs =>
          rcases List.mem_cons.mp hx with rfl | hx
          · cases v with
            | hole w =>
                rw [hread.1.1]
                exact List.mem_cons_self
            | node label groups =>
                obtain ⟨_, n, hn, _⟩ := hread.1
                rw [hnull] at hn
                cases hn
          · exact List.mem_cons_of_mem _ (ih hread.2 hx)

/-- A hole inside an element is no element. -/
theorem not_mem_of_hole_inside (hread : h.ReadsLinks [] R vs xs) (hnodup : (holesAll vs).Nodup)
    {label : NodeLabel} {groups : List (List Content)} (hv : Term.node label groups ∈ vs) {y : Nat}
    (hy : y ∈ holesIn groups) : y ∉ xs := by
  intro hmem
  have hyall : y ∈ holesAll vs := by
    rw [holesAll_eq]
    exact List.mem_flatMap.mpr ⟨_, hv, hy⟩
  have hhole : Term.hole y ∈ vs := hole_mem_of_null hread hmem (ReadsLinks.null vs _ hread hyall)
  rw [holesAll_eq, List.nodup_flatMap] at hnodup
  have hsymm : Std.Symm (Function.onFun List.Disjoint (holes (A := NodeLabel) (X := Nat))) :=
    ⟨fun _ _ hab => hab.symm⟩
  have hne : Term.node label groups ≠ Term.hole y := by
    intro heq
    cases heq
  exact hnodup.2.forall hv hhole hne hy (List.mem_singleton_self y)

/-- **The new links read as the elements**, with the bare placeholders by their new names. -/
theorem elements_read {f : Nat → Nat} (hsame : Unchanged h h' R) (hle : R ≤ S)
    (hread : h.ReadsLinks [] R vs xs) (hchildren : new.map h'.childOf = xs.map h.childOf)
    (hf : ∀ p ∈ xs.zip new, f p.1 = p.2)
    (hinside : ∀ label groups, Term.node label groups ∈ vs → ∀ y ∈ holesIn groups, f y = y) :
    h'.ReadsLinks [] S (fillAll (fun y => [.hole (f y)]) vs) new := by
  induction xs generalizing vs new with
  | nil =>
      rw [List.map_nil, List.map_eq_nil_iff] at hchildren
      cases vs with
      | nil =>
          rw [hchildren]
          trivial
      | cons v vs => exact hread.elim
  | cons x xs ih =>
      cases vs with
      | nil => exact hread.elim
      | cons v vs =>
          cases new with
          | nil => exact absurd hchildren (by simp)
          | cons y new =>
              rw [List.map_cons, List.map_cons, List.cons.injEq] at hchildren
              rw [List.zip_cons_cons, List.forall_mem_cons] at hf
              have hrest := ih hread.2 hchildren.2 hf.2 fun label groups hmem =>
                hinside label groups (List.mem_cons_of_mem _ hmem)
              cases v with
              -- a placeholder is NULL in both, and gets the new name
              | hole w =>
                  obtain ⟨rfl, hends | hnull⟩ := hread.1
                  · exact absurd hends List.not_mem_nil
                  · exact ⟨⟨hf.1, Or.inr (hchildren.1.trans hnull)⟩, hrest⟩
              -- a node is read as before, for its own holes keep their names
              | node label groups =>
                  have hkept : Term.fill (fun y => [.hole (f y)]) (Term.node label groups)
                      = [Term.node label groups] := by
                    rw [← fill_hole (Term.node label groups)]
                    refine fill_congr _ fun z hz => ?_
                    rw [hinside label groups List.mem_cons_self z hz]
                  obtain ⟨hends, n, hn, hrest'⟩ := hread.1
                  have hnode : h.ReadsNode [] R (Term.node label groups) n :=
                    ReadsLink.node hends hn hread.1
                  show h'.ReadsLinks [] S (Term.fill _ _ ++ fillAll _ vs) (y :: new)
                  rw [hkept]
                  refine ⟨readsLink_of_node List.not_mem_nil (hchildren.1.trans hn) ?_, hrest⟩
                  exact hnode.congr hsame hle

end

/-! ## §5. Both. -/

/-- Where a placeholder of the container goes. -/
def goesTo (t : Mutator) (container : Nat) (pairs : List (Nat × Nat)) (y : Nat) : Nat :=
  (t.moved container pairs ⟨.container, container, 0, y⟩).slot

section

variable {h h₁ : TreeHeap} {R R' : Region} {z childZone : FreeZone} {us vs : List Content}
  {i e : Nat} {t : Mutator} {item : Item Nat} {new : List Nat} {record : NodeRecord}
  {pairs : List (Nat × Nat)}

theorem goesTo_mem {p : Nat × Nat} (hp : p ∈ pairs) (hnodup : (pairs.map Prod.fst).Nodup) :
    goesTo t e pairs p.1 = p.2 := by
  have hat : Mutator.StandsAt e p.1 ⟨.container, e, 0, p.1⟩ := ⟨rfl, rfl, rfl, rfl⟩
  unfold goesTo
  rw [Mutator.moved_of_standsAt hat hp hnodup]
  rfl

theorem goesTo_not_mem {y : Nat} (hy : y ∉ pairs.map Prod.fst) : goesTo t e pairs y = y := by
  unfold goesTo
  rw [Mutator.moved_of_not_standsAt]
  intro p hp hat
  exact hy (List.mem_map.mpr ⟨p, hp, hat.2.2.2.symm⟩)

/-- A terminus stays, or goes to the parent. -/
theorem moved_cases (t : Mutator) (e : Nat) (pairs : List (Nat × Nat)) (c : Mutator) :
    t.moved e pairs c = c ∨ ∃ y, t.moved e pairs c = t.atLink y := by
  induction pairs with
  | nil => exact Or.inl rfl
  | cons p pairs ih =>
      unfold Mutator.moved
      split
      · exact Or.inr ⟨p.2, rfl⟩
      · exact ih

/-- **A zone whose base is a container** is as the merge needs it. -/
theorem ReadsFree.containerZone (hchild : h.ReadsFree R' childZone vs)
    (hbase : childZone.base = some e) (hkind : (h.nodeAt e).kind = .subContainer) :
    ∃ item, ContainerZone h childZone e item ∧ e ∈ R'.1 ∧ h.ReadsLinks [] R' vs item.links := by
  obtain ⟨b, hb, hread⟩ := hchild.base
  obtain rfl : e = b := Option.some.inj (hbase.symm.trans hb)
  -- the base is a container, so that its one item has the elements
  rcases hread with ⟨_, hhas, item, hitems, hmode, hread⟩ | ⟨hnot, _⟩
  · have he : e ∈ R'.1 := by
      rcases hhas.2 with he | hid
      · exact he
      · rw [hkind] at hid
        cases hid
    have hlinks : (h.nodeAt e).links = item.links := by
      unfold NodeRecord.links
      rw [hitems, List.flatMap_singleton]
    refine ⟨item, ⟨hbase, hkind, hitems, hmode, ?_, ?_, ?_, ?_, ?_⟩, he, hread⟩
    · intro x hx
      exact hchild.owned.link_lt x (hchild.owned.links e he x (hlinks ▸ hx))
    · exact hlinks ▸ hchild.owned.nodup e he
    · intro c hc
      exact ⟨hchild.owned.link_lt _ (hchild.slot_mem hc).2, hchild.slot_null hc⟩
    · exact fun c hc => (hchild.placed c hc).2
    · -- an element that is NULL is the hole of one terminus, which stands in the container
      intro x hx hnull
      have hhole : x ∈ holesAll vs := by
        rw [holesAll_eq]
        exact List.mem_flatMap.mpr ⟨_, hole_mem_of_null hread hx hnull, List.mem_singleton_self x⟩
      obtain ⟨m, hm, rfl⟩ := List.mem_map.mp (hchild.holes.mem_iff.mp hhole)
      obtain ⟨hparent, item', hget, hslot, hm'⟩ := hchild.placed m hm
      have hown : m.parentNode = e :=
        hchild.owned.owner _ hparent e he m.slot (hchild.slot_mem hm).1 (hlinks ▸ hx)
      rw [hown, hitems] at hget
      have hstands : m.StandsAt e m.slot := by
        cases hidx : m.item with
        | zero =>
            rw [hidx] at hget
            obtain rfl : item = item' := Option.some.inj hget
            exact ⟨hm'.trans hmode, hown, hidx, rfl⟩
        | succ j =>
            rw [hidx] at hget
            cases hget
      have hperm : (childZone.terminii.filter fun c => c.StandsAt e m.slot).Perm [m] := by
        refine (List.perm_ext_iff_of_nodup (hchild.nodup.of_map.filter _)
          (List.nodup_singleton m)).mpr fun c => ?_
        rw [List.mem_filter, List.mem_singleton, decide_eq_true_iff]
        constructor
        · intro hc
          exact List.inj_on_of_nodup_map hchild.nodup hc.1 hm hc.2.2.2.2
        · intro hc
          rw [hc]
          exact ⟨hm, hstands⟩
      exact hperm.length_eq
  · exact absurd hkind hnot

/-- A free zone whose base is a container, about to go in at a terminus: `new` are the new links
in the parent, whose record becomes `record`. -/
structure ContainerJoin (h h₁ : TreeHeap) (R R' : Region) (z : FreeZone) (i : Nat) (t : Mutator)
    (childZone : FreeZone) (e : Nat) (item : Item Nat) (us vs : List Content) (new : List Nat)
    (record : NodeRecord) : Prop where
  parent : h.ReadsFree R z us
  child : h.ReadsFree R' childZone vs
  apart : Disjoint R R'
  terminus : z.terminii[i]? = some t
  zone : ContainerZone h childZone e item
  mem : e ∈ R'.1
  reads : h.ReadsLinks [] R' vs item.links
  inserted : Inserted item.links h h₁ new
  inParent : InParent h t new record

theorem putNode_self (h : TreeHeap) (n : Nat) (record : NodeRecord) :
    (h.putNode n record).nodeAt n = record :=
  Function.update_self _ _ _

namespace ContainerJoin

variable (hj : ContainerJoin h h₁ R R' z i t childZone e item us vs new record)

include hj

theorem mem_terminii : t ∈ z.terminii := List.mem_of_getElem? hj.terminus

theorem parent_mem : t.parentNode ∈ R.1 := (hj.parent.placed t hj.mem_terminii).1

theorem other {n : Nat} (hn : n ≠ t.parentNode) :
    (h₁.putNode t.parentNode record).nodeAt n = h.nodeAt n := by
  show Function.update h₁.nodeAt _ _ n = _
  rw [Function.update_of_ne hn, hj.inserted.nodes]

/-- No node gets another label. -/
theorem label (n : Nat) : ((h₁.putNode t.parentNode record).nodeAt n).label n
    = (h.nodeAt n).label n := by
  by_cases hn : n = t.parentNode
  · rw [hn, putNode_self]
    exact inParent_label hj.inParent _
  · rw [hj.other hn]

theorem kind (n : Nat) : ((h₁.putNode t.parentNode record).nodeAt n).kind = (h.nodeAt n).kind :=
  congrArg NodeLabel.kind (hj.label n)

/-- Only the parent changes. -/
theorem changes : ChangesOnly h (h₁.putNode t.parentNode record) R := by
  have hplain : (h.nodeAt t.parentNode).kind ≠ .identifier := by
    intro hkind
    obtain ⟨_, _, hget, _⟩ := hj.parent.placed t hj.mem_terminii
    rw [(h.nodeAt t.parentNode).identifier_items hkind] at hget
    cases hget
  have hgrows := hj.inserted.grows
  refine ⟨hgrows.node_le, hgrows.link_le, fun n _ hn => hj.other ?_, fun n _ hid => hj.other ?_,
    fun n _ => hj.kind n, fun x hx _ => hgrows.childOf x hx,
    fun x hx n hn => (hgrows.childOf x hx).trans hn⟩
  · rintro rfl
    exact hn hj.parent_mem
  · rintro rfl
    exact hplain hid

/-- In the nodes of both regions, the new links are where the placeholder was. -/
theorem items {n : Nat} (hn : n ∈ (R ⊔ R').1) :
    ((h₁.putNode t.parentNode record).nodeAt n).items.map Item.links
      = (h.nodeAt n).items.map fun item => item.links.flatMap (inPlaceOf t.slot new) := by
  by_cases hnp : n = t.parentNode
  · rw [hnp, putNode_self]
    exact inParent_links hj.inParent (hj.parent.owned.nodup _ hj.parent_mem)
  · rw [hj.other hnp]
    refine List.map_congr_left fun item' hitem' => (flatMap_inPlaceOf fun hmem => hnp ?_).symm
    refine (hj.parent.owned.sup hj.child.owned hj.apart).owner n hn t.parentNode
      (Or.inl hj.parent_mem) t.slot ?_ (hj.parent.slot_mem hj.mem_terminii).1
    exact List.mem_flatMap.mpr ⟨item', hitem', hmem⟩

/-- Both regions and the new links, as one region. -/
theorem owned :
    TreeHeap.Owned (h₁.putNode t.parentNode record) (R ⊔ R' ⊔ (∅, {y | y ∈ new})) := by
  refine (hj.parent.owned.sup hj.child.owned hj.apart).inPlace t.slot hj.inserted.grows.node_le
    hj.inserted.grows.link_le hj.inserted.fresh hj.inserted.nodup fun n hn => ?_
  unfold NodeRecord.links
  rw [List.flatMap_def, hj.items hn, List.flatMap_assoc, List.flatMap_def]

theorem zip_fst : (item.links.zip new).map Prod.fst = item.links :=
  List.map_fst_zip (Nat.le_of_eq hj.inserted.length.symm)

theorem zip_snd : (item.links.zip new).map Prod.snd = new :=
  List.map_snd_zip (Nat.le_of_eq hj.inserted.length)

theorem goesTo_pair {p : Nat × Nat} (hp : p ∈ item.links.zip new) :
    goesTo t e (item.links.zip new) p.1 = p.2 := by
  refine goesTo_mem hp ?_
  rw [hj.zip_fst]
  exact hj.zone.nodup

/-- A placeholder in the container goes to a new link. -/
theorem goesTo_new {y : Nat} (hy : y ∈ item.links) :
    h.nextLink ≤ goesTo t e (item.links.zip new) y := by
  obtain ⟨w, hw⟩ := exists_mem_zip hj.inserted.length hy
  rw [hj.goesTo_pair hw]
  exact (hj.inserted.fresh w (List.of_mem_zip hw).2).1

/-- Any other stays. -/
theorem goesTo_self {y : Nat} (hy : y ∉ item.links) : goesTo t e (item.links.zip new) y = y :=
  goesTo_not_mem (hj.zip_fst.symm ▸ hy)

theorem goesTo_inj : ∀ x ∈ childZone.terminii.map Mutator.slot,
    ∀ y ∈ childZone.terminii.map Mutator.slot,
    goesTo t e (item.links.zip new) x = goesTo t e (item.links.zip new) y → x = y := by
  have hlt {m : Mutator} (hm : m ∈ childZone.terminii) : m.slot < h.nextLink :=
    hj.child.owned.link_lt _ (hj.child.slot_mem hm).2
  intro x hx y hy heq
  obtain ⟨m, hm, rfl⟩ := List.mem_map.mp hx
  obtain ⟨m', hm', rfl⟩ := List.mem_map.mp hy
  have hm := hlt hm
  have hm' := hlt hm'
  by_cases hmem : m.slot ∈ item.links
  · by_cases hmem' : m'.slot ∈ item.links
    · obtain ⟨w, hw⟩ := exists_mem_zip hj.inserted.length hmem
      obtain ⟨w', hw'⟩ := exists_mem_zip hj.inserted.length hmem'
      rw [hj.goesTo_pair hw, hj.goesTo_pair hw'] at heq
      have hnodup : ((item.links.zip new).map Prod.snd).Nodup := by
        rw [hj.zip_snd]
        exact hj.inserted.nodup
      exact congrArg Prod.fst (List.inj_on_of_nodup_map hnodup hw hw' heq)
    · have hge := hj.goesTo_new hmem
      rw [hj.goesTo_self hmem'] at heq
      omega
  · rw [hj.goesTo_self hmem] at heq
    by_cases hmem' : m'.slot ∈ item.links
    · have hge := hj.goesTo_new hmem'
      omega
    · rw [hj.goesTo_self hmem'] at heq
      exact heq

/-- The placeholders of the child, by their new names. -/
theorem slots_eq : (childZone.terminii.map (t.moved e (item.links.zip new))).map Mutator.slot
    = (childZone.terminii.map Mutator.slot).map (goesTo t e (item.links.zip new)) := by
  rw [List.map_map, List.map_map]
  refine List.map_congr_left fun m hm => ?_
  show (t.moved e (item.links.zip new) m).slot = goesTo t e (item.links.zip new) m.slot
  by_cases hown : m.parentNode = e
  · have hat := (hj.zone.standsAt hm hown).2
    have heq : m = ⟨.container, e, 0, m.slot⟩ := by
      obtain ⟨hm1, hm2, hm3, _⟩ := hat
      cases m
      cases hm1
      cases hm2
      cases hm3
      rfl
    unfold goesTo
    rw [← heq]
  · rw [Mutator.moved_of_not_standsAt fun p _ hat => hown hat.2.1, hj.goesTo_self]
    intro hmem
    have hlinks : m.slot ∈ (h.nodeAt e).links := by
      unfold NodeRecord.links
      rw [hj.zone.items, List.flatMap_singleton]
      exact hmem
    exact hown (hj.child.owned.owner _ (hj.child.placed m hm).1 e hj.mem m.slot
      (hj.child.slot_mem hm).1 hlinks)

/-- **The elements at the hole**: the parent with its hole filled by them. -/
theorem fills : Fills h (h₁.putNode t.parentNode record) R (R ⊔ R' ⊔ (∅, {y | y ∈ new})) t.slot
    new (fillAll (fun y => [.hole (goesTo t e (item.links.zip new) y)]) vs) := by
  have hholes : (holesAll vs).Nodup := hj.child.holes.nodup_iff.mpr hj.child.nodup
  have hinside : ∀ label groups, Term.node label groups ∈ vs → ∀ y ∈ holesIn groups,
      goesTo t e (item.links.zip new) y = y := by
    intro label groups hmem y hy
    exact hj.goesTo_self (not_mem_of_hole_inside hj.reads hholes hmem hy)
  refine ⟨fun n hn => ?_, fun n _ => hj.label n, fun n hn => ?_, fun n hn x hx _ => ?_,
    hj.parent.slot_null hj.mem_terminii, ?_⟩
  · refine ⟨Nat.lt_of_lt_of_le hn.1 hj.inserted.grows.node_le, ?_⟩
    rw [hj.kind]
    exact hn.2.imp (fun hn => Or.inl (Or.inl hn)) id
  · rcases hn.2 with hmem | hid
    · exact hj.items (Or.inl hmem)
    · rw [hj.changes.identifier n hn.1 hid, (h.nodeAt n).identifier_items hid]
      rfl
  · refine hj.inserted.grows.childOf x ?_
    rcases hn.2 with hmem | hid
    · exact hj.parent.owned.link_lt x (hj.parent.owned.links n hmem x hx)
    · unfold NodeRecord.links at hx
      rw [(h.nodeAt n).identifier_items hid] at hx
      exact absurd hx List.not_mem_nil
  · exact elements_read (hj.changes.unchanged hj.apart hj.child.owned)
      (le_sup_right.trans le_sup_left) hj.reads hj.inserted.children
      (fun p hp => hj.goesTo_pair hp) hinside

/-- The new placeholders are not those of the parent. -/
theorem slots_apart : ∀ m ∈ childZone.terminii.map (t.moved e (item.links.zip new)),
    ∀ m' ∈ z.terminii, m.slot ≠ m'.slot := by
  intro m hm m' hm'
  have hm'lt : m'.slot < h.nextLink :=
    hj.parent.owned.link_lt _ (hj.parent.slot_mem hm').2
  have hmem : m.slot ∈ (childZone.terminii.map Mutator.slot).map
      (goesTo t e (item.links.zip new)) := hj.slots_eq ▸ List.mem_map_of_mem hm
  obtain ⟨y, hy, heq⟩ := List.mem_map.mp hmem
  obtain ⟨m₀, hm₀, rfl⟩ := List.mem_map.mp hy
  by_cases hin' : m₀.slot ∈ item.links
  · have hge := hj.goesTo_new hin'
    omega
  · rw [hj.goesTo_self hin'] at heq
    rw [← heq]
    exact ne_of_disjoint hj.apart (hj.parent.slot_mem hm').2 (hj.child.slot_mem hm₀).2

/-- They stand in their nodes. -/
theorem placed : ∀ m ∈ childZone.terminii.map (t.moved e (item.links.zip new)),
    m.parentNode ∈ (R ⊔ R' ⊔ (∅, {y | y ∈ new}) : Region).1
      ∧ ((h₁.putNode t.parentNode record).nodeAt m.parentNode).HasPlace m := by
  have hne {n : Nat} (hn : n ∈ R'.1) : n ≠ t.parentNode := by
    rintro rfl
    exact Set.disjoint_left.mp (Prod.disjoint_iff.mp hj.apart).1 hj.parent_mem hn
  intro m hm
  obtain ⟨item₀, item', before, after, hget, hset, hitem⟩ := hj.inParent.items
  have hspliced := spliced_putNode (z := z) (i := i) hj.zone
    (fun c hc => hne (hj.child.placed c hc).1) hj.inserted hget hitem record hj.inParent.label hset
  refine ⟨?_, (hspliced.placed m hm).2⟩
  obtain ⟨c, hc, rfl⟩ := List.mem_map.mp hm
  rcases moved_cases t e (item.links.zip new) c with heq | ⟨y, heq⟩
  · rw [heq]
    exact Or.inl (Or.inr (hj.child.placed c hc).1)
  · rw [heq]
    exact Or.inl (Or.inl hj.parent_mem)

/-- **The elements of a container at a placeholder.** -/
theorem merged : Merged h (h₁.putNode t.parentNode record) R R' z i t childZone us vs
    (childZone.terminii.map (t.moved e (item.links.zip new))) (R ⊔ R' ⊔ (∅, {y | y ∈ new}))
    (fillAll (fun y => [.hole (goesTo t e (item.links.zip new) y)]) vs) := by
  have hperm : (holesAll (fillAll (fun y => [.hole (goesTo t e (item.links.zip new) y)]) vs)).Perm
      ((childZone.terminii.map (t.moved e (item.links.zip new))).map Mutator.slot) := by
    rw [holesAll_fillAll, hj.slots_eq]
    show List.Perm (List.flatMap (fun y => [goesTo t e (item.links.zip new) y]) (holesAll vs)) _
    rw [← List.map_eq_flatMap]
    exact hj.child.holes.map _
  refine ⟨List.length_map _, hj.parent.fills hj.terminus hj.fills
    (fun n hn => Or.inl (Or.inl hn)) hj.owned hperm ?_
    (fun m hm m' hm' _ => hj.slots_apart m hm m' hm') hj.placed, fun y hy => hperm.mem_iff.mp hy,
    fun tss => ?_, hj.changes, ?_⟩
  · rw [hj.slots_eq]
    exact hj.child.nodup.map_on hj.goesTo_inj
  · rw [fillAll_fillAll]
    refine fillAll_congr vs fun y hy => ?_
    have hmem : y ∈ childZone.terminii.map Mutator.slot := hj.child.holes.mem_iff.mp hy
    rw [fillAll_singleton, hj.slots_eq]
    exact plug_map fun w hw heq => hj.goesTo_inj w hw y hmem heq
  · refine sup_le le_sup_left (le_trans ?_ le_sup_right)
    exact ⟨fun n hn => absurd hn id, fun y hy => (hj.inserted.fresh y hy).1⟩

end ContainerJoin

/-- **`MergeTerminus` makes the parent with the child at the hole**; the link is that of the
placeholder, unless the child is a container. -/
theorem merge_reads (hz : h.ReadsFree R z us) (hchild : h.ReadsFree R' childZone vs)
    (hapart : Disjoint R R') (ht : z.terminii[i]? = some t) (hbase : childZone.base = some e)
    (haccept : (h.nodeAt e).kind = .subContainer → t.mode = .container) :
    ∃ ms xlink S ws h', z.mergeTerminus i childZone true h
      = some ((⟨z.base, z.terminii.take i ++ ms ++ z.terminii.drop (i + 1)⟩, i + ms.length, xlink),
        h')
      ∧ Merged h h' R R' z i t childZone us vs ms S ws
      ∧ ((h.nodeAt e).kind ≠ .subContainer → xlink = some t.slot ∧ h'.childOf t.slot = some e) := by
  have htmem : t ∈ z.terminii := List.mem_of_getElem? ht
  have hsome : z.base.isSome := by
    obtain ⟨b, hb, _⟩ := hz.base
    rw [hb]
    rfl
  have hplace := (hz.placed t htmem).2
  by_cases hkind : (h.nodeAt e).kind = .subContainer
  · obtain ⟨item, hzone, he, hread⟩ := hchild.containerZone hbase hkind
    have hne : t.parentNode ≠ e := by
      intro heq
      exact Set.disjoint_left.mp (Prod.disjoint_iff.mp hapart).1 (hz.placed t htmem).1 (heq ▸ he)
    obtain ⟨new, h₁, record, hrun, hins, hin⟩ :=
      mergeTerminus_inserted hsome ht (haccept hkind) hplace hzone hne
    have hj : ContainerJoin h h₁ R R' z i t childZone e item us vs new record :=
      ⟨hz, hchild, hapart, ht, hzone, he, hread, hins, hin⟩
    refine ⟨_, none, _, _, _, ?_, hj.merged, fun hnot => absurd hkind hnot⟩
    rw [hrun, List.length_map]
  · refine ⟨_, _, _, _, _, mergeTerminus_node hsome ht hplace.mode_ne_null hbase hkind,
      merged_node hz hchild hapart ht hbase hkind, fun _ => ⟨rfl, ?_⟩⟩
    exact Function.update_self _ _ _

end

end TreeHeap

end Inferno.DB
