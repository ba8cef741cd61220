/-
  Inferno.DB.ContainerMerge
  ─────────────────────────
  A zone whose base is a container is merged at a terminus in a container.

    • `StandsAt`, `moved` — the terminus of a placeholder, and where it goes,
    • `insertElements_spec` — a new link for each element, and the terminii moved,
    • `replace_spec`    — the new links are where the placeholder was,
    • `ContainerZone`   — such a zone, each of its bare placeholders with a terminus,
    • `Spliced`, `mergeTerminus_container` — what the merge makes of both.
-/
import Inferno.DB.DuplicateExact

namespace Inferno.DB

open Inferno.Common Inferno.Helpers Update TreeHeap

/-! ## §1. Terminii of placeholders. -/

namespace Mutator

/-- What `FindMatchingTerminus` looks for. -/
def StandsAt (container placeholder : Nat) (c : Mutator) : Prop :=
  c.mode = .container ∧ c.parentNode = container ∧ c.item = 0 ∧ c.slot = placeholder

instance (container placeholder : Nat) (c : Mutator) :
    Decidable (c.StandsAt container placeholder) :=
  inferInstanceAs (Decidable (_ ∧ _ ∧ _ ∧ _))

/-- The terminus at a new link of the parent. -/
def atLink (parent : Mutator) (itNew : Nat) : Mutator :=
  { parent with mode := .container, slot := itNew }

/-- Where a terminus goes: with the placeholder it stands at, if it stands at one. -/
def moved (parent : Mutator) (container : Nat) : List (Nat × Nat) → Mutator → Mutator
  | [], c => c
  | (x, itNew) :: rest, c =>
      if c.StandsAt container x then parent.atLink itNew else moved parent container rest c

variable {parent c : Mutator} {container x : Nat} {pairs : List (Nat × Nat)}

theorem moved_of_not_standsAt (hnot : ∀ p ∈ pairs, ¬ c.StandsAt container p.1) :
    parent.moved container pairs c = c := by
  induction pairs with
  | nil => rfl
  | cons p pairs ih =>
      rw [List.forall_mem_cons] at hnot
      show (if c.StandsAt container p.1 then _ else _) = c
      rw [if_neg hnot.1]
      exact ih hnot.2

/-- A terminus that has been moved stands in the parent. -/
theorem atLink_not_standsAt (hne : parent.parentNode ≠ container) (itNew : Nat) :
    ¬ (parent.atLink itNew).StandsAt container x :=
  fun hat => hne hat.2.1

/-- The terminus of the element `x` goes to its new link. -/
theorem moved_of_standsAt (hat : c.StandsAt container x) {itNew : Nat} (hp : (x, itNew) ∈ pairs)
    (hnodup : (pairs.map Prod.fst).Nodup) :
    parent.moved container pairs c = parent.atLink itNew := by
  induction pairs with
  | nil => exact absurd hp List.not_mem_nil
  | cons q pairs ih =>
      rw [List.map_cons, List.nodup_cons] at hnodup
      show (if c.StandsAt container q.1 then _ else _) = _
      rcases List.mem_cons.mp hp with rfl | hp
      · rw [if_pos hat]
      · have hne : ¬ c.StandsAt container q.1 := by
          intro hq
          have heq : q.1 = x := hq.2.2.2.symm.trans hat.2.2.2
          exact hnodup.1 (heq ▸ List.mem_map_of_mem hp)
        rw [if_neg hne]
        exact ih hp hnodup.2

/-- The mutators with those at `x` moved. -/
def moveAt (parent : Mutator) (container x itNew : Nat) (c : Mutator) : Mutator :=
  if c.StandsAt container x then parent.atLink itNew else c

theorem moved_moveAt (hne : parent.parentNode ≠ container) (itNew : Nat) :
    parent.moved container pairs (parent.moveAt container x itNew c)
      = parent.moved container ((x, itNew) :: pairs) c := by
  show _ = if c.StandsAt container x then _ else _
  unfold moveAt
  split
  · exact moved_of_not_standsAt fun p _ => atLink_not_standsAt hne itNew
  · rfl

theorem moveAt_standsAt (hne : parent.parentNode ≠ container) {y : Nat} (hxy : x ≠ y)
    (itNew : Nat) :
    (parent.moveAt container x itNew c).StandsAt container y ↔ c.StandsAt container y := by
  unfold moveAt
  split
  · rename_i hat
    refine iff_of_false (atLink_not_standsAt hne itNew) fun hy => hxy ?_
    exact hat.2.2.2.symm.trans hy.2.2.2
  · exact Iff.rfl

end Mutator

/-! ## §2. The loop. -/

open Mutator

/-- Each bare placeholder has one terminus, and no other link has any. -/
structure PlaceholdersHeld (h : TreeHeap) (container : Nat) (xs : List Nat)
    (terminii : List Mutator) : Prop where
  held : ∀ x ∈ xs, h.childOf x = none →
    (terminii.filter (fun c => c.StandsAt container x)).length = 1
  bare : ∀ c ∈ terminii, ∀ x ∈ xs, c.StandsAt container x → h.childOf x = none

variable {h h' : TreeHeap} {parent : Mutator} {container : Nat} {xs : List Nat}
  {terminii : List Mutator}

theorem PlaceholdersHeld.tail {x : Nat} (hheld : PlaceholdersHeld h container (x :: xs) terminii)
    (hne : parent.parentNode ≠ container) (hx : x ∉ xs)
    (hlater : ∀ y ∈ xs, h'.childOf y = h.childOf y)
    (itNew : Nat) :
    PlaceholdersHeld h' container xs (terminii.map (parent.moveAt container x itNew)) where
  held y hy hnull := by
    have hxy : x ≠ y := fun heq => hx (heq ▸ hy)
    have hfilter : ((terminii.map (parent.moveAt container x itNew)).filter
        (fun c => c.StandsAt container y)).length
        = (terminii.filter (fun c => c.StandsAt container y)).length := by
      rw [List.filter_map, List.length_map]
      congr 1
      apply List.filter_congr
      intro c _
      exact decide_eq_decide.mpr (moveAt_standsAt hne hxy itNew)
    rw [hfilter]
    exact hheld.held y (List.mem_cons_of_mem x hy) (by rw [← hlater y hy]; exact hnull)
  bare c hc y hy hat := by
    have hxy : x ≠ y := fun heq => hx (heq ▸ hy)
    obtain ⟨c', hc', rfl⟩ := List.mem_map.mp hc
    rw [hlater y hy]
    exact hheld.bare c' hc' y (List.mem_cons_of_mem x hy) ((moveAt_standsAt hne hxy itNew).mp hat)

theorem run_moveMatchingTerminus {x itNew : Nat}
    (hone : (terminii.filter (fun c => c.StandsAt container x)).length = 1) :
    Mutator.moveMatchingTerminus container x parent itNew terminii h
      = some (terminii.map (parent.moveAt container x itNew), h) := by
  refine (run_bind (run_assert hone h)).trans ?_
  rfl

/-- What the loop makes: new links to the children of the old ones. -/
structure Inserted (xs : List Nat) (h h' : TreeHeap) (new : List Nat) : Prop where
  grows : h.Grows h'
  nodes : h'.nodeAt = h.nodeAt
  length : new.length = xs.length
  fresh : ∀ y ∈ new, h.nextLink ≤ y ∧ y < h'.nextLink
  nodup : new.Nodup
  children : new.map h'.childOf = xs.map h.childOf

/-- **The loop of `ExchangeContainer`** returns with a new link for each element, and with
the terminii moved. -/
theorem insertElements_spec (hne : parent.parentNode ≠ container) (hnodup : xs.Nodup) :
    ∀ {h : TreeHeap} {terminii : List Mutator}, (∀ x ∈ xs, x < h.nextLink) →
    PlaceholdersHeld h container xs terminii →
    ∃ new h', parent.insertElements container xs terminii h
      = some ((new, terminii.map (parent.moved container (xs.zip new))), h')
      ∧ Inserted xs h h' new := by
  -- on the elements; each gets a new link in the parent
  induction xs with
  | nil =>
      intro h terminii _ _
      refine ⟨[], h, ?_, Grows.refl h, rfl, rfl, ?_, List.nodup_nil, rfl⟩
      · rw [show parent.moved container ([].zip []) = id from rfl, List.map_id]
        rfl
      · exact fun y hy => absurd hy List.not_mem_nil
  | cons x xs ih =>
      intro h terminii hlt hheld
      rw [List.forall_mem_cons] at hlt
      rw [List.nodup_cons] at hnodup
      have hgrows : h.Grows (h.addLink (h.childOf x)) := (Duplicate.made_addLink _).grows
      have htail : PlaceholdersHeld (h.addLink (h.childOf x)) container xs
          (terminii.map (parent.moveAt container x h.nextLink)) :=
        hheld.tail hne hnodup.1 (fun y hy => hgrows.childOf y (hlt.2 y hy)) h.nextLink
      obtain ⟨new, h', hrun, hins⟩ := ih hnodup.2
        (fun y hy => Nat.lt_of_lt_of_le (hlt.2 y hy) hgrows.link_le) htail
      -- the links of the rest come after this one
      have hle : h.nextLink + 1 ≤ h'.nextLink := hins.grows.link_le
      refine ⟨h.nextLink :: new, h', ?_, hgrows.trans hins.grows, hins.nodes, ?_, ?_, ?_, ?_⟩
      · rw [Mutator.insertElements]
        refine (run_bind (show getChild x h = some (h.childOf x, h) from rfl)).trans ?_
        refine (run_bind (run_newLink (h.childOf x) h)).trans ?_
        have hmap : (terminii.map (parent.moveAt container x h.nextLink)).map
            (parent.moved container (xs.zip new))
            = terminii.map (parent.moved container ((x :: xs).zip (h.nextLink :: new))) := by
          rw [List.map_map]
          exact List.map_congr_left fun c _ => moved_moveAt hne h.nextLink
        rw [← hmap]
        -- the terminii after this element, moved or not
        cases hchild : h.childOf x with
        | none =>
            rw [hchild] at hrun
            refine (run_bind (run_moveMatchingTerminus
              (hheld.held x List.mem_cons_self hchild))).trans ?_
            exact (run_bind hrun).trans rfl
        | some n =>
            have hkept : terminii.map (parent.moveAt container x h.nextLink) = terminii := by
              refine (List.map_congr_left fun c hc => ?_).trans (List.map_id _)
              refine if_neg fun hat => ?_
              have hnull := hheld.bare c hc x List.mem_cons_self hat
              rw [hchild] at hnull
              cases hnull
            rw [hkept, hchild] at hrun
            rw [hkept]
            refine (run_bind (run_pure terminii (h.addLink (some n)))).trans ?_
            exact (run_bind hrun).trans rfl
      · -- as many as elements, new, apart, and with the same children
        rw [List.length_cons, List.length_cons, hins.length]
      · intro y hy
        rcases List.mem_cons.mp hy with rfl | hy
        · exact ⟨Nat.le_refl _, by omega⟩
        · have hfresh : h.nextLink + 1 ≤ y ∧ y < h'.nextLink := hins.fresh y hy
          exact ⟨by omega, hfresh.2⟩
      · refine List.nodup_cons.mpr ⟨fun hmem => ?_, hins.nodup⟩
        have hfresh : h.nextLink + 1 ≤ h.nextLink := (hins.fresh _ hmem).1
        omega
      · have hnew : h'.childOf h.nextLink = h.childOf x := by
          rw [hins.grows.childOf _ (Nat.lt_succ_self _)]
          exact Function.update_self _ _ _
        have hrest : xs.map (h.addLink (h.childOf x)).childOf = xs.map h.childOf :=
          List.map_congr_left fun y hy => hgrows.childOf y (hlt.2 y hy)
        rw [List.map_cons, List.map_cons, hnew, hins.children, hrest]

/-! ## §3. The parent. -/

/-- A list, before and after the first `slot` of it. -/
theorem split_at_slot {slot : Nat} {ls : List Nat} (hmem : slot ∈ ls) :
    slot ∉ ls.takeWhile (· ≠ slot)
      ∧ ls = ls.takeWhile (· ≠ slot) ++ slot :: (ls.dropWhile (· ≠ slot)).drop 1 := by
  induction ls with
  | nil => exact absurd hmem List.not_mem_nil
  | cons x ls ih =>
      by_cases hx : x = slot
      · rw [List.takeWhile_cons_of_neg (by simpa using hx),
          List.dropWhile_cons_of_neg (by simpa using hx), hx]
        exact ⟨List.not_mem_nil, rfl⟩
      · obtain ⟨hnot, hls⟩ := ih ((List.mem_cons.mp hmem).resolve_left (Ne.symm hx))
        rw [List.takeWhile_cons_of_pos (by simpa using hx),
          List.dropWhile_cons_of_pos (by simpa using hx)]
        refine ⟨fun hin => ?_, congrArg (List.cons x) hls⟩
        rcases List.mem_cons.mp hin with heq | hin
        · exact hx heq.symm
        · exact hnot hin

/-- **The new links are where the placeholder was.** -/
theorem replace_spec {item : Item Nat} {slot : Nat} (hmode : item.mode = .container)
    (hslot : slot ∈ item.links) (new : List Nat) : ∃ item' before after,
    Item.replace slot new item = some item' ∧ item'.mode = .container
      ∧ itemKind item' = itemKind item ∧ slot ∉ before
      ∧ item.links = before ++ slot :: after ∧ item'.links = before ++ new ++ after := by
  cases item with
  | singular x => cases hmode
  | sequence ls =>
      obtain ⟨hnot, hls⟩ := split_at_slot hslot
      exact ⟨.sequence _, _, _, if_pos hslot, rfl, rfl, hnot, hls, rfl⟩
  | collection ls =>
      obtain ⟨hnot, hls⟩ := split_at_slot hslot
      exact ⟨.collection _, _, _, if_pos hslot, rfl, rfl, hnot, hls, rfl⟩

/-! ## §4. The merge. -/

/-- **A zone whose base is a container** of one item: its terminii are placeholders in their
nodes, and each bare placeholder of the base has one. -/
structure ContainerZone (h : TreeHeap) (z : FreeZone) (container : Nat) (item : Item Nat) :
    Prop where
  base : z.base = some container
  kind : (h.nodeAt container).kind = .subContainer
  items : (h.nodeAt container).items = [item]
  mode : item.mode = .container
  links : ∀ x ∈ item.links, x < h.nextLink
  nodup : item.links.Nodup
  null : ∀ c ∈ z.terminii, c.slot < h.nextLink ∧ h.childOf c.slot = none
  placed : ∀ c ∈ z.terminii, (h.nodeAt c.parentNode).HasPlace c
  held : ∀ x ∈ item.links, h.childOf x = none →
    (z.terminii.filter (fun c => c.StandsAt container x)).length = 1

/-- **The elements of a container in place of a placeholder**, and its terminii in place of
the terminus `i`, which is `t`. -/
structure Spliced (h h' : TreeHeap) (z : FreeZone) (i : Nat) (t : Mutator) (childZone : FreeZone)
    (container : Nat) (xs new : List Nat) (z' : FreeZone) : Prop where
  length : new.length = xs.length
  fresh : ∀ y ∈ new, h.nextLink ≤ y
  children : new.map h'.childOf = xs.map h.childOf
  links : ∀ x, x < h.nextLink → h'.childOf x = h.childOf x
  nodes : ∀ n, n ≠ t.parentNode → h'.nodeAt n = h.nodeAt n
  parent : (h'.nodeAt t.parentNode).kind = (h.nodeAt t.parentNode).kind
    ∧ (h'.nodeAt t.parentNode).typeIndex = (h.nodeAt t.parentNode).typeIndex
    ∧ (h'.nodeAt t.parentNode).value = (h.nodeAt t.parentNode).value
  placeholder : ∃ item item' before after,
    (h.nodeAt t.parentNode).items[t.item]? = some item
      ∧ (h'.nodeAt t.parentNode).items = (h.nodeAt t.parentNode).items.set t.item item'
      ∧ itemKind item' = itemKind item ∧ t.slot ∉ before
      ∧ item.links = before ++ t.slot :: after ∧ item'.links = before ++ new ++ after
  base : z'.base = z.base
  terminii : z'.terminii = z.terminii.take i
    ++ childZone.terminii.map (t.moved container (xs.zip new)) ++ z.terminii.drop (i + 1)
  placed : ∀ c ∈ childZone.terminii.map (t.moved container (xs.zip new)),
    h'.childOf c.slot = none ∧ (h'.nodeAt c.parentNode).HasPlace c

theorem childOf_of_mem_zip {f g : Nat → Option Nat} {xs new : List Nat}
    (hmap : new.map f = xs.map g) : ∀ p ∈ xs.zip new, f p.2 = g p.1 := by
  induction xs generalizing new with
  | nil => exact fun p hp => absurd hp List.not_mem_nil
  | cons x xs ih =>
      cases new with
      | nil => exact fun p hp => absurd hp List.not_mem_nil
      | cons y new =>
          rw [List.map_cons, List.map_cons, List.cons.injEq] at hmap
          intro p hp
          rcases List.mem_cons.mp hp with rfl | hp
          · exact hmap.1
          · exact ih hmap.2 p hp

theorem exists_mem_zip {xs new : List Nat} (hlen : new.length = xs.length) {x : Nat}
    (hx : x ∈ xs) : ∃ y, (x, y) ∈ xs.zip new := by
  have hfst : (xs.zip new).map Prod.fst = xs := List.map_fst_zip (Nat.le_of_eq hlen.symm)
  rw [← hfst] at hx
  obtain ⟨p, hp, rfl⟩ := List.mem_map.mp hx
  exact ⟨p.2, hp⟩

variable {z childZone : FreeZone} {i : Nat} {t : Mutator} {item : Item Nat} {asked : Bool}

/-- A terminus of the base stands at one of its elements. -/
theorem ContainerZone.standsAt (hzone : ContainerZone h childZone container item) {c : Mutator}
    (hc : c ∈ childZone.terminii) (hparent : c.parentNode = container) :
    c.slot ∈ item.links ∧ c.StandsAt container c.slot := by
  obtain ⟨item', hget, hslot, hm⟩ := hzone.placed c hc
  rw [hparent, hzone.items] at hget
  obtain ⟨hidx, rfl⟩ : c.item = 0 ∧ item = item' := by
    cases hidx : c.item with
    | zero =>
        rw [hidx] at hget
        exact ⟨rfl, Option.some.inj hget⟩
    | succ j =>
        rw [hidx] at hget
        cases hget
  exact ⟨hslot, hm.trans hzone.mode, hparent, hidx, rfl⟩

/-- The parent with the new links, and the terminii moved. -/
theorem spliced_putNode {h₁ : TreeHeap} {new before after : List Nat} {item₀ item' : Item Nat}
    (hzone : ContainerZone h childZone container item)
    (hapart : ∀ c ∈ childZone.terminii, c.parentNode ≠ t.parentNode)
    (hins : Inserted item.links h h₁ new)
    (hget : (h.nodeAt t.parentNode).items[t.item]? = some item₀)
    (hitem : item'.mode = .container ∧ itemKind item' = itemKind item₀ ∧ t.slot ∉ before
      ∧ item₀.links = before ++ t.slot :: after ∧ item'.links = before ++ new ++ after)
    (record : NodeRecord) (hclass : record.kind = (h.nodeAt t.parentNode).kind
      ∧ record.typeIndex = (h.nodeAt t.parentNode).typeIndex
      ∧ record.value = (h.nodeAt t.parentNode).value)
    (hitems : record.items = (h.nodeAt t.parentNode).items.set t.item item') :
    Spliced h (h₁.putNode t.parentNode record) z i t childZone container item.links new
      ⟨z.base, z.terminii.take i ++ childZone.terminii.map (t.moved container (item.links.zip new))
        ++ z.terminii.drop (i + 1)⟩ := by
  obtain ⟨hmode', hkind', hnot, hlinks, hlinks'⟩ := hitem
  have hparent : (h₁.putNode t.parentNode record).nodeAt t.parentNode = record :=
    Function.update_self _ _ _
  have hother (n : Nat) (hn : n ≠ t.parentNode) :
      (h₁.putNode t.parentNode record).nodeAt n = h.nodeAt n := by
    show Function.update h₁.nodeAt _ _ n = _
    rw [Function.update_of_ne hn, hins.nodes]
  have hset : record.items[t.item]? = some item' := by
    rw [hitems]
    obtain ⟨hlt, _⟩ := List.getElem?_eq_some_iff.mp hget
    exact List.getElem?_set_self hlt
  -- the rest of memory is as it was; the terminii are left
  refine ⟨hins.length, fun y hy => (hins.fresh y hy).1, hins.children, hins.grows.childOf,
    hother, ?_, ?_, rfl, rfl, ?_⟩
  · rw [hparent]
    exact hclass
  · refine ⟨item₀, item', before, after, hget, ?_, hkind', hnot, hlinks, hlinks'⟩
    rw [hparent]
    exact hitems
  · intro c' hc'
    obtain ⟨c, hmem, rfl⟩ := List.mem_map.mp hc'
    by_cases hcp : c.parentNode = container
    · -- a placeholder of the base, which is an element
      obtain ⟨hx, hat⟩ := hzone.standsAt hmem hcp
      obtain ⟨y, hy⟩ := exists_mem_zip hins.length hx
      have hnodup : ((item.links.zip new).map Prod.fst).Nodup := by
        rw [List.map_fst_zip (Nat.le_of_eq hins.length.symm)]
        exact hzone.nodup
      rw [moved_of_standsAt hat hy hnodup]
      refine ⟨?_, item', ?_, ?_, hmode'.symm⟩
      · show h₁.childOf y = none
        rw [childOf_of_mem_zip hins.children _ hy]
        exact (hzone.null c hmem).2
      · rw [show (t.atLink y).parentNode = t.parentNode from rfl, hparent]
        exact hset
      · show y ∈ item'.links
        rw [hlinks']
        exact List.mem_append_left _ (List.mem_append_right _ (List.of_mem_zip hy).2)
    · -- a terminus further down, which stays
      rw [moved_of_not_standsAt fun p _ hat => hcp hat.2.1]
      refine ⟨?_, ?_⟩
      · show h₁.childOf c.slot = none
        rw [hins.grows.childOf _ (hzone.null c hmem).1]
        exact (hzone.null c hmem).2
      · rw [hother _ (hapart c hmem)]
        exact hzone.placed c hmem

/-- The parent of the terminus `t`, with `new` where its placeholder was. -/
structure InParent (h : TreeHeap) (t : Mutator) (new : List Nat) (record : NodeRecord) : Prop where
  label : record.kind = (h.nodeAt t.parentNode).kind
    ∧ record.typeIndex = (h.nodeAt t.parentNode).typeIndex
    ∧ record.value = (h.nodeAt t.parentNode).value
  items : ∃ item₀ item' before after, (h.nodeAt t.parentNode).items[t.item]? = some item₀
    ∧ record.items = (h.nodeAt t.parentNode).items.set t.item item'
    ∧ item'.mode = .container ∧ itemKind item' = itemKind item₀ ∧ t.slot ∉ before
    ∧ item₀.links = before ++ t.slot :: after ∧ item'.links = before ++ new ++ after

/-- What `MergeTerminus` does with a container: the loop, and the parent put back. -/
theorem mergeTerminus_inserted (hz : z.base.isSome) (ht : z.terminii[i]? = some t)
    (hmode : t.mode = .container) (hplace : (h.nodeAt t.parentNode).HasPlace t)
    (hzone : ContainerZone h childZone container item) (hne : t.parentNode ≠ container) :
    ∃ new h₁ record, z.mergeTerminus i childZone asked h
      = some ((⟨z.base, z.terminii.take i
          ++ childZone.terminii.map (t.moved container (item.links.zip new))
          ++ z.terminii.drop (i + 1)⟩, i + childZone.terminii.length, none),
        h₁.putNode t.parentNode record)
      ∧ Inserted item.links h h₁ new ∧ InParent h t new record := by
  obtain ⟨item₀, hget, hslot, hmode₀⟩ := hplace
  -- no terminus stands at an element that has a child
  have hheld : PlaceholdersHeld h container item.links childZone.terminii := by
    refine ⟨hzone.held, fun c hc x _ hat => ?_⟩
    rw [← hat.2.2.2]
    exact (hzone.null c hc).2
  obtain ⟨new, h₁, hrun, hins⟩ := insertElements_spec hne hzone.nodup hzone.links hheld
  obtain ⟨item', before, after, hreplace, hmode', hkind', hnot, hlinks, hlinks'⟩ :=
    replace_spec (hmode₀.symm.trans hmode) hslot new
  -- the loop has not touched the parent
  have hnode : h₁.nodeAt t.parentNode = h.nodeAt t.parentNode := by rw [hins.nodes]
  have hidentifier : (h₁.nodeAt t.parentNode).kind ≠ .identifier := by
    rw [hnode]
    intro hkind
    rw [(h.nodeAt t.parentNode).identifier_items hkind] at hget
    cases hget
  have hbase : childZone.tryGetContainerBase h = some (some container, h) := by
    have hcontainer : isContainerInterface childZone.base h = some (true, h) := by
      rw [hzone.base]
      show some (decide ((h.nodeAt container).kind = .subContainer), h) = _
      rw [decide_eq_true hzone.kind]
    refine (run_bind hcontainer).trans ?_
    show some (childZone.base, h) = _
    rw [hzone.base]
  have helements : ((h.nodeAt container).items.flatMap Item.links) = item.links := by
    rw [hzone.items, List.flatMap_singleton]
  have hreplaced : (h.nodeAt t.parentNode).items[t.item]?.bind (Item.replace t.slot new)
      = some item' := by
    rw [hget]
    exact hreplace
  -- the parent with the new links
  have hexchange : t.exchangeContainer container childZone.terminii h
      = some (childZone.terminii.map (t.moved container (item.links.zip new)),
        h₁.putNode t.parentNode ((h₁.nodeAt t.parentNode).withItems
          ((h.nodeAt t.parentNode).items.set t.item item') hidentifier)) := by
    refine (run_bind (run_assert hmode h)).trans ?_
    refine (run_bind (show getNode container h = some (h.nodeAt container, h) from rfl)).trans ?_
    rw [helements]
    refine (run_bind hrun).trans ?_
    refine (run_bind (show getNode t.parentNode h₁ = some (h.nodeAt t.parentNode, h₁) from
      congrArg (fun r => some (r, h₁)) hnode)).trans ?_
    rw [hreplaced]
    exact (run_bind (run_setItems _ hidentifier)).trans rfl
  have hempty : childZone.isEmpty h = some (false, h) := by
    unfold FreeZone.isEmpty
    rw [hzone.base]
    rfl
  have hfull : z.isEmpty h = some (false, h) := by
    obtain ⟨b, hb⟩ := Option.isSome_iff_exists.mp hz
    unfold FreeZone.isEmpty
    rw [hb]
    rfl
  refine ⟨new, h₁, (h₁.nodeAt t.parentNode).withItems
    ((h.nodeAt t.parentNode).items.set t.item item') hidentifier, ?_, hins, ?_,
    item₀, item', before, after, hget, rfl, hmode', hkind', hnot, hlinks, hlinks'⟩
  · -- the run, one step after another
    unfold FreeZone.mergeTerminus
    rw [ht]
    refine (run_bind hempty).trans ?_
    refine (run_bind hfull).trans ?_
    refine (run_bind hbase).trans ?_
    refine (run_bind (run_assert (by rw [Mutator.canAcceptContainer, hmode]; rfl) h)).trans ?_
    refine (run_bind hexchange).trans ?_
    show some _ = some _
    rw [List.length_map]
  · rw [← hnode]
    exact ⟨rfl, rfl, rfl⟩

/-- **`MergeTerminus` with a container**: the placeholder becomes its elements. -/
theorem mergeTerminus_container (hz : z.base.isSome) (ht : z.terminii[i]? = some t)
    (hmode : t.mode = .container) (hplace : (h.nodeAt t.parentNode).HasPlace t)
    (hzone : ContainerZone h childZone container item) (hne : t.parentNode ≠ container)
    (hapart : ∀ c ∈ childZone.terminii, c.parentNode ≠ t.parentNode) :
    ∃ new z' h', z.mergeTerminus i childZone asked h
      = some ((z', i + childZone.terminii.length, none), h')
      ∧ Spliced h h' z i t childZone container item.links new z' := by
  obtain ⟨new, h₁, record, hrun, hins, hlabel, item₀, item', before, after, hget, hitems, hitem⟩ :=
    mergeTerminus_inserted hz ht hmode hplace hzone hne
  exact ⟨new, _, _, hrun, spliced_putNode hzone hapart hins hget hitem record hlabel hitems⟩

end Inferno.DB
