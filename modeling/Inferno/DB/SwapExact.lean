/-
  Inferno.DB.SwapExact
  ────────────────────
  Swapping two zones of different trees exchanges exactly the zones.

    • `ZoneTree`      — a zone that is not empty, in a tree of the tables,
    • `ZoneTree.split` — the links of the tree: above the zone, in it, and below it,
    • `Crossed`       — what a swap does, as one side sees it,
    • `Crossed.zoneTree` — the other zone is now in this tree,
    • `SwappedIn`     — the subtree at the base is the other zone with this zone's subtrees,
    • `swap_exact`    — a swap, and the swap back.
-/
import Inferno.DB.ReplacedZone

namespace Inferno.DB

open Inferno.Common Update TreeHeap MutableZone

/-! ## §1. A zone in its tree. -/

/-- **A zone that is not empty in a tree of the tables**; it may be at the root, and may have
no terminii. -/
structure ZoneTree (h : TreeHeap) (zone : TreeZone) where
  levels : Nat
  tree : TreeRecord
  top : Nat
  node : Nat
  lookup : h.treesByOrdinal.lookup zone.ordinal = some tree
  not_deferred : zone.ordinal ∉ h.deferredTreeOrdinals
  whole : h.HoldsZone levels ⟨tree.root, [], zone.ordinal⟩ top
  base_mem : zone.base ∈ tree.root :: h.linksBelow levels top
  holds : h.HoldsZone levels zone node
  not_empty : zone.isEmpty = false

theorem TreeHeap.HoldsZone.mono {h : TreeHeap} {k l n : Nat} {z : TreeZone}
    (hz : h.HoldsZone k z n) (hkl : k ≤ l) : h.HoldsZone l z n := by
  have hlinks := linksBelow_mono hz.tree hkl
  refine ⟨hz.base, hz.base_lt, hz.tree.mono hkl, ?_, ?_⟩
  · rw [hlinks]
    exact hz.distinct
  · rw [hlinks]
    exact hz.terminii

/-- The base is not below itself. -/
theorem TreeHeap.HoldsZone.apart_base {h : TreeHeap} {k n : Nat} {z : TreeZone}
    (hz : h.HoldsZone k z n) : h.Apart [z.base] := by
  intro t ht c hc j x hx hmem
  rw [List.mem_singleton.mp ht, hz.base] at hc
  rw [List.mem_singleton.mp hmem, ← Option.some.inj hc] at hx
  exact (List.nodup_cons.mp hz.distinct).1 (linksBelow_subset hz.tree j hx)

/-- The tree below a base, without its terminii. -/
theorem TreeHeap.HoldsZone.dropTerminii {h : TreeHeap} {k n : Nat} {z : TreeZone}
    (hz : h.HoldsZone k z n) : h.HoldsZone k ⟨z.base, [], z.ordinal⟩ n :=
  ⟨hz.base, hz.base_lt, hz.tree, hz.distinct,
    Or.inr ⟨List.nil_sublist _, fun _ ht => absurd ht List.not_mem_nil⟩⟩

namespace ZoneTree

variable {h : TreeHeap} {zone : TreeZone} (t : ZoneTree h zone)

/-- The links of the tree. -/
def links : List Nat := t.tree.root :: h.linksBelow t.levels t.top

/-- The links above the zone, and its base. -/
def outer : List Nat :=
  t.tree.root :: if zone.base = t.tree.root then [] else h.zoneLinks [zone.base] t.levels t.top

/-- The links of the zone, and its terminii. -/
def inner : List Nat := h.zoneLinks zone.terminii t.levels t.node

/-- The links below the terminii. -/
def lower : List Nat := zone.terminii.flatMap (h.linksUnder t.levels)

/-- The tree as a zone that ends at the zone's base. -/
theorem outerZone (hbase : zone.base ≠ t.tree.root) :
    h.HoldsZone t.levels ⟨t.tree.root, [zone.base], zone.ordinal⟩ t.top := by
  have hmem : zone.base ∈ h.linksBelow t.levels t.top :=
    (List.mem_cons.mp t.base_mem).resolve_left hbase
  exact ⟨t.whole.base, t.whole.base_lt, t.whole.tree, t.whole.distinct,
    Or.inr ⟨List.singleton_sublist.mpr hmem, t.holds.apart_base⟩⟩

theorem outerZone_not_empty (hbase : zone.base ≠ t.tree.root) :
    TreeZone.isEmpty ⟨t.tree.root, [zone.base], zone.ordinal⟩ = false := by
  refine decide_eq_false ?_
  intro heq
  exact hbase (List.cons.inj heq).1

/-- **The links of the tree** are those above the zone, those in it and those below it. -/
theorem split : t.links.Perm (t.outer ++ (t.inner ++ t.lower)) := by
  have hzone := linksBelow_split t.holds.tree (t.holds.terminiiMet t.not_empty)
  refine List.Perm.trans ?_ (List.Perm.append_left t.outer hzone)
  unfold links outer
  by_cases hbase : zone.base = t.tree.root
  · have hnode : t.node = t.top := by
      have heq := t.whole.base
      rw [← hbase, t.holds.base] at heq
      exact Option.some.inj heq
    rw [if_pos hbase, hnode]
    exact List.Perm.refl _
  · rw [if_neg hbase]
    have houter := linksBelow_split t.whole.tree
      ((t.outerZone hbase).terminiiMet (t.outerZone_not_empty hbase))
    refine List.Perm.cons _ (houter.trans (List.Perm.append_left _ ?_))
    rw [List.flatMap_singleton, linksUnder, t.holds.base]
    exact List.Perm.refl _

theorem nodup : (t.outer ++ (t.inner ++ t.lower)).Nodup :=
  t.split.nodup_iff.mp t.whole.distinct

theorem base_mem_outer : zone.base ∈ t.outer := by
  unfold outer
  by_cases hbase : zone.base = t.tree.root
  · rw [hbase]
    exact List.mem_cons_self
  · rw [if_neg hbase]
    refine List.mem_cons_of_mem _ (terminiiMet_subset_zoneLinks ?_)
    rw [(t.outerZone hbase).terminiiMet (t.outerZone_not_empty hbase)]
    exact List.mem_singleton_self _

theorem terminii_subset_inner : zone.terminii ⊆ t.inner := by
  intro x hx
  refine terminiiMet_subset_zoneLinks ?_
  rw [t.holds.terminiiMet t.not_empty]
  exact hx

theorem outer_subset : t.outer ⊆ t.links :=
  fun _ hx => t.split.symm.subset (List.mem_append_left _ hx)

theorem inner_subset : t.inner ⊆ t.links :=
  fun _ hx => t.split.symm.subset (List.mem_append_right _ (List.mem_append_left _ hx))

theorem lower_subset : t.lower ⊆ t.links :=
  fun _ hx => t.split.symm.subset (List.mem_append_right _ (List.mem_append_right _ hx))

/-- The boundary of the zone is in the tree. -/
theorem linksOf_subset : linksOf zone ⊆ t.links := by
  intro x hx
  rcases List.mem_cons.mp hx with rfl | hx
  · exact t.base_mem
  · exact t.inner_subset (t.terminii_subset_inner hx)

/-- Above and below the zone there is nothing of its boundary but the base. -/
theorem outer_not_mem {x : Nat} (hx : x ∈ t.outer) (hne : x ≠ zone.base) : x ∉ linksOf zone := by
  intro hmem
  rcases List.mem_cons.mp hmem with heq | hmem
  · exact hne heq
  · refine (List.nodup_append.mp t.nodup).2.2 x hx x ?_ rfl
    exact List.mem_append_left _ (t.terminii_subset_inner hmem)

theorem inner_not_mem {x : Nat} (hx : x ∈ t.inner) (hne : x ∉ zone.terminii) :
    x ∉ linksOf zone := by
  intro hmem
  rcases List.mem_cons.mp hmem with rfl | hmem
  · exact (List.nodup_append.mp t.nodup).2.2 _ t.base_mem_outer _
      (List.mem_append_left _ hx) rfl
  · exact hne hmem

theorem lower_not_mem {x : Nat} (hx : x ∈ t.lower) : x ∉ linksOf zone := by
  have hrest := (List.nodup_append.mp t.nodup)
  intro hmem
  rcases List.mem_cons.mp hmem with rfl | hmem
  · exact hrest.2.2 _ t.base_mem_outer _ (List.mem_append_right _ hx) rfl
  · exact (List.nodup_append.mp hrest.2.1).2.2 x (t.terminii_subset_inner hmem) x hx rfl

include t

/-- A mutator can be made for each link of the boundary. -/
theorem inTables {x : Nat} (hx : x ∈ linksOf zone) : InTables h x ∧ Proper h x := by
  have hproper {k c : Nat} (hc : h.childOf x = some c) (htree : h.IsTree k c) : Proper h x := by
    cases k with
    | zero => exact htree.elim
    | succ k => exact ⟨c, hc, htree.2.1⟩
  refine ⟨inTables_of_holdsZone t.lookup t.not_deferred t.whole (t.linksOf_subset hx), ?_⟩
  rcases List.mem_cons.mp hx with rfl | hx
  · exact hproper t.holds.base t.holds.tree
  · obtain ⟨c, hc, htree, _⟩ := t.holds.tree.child (t.holds.mem_linksBelow t.not_empty hx)
    exact hproper hc htree

theorem linksOf_nodup : (linksOf zone).Nodup :=
  List.nodup_cons.mpr ⟨t.holds.base_not_mem t.not_empty, t.holds.terminii_nodup⟩

/-- The subtree at a terminus, whose links are below the zone. -/
theorem terminus {x : Nat} (hx : x ∈ zone.terminii) :
    ∃ c, h.childOf x = some c ∧ h.IsTree t.levels c ∧ h.linksBelow t.levels c ⊆ t.lower := by
  obtain ⟨c, hc, htree, _⟩ := t.holds.tree.child (t.holds.mem_linksBelow t.not_empty hx)
  refine ⟨c, hc, htree, fun y hy => List.mem_flatMap.mpr ⟨x, hx, ?_⟩⟩
  rw [linksUnder, hc]
  exact hy

end ZoneTree

/-! ## §2. A swap, as one side sees it. -/

/-- The zone as it is written back: with the other's terminii. -/
def writtenBack (zone other : TreeZone) : TreeZone := { zone with terminii := other.terminii }

/-- **What a swap does to the first of two zones**: its base gets the other's node, and the
other's terminii get what is at its own. -/
structure Crossed (h h' : TreeHeap) (zone other : TreeZone) : Prop where
  rest : h' = { h with childOf := h'.childOf }
  base : h'.childOf zone.base = h.childOf other.base
  terminus : ∀ p ∈ zone.terminii.zip other.terminii, h'.childOf p.2 = h.childOf p.1
  outside : ∀ x, x ∉ linksOf zone → x ∉ linksOf other → h'.childOf x = h.childOf x

/-- Members of lists of one length have partners. -/
theorem exists_zip_of_mem_right {ts us : List Nat} (hlen : ts.length = us.length) {u : Nat}
    (hu : u ∈ us) : ∃ t, (t, u) ∈ ts.zip us := by
  have hsnd : (ts.zip us).map Prod.snd = us := List.map_snd_zip (by omega)
  rw [← hsnd] at hu
  obtain ⟨p, hp, rfl⟩ := List.mem_map.mp hu
  exact ⟨p.1, hp⟩

theorem flatMap_eq_of_zip {f g : Nat → List Nat} {ts us : List Nat}
    (hlen : ts.length = us.length) (heq : ∀ p ∈ ts.zip us, f p.2 = g p.1) :
    us.flatMap f = ts.flatMap g := by
  induction ts generalizing us with
  | nil =>
      obtain rfl := List.eq_nil_of_length_eq_zero hlen.symm
      rfl
  | cons t ts ih =>
      cases us with
      | nil => exact absurd hlen (by simp)
      | cons u us =>
          rw [List.zip_cons_cons, List.forall_mem_cons] at heq
          have hlen' : ts.length = us.length := by simpa using hlen
          rw [List.flatMap_cons, List.flatMap_cons, heq.1, ih hlen' heq.2]

namespace Crossed

variable {h h' : TreeHeap} {zone other : TreeZone}

section

variable (hc : Crossed h h' zone other) (t : ZoneTree h zone) (u : ZoneTree h other)
  (hlen : zone.terminii.length = other.terminii.length)
  (hapart : ∀ x ∈ t.links, x ∉ u.links)

include hc hapart

/-- The subtrees below a terminus stay, at the other zone's terminus. -/
theorem below {x y : Nat} (hp : (x, y) ∈ zone.terminii.zip other.terminii) :
    ∃ c, h.childOf x = some c ∧ h'.childOf y = some c ∧ h.IsTree t.levels c
      ∧ h.Replaced h' [] t.levels 0 c := by
  obtain ⟨hx, _⟩ := List.of_mem_zip hp
  obtain ⟨c, hchild, htree, hlower⟩ := t.terminus hx
  refine ⟨c, hchild, (hc.terminus _ hp).trans hchild, htree, ?_⟩
  refine replaced_of_agree htree hc.rest fun z hz => ?_
  refine hc.outside z (t.lower_not_mem (hlower hz)) fun hmem => ?_
  exact hapart z (t.lower_subset (hlower hz)) (u.linksOf_subset hmem)

theorem linksUnder_eq {x y : Nat} (hp : (x, y) ∈ zone.terminii.zip other.terminii) :
    h'.linksUnder t.levels y = h.linksUnder t.levels x := by
  obtain ⟨c, hx, hy, htree, hr⟩ := hc.below t u hapart hp
  rw [linksUnder, linksUnder, hx, hy]
  exact hr.linksBelow_eq htree t.levels

theorem subtreeAt_eq {x y : Nat} (hp : (x, y) ∈ zone.terminii.zip other.terminii) (d : Nat) :
    h'.subtreeAt d y = h.subtreeAt d x := by
  obtain ⟨c, hx, hy, htree, hr⟩ := hc.below t u hapart hp
  rw [subtreeAt, subtreeAt, hx, hy]
  show h'.subtree d c = h.subtree d c
  rw [hr.subtree_eq htree, grafted_nil]

omit hc in
/-- The links of the new tree are all different. -/
theorem distinct : (t.outer ++ (u.inner ++ t.lower)).Nodup := by
  obtain ⟨houter, hrest, happ⟩ := List.nodup_append.mp t.nodup
  obtain ⟨hinner, _, _⟩ := List.nodup_append.mp (List.nodup_append.mp u.nodup).2.1
  obtain ⟨_, hlower, _⟩ := List.nodup_append.mp hrest
  refine List.nodup_append.mpr ⟨houter, List.nodup_append.mpr ⟨hinner, hlower, ?_⟩, ?_⟩
  · rintro x hx y hy rfl
    exact hapart x (t.lower_subset hy) (u.inner_subset hx)
  · rintro x hx y hy rfl
    rcases List.mem_append.mp hy with hy | hy
    · exact hapart x (t.outer_subset hx) (u.inner_subset hy)
    · exact happ x hx x (List.mem_append_right _ hy) rfl

include hlen

/-- **The other zone is as it was**, but for this zone's subtrees at its terminii. -/
theorem replaced : h.Replaced h' other.terminii u.levels t.levels u.node := by
  refine ⟨by rw [hc.rest], by rw [hc.rest], by rw [hc.rest], ?_, ?_⟩
  · intro x hx hne
    refine hc.outside x (fun hmem => ?_) (u.inner_not_mem hx hne)
    exact hapart x (t.linksOf_subset hmem) (u.inner_subset hx)
  · intro y hy
    rw [u.holds.terminiiMet u.not_empty] at hy
    obtain ⟨x, hp⟩ := exists_zip_of_mem_right hlen hy
    obtain ⟨c, _, hchild, htree, hr⟩ := hc.below t u hapart hp
    exact ⟨c, hchild, hr.isTree htree⟩

theorem lower_eq : other.terminii.flatMap (h'.linksUnder t.levels) = t.lower :=
  flatMap_eq_of_zip hlen fun _ hp => hc.linksUnder_eq t u hapart hp

/-- **The zone written back** is a zone of the later memory. -/
theorem holdsZone :
    h'.HoldsZone (u.levels + t.levels) (writtenBack zone other) u.node := by
  have hr := hc.replaced t u hlen hapart
  refine hr.holdsZone u.holds.tree (u.holds.terminiiMet u.not_empty) ?_ zone.ordinal
    (hc.base.trans u.holds.base) (by rw [hr.nextLink]; exact t.holds.base_lt) ?_
  · -- below the terminii there are links of this tree only
    intro y hy c hchild j z hz hmem
    obtain ⟨x, hp⟩ := exists_zip_of_mem_right hlen hy
    obtain ⟨d, hx, hd, htree, hkeep⟩ := hc.below t u hapart hp
    obtain rfl : d = c := Option.some.inj (hd.symm.trans hchild)
    rw [hkeep.linksBelow_eq htree] at hz
    have hlower : z ∈ t.lower := by
      refine List.mem_flatMap.mpr ⟨x, (List.of_mem_zip hp).1, ?_⟩
      rw [linksUnder, hx]
      exact linksBelow_subset htree j hz
    exact hapart z (t.lower_subset hlower) (u.inner_subset (u.terminii_subset_inner hmem))
  · rw [hc.lower_eq t u hlen hapart]
    obtain ⟨_, hrest, happ⟩ := List.nodup_append.mp (distinct t u hapart)
    refine List.nodup_cons.mpr ⟨fun hmem => ?_, hrest⟩
    exact happ zone.base t.base_mem_outer zone.base hmem rfl

/-- The links below its base. -/
theorem linksBelow_node :
    (h'.linksBelow (u.levels + t.levels) u.node).Perm (u.inner ++ t.lower) := by
  have hperm := (hc.replaced t u hlen hapart).linksBelow_perm u.holds.tree
  rw [u.holds.terminiiMet u.not_empty, hc.lower_eq t u hlen hapart] at hperm
  exact hperm

/-- **Above the zone the tree is as it was.** -/
theorem replaced_outer (hbase : zone.base ≠ t.tree.root) :
    h.Replaced h' [zone.base] t.levels (u.levels + t.levels) t.top := by
  refine ⟨by rw [hc.rest], by rw [hc.rest], by rw [hc.rest], ?_, ?_⟩
  · intro x hx hne
    have houter : x ∈ t.outer := by
      rw [ZoneTree.outer, if_neg hbase]
      exact List.mem_cons_of_mem _ hx
    refine hc.outside x (t.outer_not_mem houter ?_) fun hmem => ?_
    · rintro rfl
      exact hne (List.mem_singleton_self _)
    · exact hapart x (t.outer_subset houter) (u.linksOf_subset hmem)
  · intro y hy
    rw [(t.outerZone hbase).terminiiMet (t.outerZone_not_empty hbase)] at hy
    rw [List.mem_singleton.mp hy]
    have hnew := hc.holdsZone t u hlen hapart
    exact ⟨u.node, hnew.base, hnew.tree⟩

/-- **The other zone is now in this tree**, whose links are those above this zone, those of
the other zone, and those below this zone. -/
theorem zoneTree : ∃ t' : ZoneTree h' (writtenBack zone other), t'.node = u.node ∧ t'.tree = t.tree
    ∧ t'.links.Perm (t.outer ++ (u.inner ++ t.lower)) := by
  have hnew := hc.holdsZone t u hlen hapart
  have hperm := hc.linksBelow_node t u hlen hapart
  have hlookup : h'.treesByOrdinal.lookup zone.ordinal = some t.tree := by
    rw [hc.rest]
    exact t.lookup
  have hdeferred : zone.ordinal ∉ h'.deferredTreeOrdinals := by
    rw [hc.rest]
    exact t.not_deferred
  -- the zone written back is not empty, since its base is not in the other tree
  have hne : (writtenBack zone other).isEmpty = false := by
    refine decide_eq_false ?_
    intro heq
    have hmem : zone.base ∈ other.terminii := by
      rw [show other.terminii = [zone.base] from heq]
      exact List.mem_singleton_self _
    exact hapart _ (t.outer_subset t.base_mem_outer)
      (u.inner_subset (u.terminii_subset_inner hmem))
  -- this zone is the whole tree, or stands below an outer zone
  by_cases hbase : zone.base = t.tree.root
  · refine ⟨⟨u.levels + t.levels, t.tree, u.node, u.node, hlookup, hdeferred, ?_, ?_, hnew, hne⟩,
      rfl, rfl, ?_⟩
    · rw [← hbase]
      exact hnew.dropTerminii
    · rw [← hbase]
      exact List.mem_cons_self
    · rw [ZoneTree.outer, if_pos hbase]
      exact hperm.cons _
  · have houter := t.outerZone hbase
    have hmet := houter.terminiiMet (t.outerZone_not_empty hbase)
    have hr := hc.replaced_outer t u hlen hapart hbase
    -- above the base nothing is changed
    have hroot : t.tree.root ∉ linksOf zone :=
      t.outer_not_mem List.mem_cons_self fun heq => hbase heq.symm
    have htop : h'.childOf t.tree.root = some t.top :=
      (hc.outside _ hroot fun hmem => hapart _ (t.outer_subset List.mem_cons_self)
        (u.linksOf_subset hmem)).trans t.whole.base
    have hunder : [zone.base].flatMap (h'.linksUnder (u.levels + t.levels))
        = h'.linksBelow (u.levels + t.levels) u.node := by
      have hchild : h'.childOf zone.base = some u.node := hnew.base
      rw [List.flatMap_singleton, linksUnder, hchild]
      rfl
    have hlinks : (t.tree.root :: (h.zoneLinks [zone.base] t.levels t.top
        ++ [zone.base].flatMap (h'.linksUnder (u.levels + t.levels)))).Perm
        (t.outer ++ (u.inner ++ t.lower)) := by
      rw [hunder, ZoneTree.outer, if_neg hbase]
      exact List.Perm.cons _ (List.Perm.append_left _ hperm)
    -- the outer zone with the other zone at its one terminus
    have hwhole := hr.holdsZone t.whole.tree hmet hnew.apart_base zone.ordinal htop
      (by rw [hr.nextLink]; exact t.whole.base_lt)
      (hlinks.nodup_iff.mpr (distinct t u hapart))
    refine ⟨⟨t.levels + (u.levels + t.levels), t.tree, t.top, u.node, hlookup, hdeferred,
      hwhole.dropTerminii, ?_, hnew.mono (Nat.le_add_left _ _), hne⟩, rfl, rfl, ?_⟩
    · refine List.mem_cons_of_mem _ ((hr.terminiiMet_sublist t.whole.tree).subset ?_)
      rw [hmet]
      exact List.mem_singleton_self _
    · have hall := hr.linksBelow_perm t.whole.tree
      rw [hmet] at hall
      exact (hall.cons _).trans hlinks

end

end Crossed

/-! ## §3. Both sides. -/

section

variable {h h' : TreeHeap} {zone other : TreeZone}

/-- A link of the first of two zones, as a swap sees it. -/
theorem mem_linksOf_of_pair {p : Nat × Nat}
    (hp : p ∈ swappedPairs zone.base other.base zone.terminii other.terminii) :
    p.1 ∈ linksOf zone ∧ p.2 ∈ linksOf other := by
  rcases List.mem_append.mp hp with hp | hp
  · obtain ⟨h₁, h₂⟩ := List.of_mem_zip hp
    exact ⟨List.mem_cons_of_mem _ h₁, List.mem_cons_of_mem _ h₂⟩
  · rw [List.mem_singleton.mp hp]
    exact ⟨List.mem_cons_self, List.mem_cons_self⟩

/-- The pairs from the other side. -/
theorem mem_swappedPairs_swap {p : Nat × Nat} :
    p ∈ swappedPairs other.base zone.base other.terminii zone.terminii
      ↔ (p.2, p.1) ∈ swappedPairs zone.base other.base zone.terminii other.terminii := by
  have hzip : (zone.terminii.zip other.terminii).map Prod.swap
      = other.terminii.zip zone.terminii := List.zip_swap _ _
  unfold swappedPairs
  rw [List.mem_append, List.mem_append, List.mem_singleton, List.mem_singleton, ← hzip,
    List.mem_map]
  refine or_congr ⟨?_, fun hp => ⟨_, hp, rfl⟩⟩ ?_
  · rintro ⟨q, hq, rfl⟩
    exact hq
  · constructor
    · rintro rfl
      rfl
    · intro heq
      obtain ⟨h₂, h₁⟩ := Prod.mk.inj heq
      exact Prod.ext h₁ h₂

/-- The pairs of the swap back, in one order or the other. -/
theorem mem_swappedPairs_flip {base base' : Nat} {ts us : List Nat} {p : Nat × Nat}
    (hp : ∃ q ∈ swappedPairs base base' ts us, p = q ∨ p = (q.2, q.1)) :
    ∃ q ∈ swappedPairs base base' us ts, p = q ∨ p = (q.2, q.1) := by
  obtain ⟨q, hq, hpq⟩ := hp
  rcases List.mem_append.mp hq with hq | hq
  · refine ⟨(q.2, q.1), List.mem_append_left _ ?_, hpq.symm⟩
    rw [← List.zip_swap, List.mem_map]
    exact ⟨q, hq, rfl⟩
  · exact ⟨q, List.mem_append_right _ hq, hpq⟩

theorem exchanged_swap
    (hex : h.Exchanged (swappedPairs zone.base other.base zone.terminii other.terminii) h') :
    h.Exchanged (swappedPairs other.base zone.base other.terminii zone.terminii) h' := by
  refine ⟨hex.rest, fun p hp => ?_, fun p hp => ?_, fun x hx => hex.other x fun p hp => ?_⟩
  · exact hex.right _ (mem_swappedPairs_swap.mp hp)
  · exact hex.left _ (mem_swappedPairs_swap.mp hp)
  · exact (hx (p.2, p.1) (mem_swappedPairs_swap.mpr hp)).symm

theorem crossed_of_exchanged
    (hex : h.Exchanged (swappedPairs zone.base other.base zone.terminii other.terminii) h') :
    Crossed h h' zone other := by
  refine ⟨hex.rest, hex.left (zone.base, other.base) ?_, fun p hp => hex.right p ?_, ?_⟩
  · exact List.mem_append_right _ (List.mem_singleton_self _)
  · exact List.mem_append_left _ hp
  · intro x hx hx'
    refine hex.other x fun p hp => ?_
    obtain ⟨h₁, h₂⟩ := mem_linksOf_of_pair hp
    refine ⟨?_, ?_⟩
    · rintro rfl
      exact hx h₁
    · rintro rfl
      exact hx' h₂

end

/-- The place of a link in one list, in another. -/
def counterpart (ts us : List Nat) (t : Nat) : Nat := ((ts.zip us).lookup t).getD t

theorem counterpart_of_mem_zip {ts us : List Nat} (hnodup : ts.Nodup) {t u : Nat}
    (hp : (t, u) ∈ ts.zip us) : counterpart ts us t = u := by
  induction ts generalizing us with
  | nil => cases hp
  | cons a ts ih =>
      cases us with
      | nil => cases hp
      | cons b us =>
          obtain ⟨ha, hnodup⟩ := List.nodup_cons.mp hnodup
          rcases List.mem_cons.mp hp with heq | hp'
          · obtain ⟨rfl, rfl⟩ := Prod.mk.inj heq
            rw [counterpart, List.zip_cons_cons, List.lookup_cons_self]
            rfl
          · have hne : t ≠ a := by
              rintro rfl
              exact ha (List.of_mem_zip hp').1
            have hkeep : counterpart (a :: ts) (b :: us) t = counterpart ts us t := by
              rw [counterpart, List.zip_cons_cons, List.lookup_cons, beq_false_of_ne hne]
              rfl
            rw [hkeep, ih hnodup hp']

/-- **The other zone swapped in**: the base has the other base's node, and the subtree there
is the other zone's nodes with this zone's subtrees at the corresponding terminii. -/
structure SwappedIn (h h' : TreeHeap) (zone other : TreeZone) : Prop where
  node : h'.childOf zone.base = h.childOf other.base
  subtree : ∀ d, h'.subtreeAt d zone.base = (h.childOf other.base).elim .null
    (h.grafted other.terminii
      (fun d t => h.subtreeAt d (counterpart other.terminii zone.terminii t)) d)

theorem Crossed.swappedIn {h h' : TreeHeap} {zone other : TreeZone}
    (hc : Crossed h h' zone other) (t : ZoneTree h zone) (u : ZoneTree h other)
    (hlen : zone.terminii.length = other.terminii.length)
    (hapart : ∀ x ∈ t.links, x ∉ u.links) : SwappedIn h h' zone other := by
  refine ⟨hc.base, fun d => ?_⟩
  rw [subtreeAt, hc.base, u.holds.base]
  show h'.subtree d u.node = h.grafted other.terminii _ d u.node
  rw [(hc.replaced t u hlen hapart).subtree_eq u.holds.tree]
  refine grafted_congr (fun y hy d => ?_) d u.node
  obtain ⟨x, hp⟩ := exists_zip_of_mem_right hlen hy
  rw [hc.subtreeAt_eq t u hapart hp]
  have hswap : (y, x) ∈ other.terminii.zip zone.terminii := by
    rw [← List.zip_swap, List.mem_map]
    exact ⟨(x, y), hp, rfl⟩
  rw [counterpart_of_mem_zip u.holds.terminii_nodup hswap]

/-! ## §4. The fixups. -/

/-- A zone to fix up for each terminus, or none at all; its base is the terminus. -/
structure FixupsFor (fixups : Fixups) (terminii : List Nat) : Prop where
  length : fixups = [] ∨ fixups.length = terminii.length
  at_terminii : FixupsAt fixups terminii

theorem length_setFixups (fixups : Fixups) (ts : List Nat) :
    (setFixups fixups ts).length = fixups.length := by
  induction fixups generalizing ts with
  | nil => cases ts <;> rfl
  | cons fixup rest ih =>
      cases ts with
      | nil => rfl
      | cons t ts => exact congrArg (· + 1) (ih ts)

theorem fixupsAt_setFixups (fixups : Fixups) (ts : List Nat) :
    FixupsAt (setFixups fixups ts) ts := by
  induction fixups generalizing ts with
  | nil => cases ts <;> exact trivial
  | cons fixup rest ih =>
      cases ts with
      | nil => exact trivial
      | cons t ts =>
          refine ⟨fun zone hzone => ?_, ih ts⟩
          obtain ⟨old, _, rfl⟩ := Option.map_eq_some_iff.mp hzone
          rfl

theorem FixupsFor.setFixups {fixups : Fixups} {ts us : List Nat} (hfix : FixupsFor fixups ts)
    (hlen : ts.length = us.length) : FixupsFor (setFixups fixups us) us := by
  refine ⟨?_, fixupsAt_setFixups fixups us⟩
  rcases hfix.length with rfl | hlength
  · exact Or.inl (by cases us <;> rfl)
  · exact Or.inr (by rw [length_setFixups, hlength, hlen])

/-- Setting the bases back. -/
theorem setFixups_setFixups {fixups : Fixups} {ts us : List Nat} (hat : FixupsAt fixups ts)
    (hlen : ts.length = us.length) : setFixups (setFixups fixups us) ts = fixups := by
  induction fixups generalizing ts us with
  | nil =>
      cases us <;> cases ts <;> rfl
  | cons fixup rest ih =>
      cases ts with
      | nil =>
          obtain rfl := List.eq_nil_of_length_eq_zero hlen.symm
          rfl
      | cons t ts =>
          cases us with
          | nil => exact absurd hlen (by simp)
          | cons u us =>
              have hlen' : ts.length = us.length := by simpa using hlen
              show Option.map _ (Option.map _ fixup) :: _ = _
              rw [ih hat.2 hlen']
              refine congrArg (· :: rest) ?_
              cases fixup with
              | none => rfl
              | some zone =>
                  show some { zone with base := t } = some zone
                  rw [← hat.1 zone rfl]

/-- **Each fixup's base is the link that now holds its base node**, and nothing else of it
is changed. -/
def FixedUp (h h' : TreeHeap) (fixups fixups' : Fixups) : Prop :=
  List.Forall₂ (Option.Rel fun zone zone' : TreeZone =>
    zone' = { zone with base := zone'.base } ∧ h'.childOf zone'.base = h.childOf zone.base)
    fixups fixups'

theorem fixedUp_setFixups {h h' : TreeHeap} {fixups : Fixups} {ts us : List Nat}
    (hfix : FixupsFor fixups ts) (hlen : ts.length = us.length)
    (hchild : ∀ p ∈ ts.zip us, h'.childOf p.2 = h.childOf p.1) :
    FixedUp h h' fixups (setFixups fixups us) := by
  obtain ⟨hlength, hat⟩ := hfix
  induction fixups generalizing ts us with
  | nil =>
      cases us <;> exact List.Forall₂.nil
  | cons fixup rest ih =>
      have hlength : rest.length + 1 = ts.length := hlength.resolve_left (List.cons_ne_nil _ _)
      cases ts with
      | nil => cases hlength
      | cons t ts =>
          cases us with
          | nil => exact absurd hlen (by simp)
          | cons u us =>
              rw [List.zip_cons_cons, List.forall_mem_cons] at hchild
              refine List.Forall₂.cons ?_ (ih (by simpa using hlen) hchild.2
                (Or.inr (by simpa using hlength)) hat.2)
              cases fixup with
              | none => exact Option.Rel.none
              | some zone =>
                  refine Option.Rel.some ⟨rfl, ?_⟩
                  rw [hat.1 zone rfl]
                  exact hchild.1

/-! ## §5. The swap. -/

/-- **Swapping two zones of different trees exchanges exactly the zones.**  Each base has
the other zone's nodes with its own subtrees at the corresponding terminii, and no other
link is changed; the zones written back are zones of the same trees, with their terminii in
order, and each fixup's base has moved with its node.  Swapping them again restores memory,
the zones and the fixups. -/
theorem swap_exact {h : TreeHeap} {zone1 zone2 : TreeZone} {fixups1 fixups2 : Fixups}
    (t1 : ZoneTree h zone1) (t2 : ZoneTree h zone2)
    (hordinal : zone1.ordinal ≠ zone2.ordinal) (hapart : ∀ x ∈ t1.links, x ∉ t2.links)
    (hlen : zone1.terminii.length = zone2.terminii.length)
    (hfix1 : FixupsFor fixups1 zone1.terminii) (hfix2 : FixupsFor fixups2 zone2.terminii) :
    ∃ h' fixups1' fixups2',
      MutableZone.swapTreeToTree zone1 fixups1 zone2 fixups2 h
          = some (((writtenBack zone1 zone2, fixups1'), (writtenBack zone2 zone1, fixups2')), h')
        ∧ SwappedIn h h' zone1 zone2 ∧ SwappedIn h h' zone2 zone1
        ∧ h' = { h with childOf := h'.childOf }
        ∧ (∀ x ∉ linksOf zone1 ++ linksOf zone2, h'.childOf x = h.childOf x)
        ∧ (∃ t : ZoneTree h' (writtenBack zone1 zone2), t.node = t2.node ∧ t.tree = t1.tree)
        ∧ (∃ t : ZoneTree h' (writtenBack zone2 zone1), t.node = t1.node ∧ t.tree = t2.tree)
        ∧ FixedUp h h' fixups1 fixups1' ∧ FixedUp h h' fixups2 fixups2'
        ∧ MutableZone.swapTreeToTree (writtenBack zone1 zone2) fixups1'
            (writtenBack zone2 zone1) fixups2' h'
          = some (((zone1, fixups1), (zone2, fixups2)), h) := by
  have hapart' : ∀ x ∈ t2.links, x ∉ t1.links := fun x hx hx' => hapart x hx' hx
  -- the links of two zones of different trees are proper, and each there once
  have hlinks : ∀ {g : TreeHeap} {z1 z2 : TreeZone} (s1 : ZoneTree g z1) (s2 : ZoneTree g z2),
      (∀ x ∈ s1.links, x ∉ s2.links) →
      (∀ x ∈ linksOf z1 ++ linksOf z2, InTables g x ∧ Proper g x)
        ∧ (linksOf z1 ++ linksOf z2).Nodup := by
    intro g z1 z2 s1 s2 hdisjoint
    refine ⟨List.forall_mem_append.mpr ⟨fun x hx => s1.inTables hx, fun x hx => s2.inTables hx⟩,
      List.nodup_append.mpr ⟨s1.linksOf_nodup, s2.linksOf_nodup, ?_⟩⟩
    rintro x hx y hy rfl
    exact hdisjoint x (s1.linksOf_subset hx) (s2.linksOf_subset hy)
  obtain ⟨htables, hnodup⟩ := hlinks t1 t2 hapart
  -- the first swap
  obtain ⟨h', hrun, hex⟩ := run_swapTreeToTree hlen hordinal htables hnodup
    hfix1.at_terminii hfix2.at_terminii
  have hc1 : Crossed h h' zone1 zone2 := crossed_of_exchanged hex
  have hc2 : Crossed h h' zone2 zone1 := crossed_of_exchanged (exchanged_swap hex)
  obtain ⟨t1', hnode1, htree1, hperm1⟩ := hc1.zoneTree t1 t2 hlen hapart
  obtain ⟨t2', hnode2, htree2, hperm2⟩ := hc2.zoneTree t2 t1 hlen.symm hapart'
  -- the new trees are apart again: each part is in one of them only
  have hdisjoint : ∀ x ∈ t1'.links, x ∉ t2'.links := by
    intro x hx1 hx2
    obtain ⟨_, hrest1, happ1⟩ := List.nodup_append.mp t1.nodup
    obtain ⟨_, hrest2, happ2⟩ := List.nodup_append.mp t2.nodup
    have hlow1 := (List.nodup_append.mp hrest1).2.2
    have hlow2 := (List.nodup_append.mp hrest2).2.2
    have hmem1 := hperm1.subset hx1
    have hmem2 := hperm2.subset hx2
    rw [List.mem_append, List.mem_append] at hmem1 hmem2
    rcases hmem1 with hx1 | hx1 | hx1 <;> rcases hmem2 with hx2 | hx2 | hx2
    · exact hapart x (t1.outer_subset hx1) (t2.outer_subset hx2)
    · exact happ1 x hx1 x (List.mem_append_left _ hx2) rfl
    · exact hapart x (t1.outer_subset hx1) (t2.lower_subset hx2)
    · exact happ2 x hx2 x (List.mem_append_left _ hx1) rfl
    · exact hapart x (t1.inner_subset hx2) (t2.inner_subset hx1)
    · exact hlow2 x hx1 x hx2 rfl
    · exact hapart x (t1.lower_subset hx1) (t2.outer_subset hx2)
    · exact hlow1 x hx2 x hx1 rfl
    · exact hapart x (t1.lower_subset hx1) (t2.lower_subset hx2)
  obtain ⟨htables', hnodup'⟩ := hlinks t1' t2' hdisjoint
  have hlen' : (writtenBack zone1 zone2).terminii.length
      = (writtenBack zone2 zone1).terminii.length := hlen.symm
  -- the second swap, which undoes the first
  obtain ⟨h'', hrun', hex'⟩ := run_swapTreeToTree hlen' hordinal htables' hnodup'
    (fixupsAt_setFixups fixups1 zone2.terminii) (fixupsAt_setFixups fixups2 zone1.terminii)
  have hrestore : h'' = h := hex.restore hex' fun p =>
    ⟨mem_swappedPairs_flip, mem_swappedPairs_flip⟩
  have hback1 : setFixups (setFixups fixups1 zone2.terminii)
      (writtenBack zone2 zone1).terminii = fixups1 :=
    setFixups_setFixups hfix1.at_terminii hlen
  have hback2 : setFixups (setFixups fixups2 zone1.terminii)
      (writtenBack zone1 zone2).terminii = fixups2 :=
    setFixups_setFixups hfix2.at_terminii hlen.symm
  rw [hback1, hback2, hrestore] at hrun'
  refine ⟨h', setFixups fixups1 zone2.terminii, setFixups fixups2 zone1.terminii, hrun,
    hc1.swappedIn t1 t2 hlen hapart, hc2.swappedIn t2 t1 hlen.symm hapart', hex.rest, ?_,
    ⟨t1', hnode1, htree1⟩, ⟨t2', hnode2, htree2⟩,
    fixedUp_setFixups hfix1 hlen hc1.terminus, fixedUp_setFixups hfix2 hlen.symm hc2.terminus,
    hrun'⟩
  intro x hx
  rw [List.mem_append, not_or] at hx
  exact hc1.outside x hx.1 hx.2

/-- A tree of a node with one element in a sequence, and one of three nodes in a row, the
second in a collection. -/
def twoTrees : TreeHeap where
  childOf x := [some 0, some 1, some 2, some 3, some 4].getD x none
  nodeAt n :=
    { kind := .plain
      typeIndex := n
      value := .nothing
      items := [[.sequence [1]], [], [.collection [3]], [.singular 4], []].getD n []
      identifier_value := by
        refine iff_of_false NodeKind.noConfusion ?_
        rintro ⟨name, role, heq⟩
        cases heq
      identifier_items := fun hkind => by cases hkind }
  nextLink := 5
  nextNode := 5
  treesByOrdinal := (StdMap.empty.set 0 ⟨0, .main⟩).set 1 ⟨2, .domainExtension⟩
  nextTreeOrdinal := 2
  freeTreeOrdinals := []
  deferredTreeOrdinals := []
  mainTreeOrdinal := 0

theorem twoTrees_leaf {n : Nat} (hn : n = 1 ∨ n = 4) (j : Nat) : twoTrees.linksBelow j n = [] := by
  cases j with
  | zero => rfl
  | succ j => rcases hn with rfl | rfl <;> rfl

theorem twoTrees_isTree : twoTrees.IsTree 3 0 ∧ twoTrees.IsTree 3 2 ∧ twoTrees.IsTree 3 3 := by
  have hleaf (n : Nat) (hn : n = 1 ∨ n = 4) : twoTrees.IsTree 1 n := by
    rcases hn with rfl | rfl
    · exact ⟨by decide, by decide, fun x hx => absurd hx List.not_mem_nil⟩
    · exact ⟨by decide, by decide, fun x hx => absurd hx List.not_mem_nil⟩
  have hsecond : twoTrees.IsTree 2 3 := by
    refine ⟨by decide, by decide, fun x hx => ?_⟩
    obtain rfl : x = 4 := List.mem_singleton.mp hx
    exact ⟨by decide, 4, rfl, hleaf 4 (Or.inr rfl)⟩
  refine ⟨⟨by decide, by decide, fun x hx => ?_⟩, ⟨by decide, by decide, fun x hx => ?_⟩,
    hsecond.succ⟩
  · obtain rfl : x = 1 := List.mem_singleton.mp hx
    exact ⟨by decide, 1, rfl, (hleaf 1 (Or.inl rfl)).succ⟩
  · obtain rfl : x = 3 := List.mem_singleton.mp hx
    exact ⟨by decide, 3, rfl, hsecond⟩

theorem twoTrees_apart {t : Nat} (ht : t = 1 ∨ t = 4) : twoTrees.Apart [t] := by
  intro x hx c hc j y hy
  obtain rfl := List.mem_singleton.mp hx
  have hleaf : c = 1 ∨ c = 4 := by
    rcases ht with rfl | rfl
    · exact Or.inl (Option.some.inj hc).symm
    · exact Or.inr (Option.some.inj hc).symm
  rw [twoTrees_leaf hleaf j] at hy
  cases hy

/-- A zone at the root of the first tree that ends at the element. -/
def twoTreesFirst : ZoneTree twoTrees ⟨0, [1], 0⟩ where
  levels := 3
  tree := ⟨0, .main⟩
  top := 0
  node := 0
  lookup := by decide
  not_deferred := by decide
  whole := ⟨rfl, by decide, twoTrees_isTree.1, by decide,
    Or.inr ⟨List.nil_sublist _, fun _ ht => absurd ht List.not_mem_nil⟩⟩
  base_mem := by decide
  holds := ⟨rfl, by decide, twoTrees_isTree.1, by decide,
    Or.inr ⟨List.Sublist.refl [1], twoTrees_apart (Or.inl rfl)⟩⟩
  not_empty := rfl

/-- The node in the collection of the second tree, without its child. -/
def twoTreesSecond : ZoneTree twoTrees ⟨3, [4], 1⟩ where
  levels := 3
  tree := ⟨2, .domainExtension⟩
  top := 2
  node := 3
  lookup := by decide
  not_deferred := by decide
  whole := ⟨rfl, by decide, twoTrees_isTree.2.1, by decide,
    Or.inr ⟨List.nil_sublist _, fun _ ht => absurd ht List.not_mem_nil⟩⟩
  base_mem := by decide
  holds := ⟨rfl, by decide, twoTrees_isTree.2.2, by decide,
    Or.inr ⟨List.Sublist.refl [4], twoTrees_apart (Or.inr rfl)⟩⟩
  not_empty := rfl

theorem swap_exact_twoTrees : ∃ h' fixups fixups',
    MutableZone.swapTreeToTree ⟨0, [1], 0⟩ [some ⟨1, [], 0⟩] ⟨3, [4], 1⟩ [] twoTrees
        = some (((⟨0, [4], 0⟩, fixups), (⟨3, [1], 1⟩, fixups')), h')
      ∧ SwappedIn twoTrees h' ⟨0, [1], 0⟩ ⟨3, [4], 1⟩
      ∧ SwappedIn twoTrees h' ⟨3, [4], 1⟩ ⟨0, [1], 0⟩
      ∧ FixedUp twoTrees h' [some ⟨1, [], 0⟩] fixups
      ∧ MutableZone.swapTreeToTree ⟨0, [4], 0⟩ fixups ⟨3, [1], 1⟩ fixups' h'
        = some (((⟨0, [1], 0⟩, [some ⟨1, [], 0⟩]), (⟨3, [4], 1⟩, [])), twoTrees) := by
  have hfixups : FixupsFor [some ⟨1, [], 0⟩] [1] := by
    refine ⟨Or.inr rfl, fun zone hzone => ?_, trivial⟩
    rw [← Option.some.inj hzone]
  obtain ⟨h', fixups, fixups', hrun, hin, hin', _, _, _, _, hfixed, _, hback⟩ :=
    swap_exact twoTreesFirst twoTreesSecond (by decide) (by decide) rfl hfixups
      ⟨Or.inl rfl, trivial⟩
  exact ⟨h', fixups, fixups', hrun, hin, hin', hfixed, hback⟩

end Inferno.DB
