/-
  Inferno.DB.ReplacedZone
  ───────────────────────
  A zone whose terminii are given other subtrees.

    • `zoneLinks`        — the links of a zone, down to its terminii,
    • `Replaced`         — later memory, in which the terminii have other trees,
    • `Replaced.isTree`, `Replaced.linksBelow_perm` — a tree is at the zone's node again,
                           whose links are the zone's and those of the new subtrees,
    • `Replaced.holdsZone` — it is a zone again, also below another base,
    • `subtreeAt`, `grafted` — a subtree link by link, and the nodes of a zone with other
                           subtrees at its terminii,
    • `inTables_of_holdsZone` — the tables have the links of a tree.
-/
import Inferno.DB.MutableZone

namespace Inferno.DB

open Inferno.Common

namespace TreeHeap

/-! ## §1. The links of a zone. -/

/-- The links from a node down to the terminii, these included. -/
def zoneLinks (h : TreeHeap) (terminii : List Nat) : Nat → Nat → List Nat
  | 0, _ => []
  | k + 1, n => (h.nodeAt n).links.flatMap fun x =>
      x :: if x ∈ terminii then [] else (h.childOf x).elim [] (zoneLinks h terminii k)

/-- The links below a link. -/
def linksUnder (h : TreeHeap) (k x : Nat) : List Nat := (h.childOf x).elim [] (h.linksBelow k)

section

variable {h h' : TreeHeap} {terminii : List Nat} {k l n : Nat}

theorem IsTree.mono (htree : h.IsTree k n) (hkl : k ≤ l) : h.IsTree l n := by
  induction hkl with
  | refl => exact htree
  | step _ ih => exact ih.succ

theorem linksBelow_mono (htree : h.IsTree k n) (hkl : k ≤ l) :
    h.linksBelow l n = h.linksBelow k n := by
  induction hkl with
  | refl => rfl
  | step hle ih => rw [linksBelow_succ (htree.mono hle), ih]

/-- However deep one looks, there are no other links. -/
theorem linksBelow_subset (htree : h.IsTree k n) (j : Nat) : h.linksBelow j n ⊆ h.linksBelow k n := by
  induction j generalizing k n with
  | zero =>
      intro x hx
      cases hx
  | succ j ih =>
      cases k with
      | zero => exact htree.elim
      | succ k =>
          intro x hx
          obtain ⟨y, hy, hxy⟩ := List.mem_flatMap.mp hx
          obtain ⟨_, c, hc, hsub⟩ := htree.2.2 y hy
          refine List.mem_flatMap.mpr ⟨y, hy, ?_⟩
          rw [hc, List.mem_cons] at hxy ⊢
          exact hxy.imp id fun hx => ih hsub hx

theorem zoneLinks_subset (htree : h.IsTree k n) :
    (h.zoneLinks terminii k n).Sublist (h.linksBelow k n) := by
  induction k generalizing n with
  | zero => exact htree.elim
  | succ k ih =>
      refine List.Sublist.flatMap_right _ fun x hx => ?_
      obtain ⟨_, c, hc, hsub⟩ := htree.2.2 x hx
      rw [hc]
      refine List.Sublist.cons_cons x ?_
      by_cases hmem : x ∈ terminii
      · rw [if_pos hmem]
        exact List.nil_sublist _
      · rw [if_neg hmem]
        exact ih hsub

theorem terminiiMet_subset_zoneLinks :
    h.terminiiMet terminii k n ⊆ h.zoneLinks terminii k n := by
  induction k generalizing n with
  | zero => exact List.Subset.refl _
  | succ k ih =>
      intro t ht
      obtain ⟨x, hx, ht⟩ := List.mem_flatMap.mp ht
      refine List.mem_flatMap.mpr ⟨x, hx, ?_⟩
      by_cases hmem : x ∈ terminii
      · rw [if_pos hmem] at ht
        rw [List.mem_singleton.mp ht]
        exact List.mem_cons_self
      · rw [if_neg hmem] at ht ⊢
        cases hc : h.childOf x with
        | none =>
            rw [hc] at ht
            cases ht
        | some c =>
            rw [hc] at ht
            exact List.mem_cons_of_mem x (ih ht)

end

/-! ## §2. Other trees at the terminii. -/

/-- **Later memory with the same nodes**, in which the zone from `n` has trees of at most
`j` levels at its terminii and is otherwise as it was. -/
structure Replaced (h h' : TreeHeap) (terminii : List Nat) (k j n : Nat) : Prop where
  nodeAt : h'.nodeAt = h.nodeAt
  nextNode : h'.nextNode = h.nextNode
  nextLink : h'.nextLink = h.nextLink
  inside : ∀ x ∈ h.zoneLinks terminii k n, x ∉ terminii → h'.childOf x = h.childOf x
  subtree : ∀ t ∈ h.terminiiMet terminii k n, ∃ c, h'.childOf t = some c ∧ h'.IsTree j c

namespace Replaced

variable {h h' : TreeHeap} {terminii : List Nat} {k j n : Nat}

theorem child (hr : h.Replaced h' terminii (k + 1) j n) {x c : Nat}
    (hx : x ∈ (h.nodeAt n).links) (hmem : x ∉ terminii) (hc : h.childOf x = some c) :
    h.Replaced h' terminii k j c := by
  refine ⟨hr.nodeAt, hr.nextNode, hr.nextLink, ?_, ?_⟩
  · intro y hy
    refine hr.inside y (List.mem_flatMap.mpr ⟨x, hx, List.mem_cons_of_mem x ?_⟩)
    rw [if_neg hmem, hc]
    exact hy
  · intro t ht
    refine hr.subtree t (List.mem_flatMap.mpr ⟨x, hx, ?_⟩)
    rw [if_neg hmem, hc]
    exact ht

/-- What is at a link of the zone's top node. -/
theorem childOf (hr : h.Replaced h' terminii (k + 1) j n) {x : Nat}
    (hx : x ∈ (h.nodeAt n).links) (hmem : x ∉ terminii) : h'.childOf x = h.childOf x :=
  hr.inside x (List.mem_flatMap.mpr ⟨x, hx, List.mem_cons_self⟩) hmem

theorem terminus (hr : h.Replaced h' terminii (k + 1) j n) {x : Nat}
    (hx : x ∈ (h.nodeAt n).links) (hmem : x ∈ terminii) :
    ∃ c, h'.childOf x = some c ∧ h'.IsTree j c := by
  refine hr.subtree x (List.mem_flatMap.mpr ⟨x, hx, ?_⟩)
  rw [if_pos hmem]
  exact List.mem_singleton_self x

/-- There is a tree at the zone's node again. -/
theorem isTree (hr : h.Replaced h' terminii k j n) (htree : h.IsTree k n) :
    h'.IsTree (k + j) n := by
  induction k generalizing n with
  | zero => exact htree.elim
  | succ k ih =>
      rw [Nat.add_right_comm]
      refine ⟨by rw [hr.nextNode]; exact htree.1, by rw [hr.nodeAt]; exact htree.2.1, ?_⟩
      intro x hx
      rw [hr.nodeAt] at hx
      obtain ⟨hlt, c, hc, hsub⟩ := htree.2.2 x hx
      refine ⟨by rw [hr.nextLink]; exact hlt, ?_⟩
      by_cases hmem : x ∈ terminii
      · obtain ⟨d, hd, hdtree⟩ := hr.terminus hx hmem
        exact ⟨d, hd, hdtree.mono (Nat.le_add_left j k)⟩
      · exact ⟨c, (hr.childOf hx hmem).trans hc, ih (hr.child hx hmem hc) hsub⟩

/-- **Its links are the zone's and those of the new subtrees.** -/
theorem linksBelow_perm (hr : h.Replaced h' terminii k j n) (htree : h.IsTree k n) :
    (h'.linksBelow (k + j) n).Perm
      (h.zoneLinks terminii k n ++ (h.terminiiMet terminii k n).flatMap (h'.linksUnder j)) := by
  induction k generalizing n with
  | zero => exact htree.elim
  | succ k ih =>
      rw [Nat.add_right_comm]
      show (List.flatMap _ (h'.nodeAt n).links).Perm (List.flatMap _ (h.nodeAt n).links
        ++ (List.flatMap _ (h.nodeAt n).links).flatMap _)
      rw [hr.nodeAt, List.flatMap_assoc]
      refine List.Perm.trans ?_ (List.flatMap_append_perm _ _ _).symm
      refine List.Perm.flatMap_left _ fun x hx => ?_
      obtain ⟨_, c, hc, hsub⟩ := htree.2.2 x hx
      by_cases hmem : x ∈ terminii
      · obtain ⟨d, hd, hdtree⟩ := hr.terminus hx hmem
        simp only [if_pos hmem, List.flatMap_singleton]
        show (x :: (h'.childOf x).elim [] (h'.linksBelow (k + j))).Perm
          (x :: (h'.childOf x).elim [] (h'.linksBelow j))
        rw [hd]
        show (x :: h'.linksBelow (k + j) d).Perm (x :: h'.linksBelow j d)
        rw [linksBelow_mono hdtree (Nat.le_add_left j k)]
      · simp only [if_neg hmem]
        rw [hr.childOf hx hmem, hc]
        exact (ih (hr.child hx hmem hc) hsub).cons x

/-- The terminii met are the same, and among its links in the same order. -/
theorem terminiiMet_sublist (hr : h.Replaced h' terminii k j n) (htree : h.IsTree k n) :
    (h.terminiiMet terminii k n).Sublist (h'.linksBelow (k + j) n) := by
  induction k generalizing n with
  | zero => exact htree.elim
  | succ k ih =>
      rw [Nat.add_right_comm]
      show (List.flatMap _ (h.nodeAt n).links).Sublist (List.flatMap _ (h'.nodeAt n).links)
      rw [hr.nodeAt]
      refine List.Sublist.flatMap_right _ fun x hx => ?_
      obtain ⟨_, c, hc, hsub⟩ := htree.2.2 x hx
      by_cases hmem : x ∈ terminii
      · rw [if_pos hmem]
        exact List.singleton_sublist.mpr List.mem_cons_self
      · rw [if_neg hmem, hr.childOf hx hmem, hc]
        exact (ih (hr.child hx hmem hc) hsub).cons x

/-- Without terminii the tree is the one there was. -/
theorem linksBelow_eq (hr : h.Replaced h' [] k j n) (htree : h.IsTree k n) (i : Nat) :
    h'.linksBelow i n = h.linksBelow i n := by
  induction i generalizing k n with
  | zero => rfl
  | succ i ih =>
      cases k with
      | zero => exact htree.elim
      | succ k =>
          show List.flatMap _ (h'.nodeAt n).links = List.flatMap _ (h.nodeAt n).links
          rw [hr.nodeAt]
          apply List.flatMap_congr
          intro x hx
          obtain ⟨_, c, hc, hsub⟩ := htree.2.2 x hx
          rw [hr.childOf hx List.not_mem_nil, hc]
          show x :: h'.linksBelow i c = x :: h.linksBelow i c
          rw [ih (hr.child hx List.not_mem_nil hc) hsub]

/-- **There is a zone again**, below any base whose child is the zone's node, where no link
is met twice and none of the terminii is below another. -/
theorem holdsZone (hr : h.Replaced h' terminii k j n) (htree : h.IsTree k n)
    (hmet : h.terminiiMet terminii k n = terminii) (hapart : h'.Apart terminii)
    {base : Nat} (ordinal : Int) (hbase : h'.childOf base = some n) (hlt : base < h'.nextLink)
    (hdistinct :
      (base :: (h.zoneLinks terminii k n ++ terminii.flatMap (h'.linksUnder j))).Nodup) :
    h'.HoldsZone (k + j) ⟨base, terminii, ordinal⟩ n := by
  have hperm := hr.linksBelow_perm htree
  have hsub := hr.terminiiMet_sublist htree
  rw [hmet] at hperm hsub
  refine ⟨hbase, hlt, hr.isTree htree, ?_, Or.inr ⟨hsub, hapart⟩⟩
  exact (List.Perm.cons base hperm).nodup_iff.mpr hdistinct

end Replaced

section

variable {h : TreeHeap} {terminii : List Nat} {k n : Nat}

/-- Memory itself, with the trees it has at the terminii. -/
theorem replaced_self (htree : h.IsTree k n) : h.Replaced h terminii k k n := by
  refine ⟨rfl, rfl, rfl, fun _ _ _ => rfl, fun t ht => ?_⟩
  have hmem := (zoneLinks_subset htree).subset (terminiiMet_subset_zoneLinks ht)
  obtain ⟨c, hc, hsub, _⟩ := htree.child hmem
  exact ⟨c, hc, hsub⟩

/-- **A tree's links** are those of a zone at its top and those below the terminii. -/
theorem linksBelow_split (htree : h.IsTree k n) (hmet : h.terminiiMet terminii k n = terminii) :
    (h.linksBelow k n).Perm
      (h.zoneLinks terminii k n ++ terminii.flatMap (h.linksUnder k)) := by
  have hself : h.Replaced h terminii k k n := replaced_self htree
  have hperm := hself.linksBelow_perm htree
  rw [hmet, linksBelow_mono htree (Nat.le_add_right k k)] at hperm
  exact hperm

theorem zoneLinks_nil (htree : h.IsTree k n) : h.zoneLinks [] k n = h.linksBelow k n := by
  induction k generalizing n with
  | zero => rfl
  | succ k ih =>
      show List.flatMap _ _ = List.flatMap _ _
      apply List.flatMap_congr
      intro x hx
      obtain ⟨_, c, hc, hsub⟩ := htree.2.2 x hx
      rw [if_neg List.not_mem_nil, hc]
      show x :: h.zoneLinks [] k c = x :: h.linksBelow k c
      rw [ih hsub]

theorem terminiiMet_nil (h : TreeHeap) (k n : Nat) : h.terminiiMet [] k n = [] := by
  refine List.eq_nil_iff_forall_not_mem.mpr fun t ht => ?_
  induction k generalizing n with
  | zero => cases ht
  | succ k ih =>
      obtain ⟨x, _, ht⟩ := List.mem_flatMap.mp ht
      rw [if_neg List.not_mem_nil] at ht
      cases hc : h.childOf x with
      | none =>
          rw [hc] at ht
          cases ht
      | some c =>
          rw [hc] at ht
          exact ih c ht

/-- A tree none of whose links is assigned to stays. -/
theorem replaced_of_agree {h' : TreeHeap} (htree : h.IsTree k n)
    (hrest : h' = { h with childOf := h'.childOf })
    (hagree : ∀ x ∈ h.linksBelow k n, h'.childOf x = h.childOf x) :
    h.Replaced h' [] k 0 n := by
  refine ⟨by rw [hrest], by rw [hrest], by rw [hrest], ?_, ?_⟩
  · intro x hx _
    rw [zoneLinks_nil htree] at hx
    exact hagree x hx
  · intro t ht
    rw [terminiiMet_nil] at ht
    cases ht

end

/-! ## §3. Subtrees, link by link. -/

end TreeHeap

/-- What is at a link: nothing, or a node with what is at each of its links; `cut` below the
depth one looks to. -/
inductive Subtree where
  | cut
  | null
  | node (n : Nat) (below : List (Nat × Subtree))

namespace TreeHeap

/-- The subtree at a node. -/
def subtree (h : TreeHeap) : Nat → Nat → Subtree
  | 0, _ => .cut
  | d + 1, n => .node n ((h.nodeAt n).links.map fun x =>
      (x, (h.childOf x).elim .null (subtree h d)))

/-- The subtree at a link. -/
def subtreeAt (h : TreeHeap) (d x : Nat) : Subtree := (h.childOf x).elim .null (h.subtree d)

/-- **The nodes of a zone, with other subtrees at its terminii.** -/
def grafted (h : TreeHeap) (terminii : List Nat) (other : Nat → Nat → Subtree) :
    Nat → Nat → Subtree
  | 0, _ => .cut
  | d + 1, n => .node n ((h.nodeAt n).links.map fun x =>
      (x, if x ∈ terminii then other d x
        else (h.childOf x).elim .null (grafted h terminii other d)))

section

variable {h h' : TreeHeap} {terminii : List Nat} {k j n : Nat}

/-- What is at the zone's node in the later memory. -/
theorem Replaced.subtree_eq (hr : h.Replaced h' terminii k j n) (htree : h.IsTree k n)
    (d : Nat) : h'.subtree d n = h.grafted terminii h'.subtreeAt d n := by
  induction d generalizing k n with
  | zero => rfl
  | succ d ih =>
      cases k with
      | zero => exact htree.elim
      | succ k =>
          show Subtree.node n (List.map _ (h'.nodeAt n).links)
            = Subtree.node n (List.map _ (h.nodeAt n).links)
          rw [hr.nodeAt]
          refine congrArg (Subtree.node n) (List.map_congr_left fun x hx => ?_)
          obtain ⟨_, c, hc, hsub⟩ := htree.2.2 x hx
          by_cases hmem : x ∈ terminii
          · rw [if_pos hmem]
            rfl
          · rw [if_neg hmem, hr.childOf hx hmem, hc]
            show (x, h'.subtree d c) = (x, h.grafted terminii h'.subtreeAt d c)
            rw [ih (hr.child hx hmem hc) hsub]

theorem grafted_nil (other : Nat → Nat → Subtree) (d n : Nat) :
    h.grafted [] other d n = h.subtree d n := by
  induction d generalizing n with
  | zero => rfl
  | succ d ih =>
      refine congrArg (Subtree.node n) (List.map_congr_left fun x _ => ?_)
      rw [if_neg List.not_mem_nil, show h.grafted [] other d = h.subtree d from funext ih]

/-- Only what is at the terminii matters. -/
theorem grafted_congr {other other' : Nat → Nat → Subtree}
    (heq : ∀ t ∈ terminii, ∀ d, other d t = other' d t) (d n : Nat) :
    h.grafted terminii other d n = h.grafted terminii other' d n := by
  induction d generalizing n with
  | zero => rfl
  | succ d ih =>
      refine congrArg (Subtree.node n) (List.map_congr_left fun x _ => ?_)
      rw [show h.grafted terminii other d = h.grafted terminii other' d from funext ih]
      by_cases hmem : x ∈ terminii
      · rw [if_pos hmem, if_pos hmem, heq x hmem d]
      · rw [if_neg hmem, if_neg hmem]

end

/-! ## §4. The tables. -/

section

variable {h : TreeHeap} {k n x : Nat}

/-- The walk reaches every link of a tree. -/
theorem mem_walkTree (htree : h.IsTree k n) (hx : h.childOf x = some n) {fuel : Nat}
    (hfuel : (h.linksBelow k n).length < fuel) {y : Nat} (hy : y ∈ x :: h.linksBelow k n)
    (info : CoreInfo Nat Nat) : ∃ info', (y, info') ∈ h.walkTree fuel x info := by
  induction k generalizing n x fuel info with
  | zero => exact htree.elim
  | succ k ih =>
      cases fuel with
      | zero => omega
      | succ fuel =>
          unfold TreeHeap.walkTree
          rw [hx]
          rcases List.mem_cons.mp hy with rfl | hy
          · exact ⟨info, List.mem_cons_self⟩
          · obtain ⟨z, hz, hyz⟩ := List.mem_flatMap.mp hy
            obtain ⟨_, c, hc, hsub⟩ := htree.2.2 z hz
            rw [hc] at hyz
            obtain ⟨item, hitem, hzitem⟩ := List.mem_flatMap.mp hz
            obtain ⟨p, hp, rfl⟩ : ∃ p ∈ (h.nodeAt n).items.zipIdx, p.1 = item := by
              rw [← List.mem_map, List.zipIdx_map_fst]
              exact hitem
            obtain ⟨q, hq, rfl⟩ : ∃ q ∈ p.1.links.zipIdx, q.1 = z := by
              rw [← List.mem_map, List.zipIdx_map_fst]
              exact hzitem
            have hless := length_linksBelow_lt (k := k) hz hc
            have hfuel' : (h.linksBelow k c).length < fuel := by omega
            obtain ⟨info', hinfo'⟩ := ih hsub hc hfuel' hyz (visitInfo n p.2 p.1 q.2)
            refine ⟨info', List.mem_cons_of_mem _ (List.mem_flatMap.mpr ⟨p, hp, ?_⟩)⟩
            exact List.mem_flatMap.mpr ⟨q, hq, hinfo'⟩

/-- **The tables have the links of a tree** that is not deferred. -/
theorem inTables_of_holdsZone {tree : TreeRecord} {o : Int} {terminii : List Nat}
    (htree : h.treesByOrdinal.lookup o = some tree) (hdeferred : o ∉ h.deferredTreeOrdinals)
    (hwhole : h.HoldsZone k ⟨tree.root, terminii, o⟩ n) {y : Nat}
    (hy : y ∈ tree.root :: h.linksBelow k n) : MutableZone.InTables h y := by
  obtain ⟨info, hinfo⟩ :=
    mem_walkTree hwhole.tree hwhole.base hwhole.length_lt hy rootCoreInfo
  refine ⟨info, List.mem_flatMap.mpr ⟨o, ?_, ?_⟩⟩
  · exact mem_inOrder.mpr (StdMap.mem_keys_of_lookup htree)
  · rw [htree]
    simp only [if_neg hdeferred]
    exact hinfo

end

end TreeHeap

end Inferno.DB
