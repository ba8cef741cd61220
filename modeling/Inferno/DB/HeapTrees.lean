/-
  Inferno.DB.HeapTrees
  ────────────────────
  Trees in memory.

    • `IsTree`      — there is a tree at a node, without NULLs and `SubContainer`s,
    • `linksBelow`  — its links, in depth-first order; `terminiiMet` — those that a walk
                      to terminii ends at,
    • `SameUpTo`    — two trees are the same, but for places where they may differ,
    • `HoldsZone`   — a zone of a tree,
    • `Grows`       — what was in memory is as it was.
-/
import Inferno.DB.TreeZone
import Inferno.Helpers.SimpleCompareAlike

namespace Inferno.DB

open Inferno.Common Inferno.Helpers

/-! ## §1. Trees. -/

/-- The links of a node. -/
def NodeRecord.links (r : NodeRecord) : List Nat := r.items.flatMap Item.links

namespace TreeHeap

variable (h : TreeHeap)

/-- A tree, of at most so many levels. -/
def IsTree : Nat → Nat → Prop
  | 0, _ => False
  | k + 1, n => n < h.nextNode ∧ (h.nodeAt n).kind ≠ .subContainer ∧
      ∀ x ∈ (h.nodeAt n).links, x < h.nextLink ∧ ∃ c, h.childOf x = some c ∧ IsTree k c

/-- The links of the tree at a node, in depth-first order. -/
def linksBelow : Nat → Nat → List Nat
  | 0, _ => []
  | k + 1, n => (h.nodeAt n).links.flatMap fun x =>
      x :: (h.childOf x).elim [] (linksBelow k)

/-- The terminii at which a walk from a node ends. -/
def terminiiMet (terminii : List Nat) : Nat → Nat → List Nat
  | 0, _ => []
  | k + 1, n => (h.nodeAt n).links.flatMap fun x =>
      if x ∈ terminii then [x] else (h.childOf x).elim [] (terminiiMet terminii k)

variable {h} {k n : Nat}

theorem IsTree.succ (htree : h.IsTree k n) : h.IsTree (k + 1) n := by
  induction k generalizing n with
  | zero => exact htree.elim
  | succ k ih =>
      refine ⟨htree.1, htree.2.1, fun x hx => ?_⟩
      obtain ⟨hlt, c, hc, hsub⟩ := htree.2.2 x hx
      exact ⟨hlt, c, hc, ih hsub⟩

/-- The links of a tree are in memory. -/
theorem IsTree.lt_of_mem (htree : h.IsTree k n) {x : Nat} (hx : x ∈ h.linksBelow k n) :
    x < h.nextLink := by
  induction k generalizing n with
  | zero => exact htree.elim
  | succ k ih =>
      obtain ⟨y, hy, hxy⟩ := List.mem_flatMap.mp hx
      obtain ⟨hlt, c, hc, hsub⟩ := htree.2.2 y hy
      rw [hc, List.mem_cons] at hxy
      rcases hxy with rfl | hxy
      · exact hlt
      · exact ih hsub hxy

/-- A child has fewer links below it. -/
theorem length_linksBelow_lt {x c : Nat} (hx : x ∈ (h.nodeAt n).links)
    (hc : h.childOf x = some c) :
    (h.linksBelow k c).length < (h.linksBelow (k + 1) n).length := by
  have hsub : (x :: h.linksBelow k c).Sublist (h.linksBelow (k + 1) n) := by
    have hmem := List.sublist_flatten_of_mem (List.mem_map_of_mem
      (f := fun x => x :: (h.childOf x).elim [] (h.linksBelow k)) hx)
    rw [hc] at hmem
    exact hmem
  exact hsub.length_le

/-- More levels than a tree has change nothing. -/
theorem linksBelow_succ (htree : h.IsTree k n) : h.linksBelow (k + 1) n = h.linksBelow k n := by
  induction k generalizing n with
  | zero => exact htree.elim
  | succ k ih =>
      show List.flatMap _ _ = List.flatMap _ _
      apply List.flatMap_congr
      intro x hx
      obtain ⟨_, c, hc, hsub⟩ := htree.2.2 x hx
      rw [hc]
      show x :: h.linksBelow (k + 1) c = x :: h.linksBelow k c
      rw [ih hsub]

/-- **Every link of a tree has a tree below it**, whose links come next. -/
theorem IsTree.child {x : Nat} (htree : h.IsTree k n) (hx : x ∈ h.linksBelow k n) :
    ∃ c, h.childOf x = some c ∧ h.IsTree k c
      ∧ (x :: h.linksBelow k c).Sublist (h.linksBelow k n) := by
  induction k generalizing n with
  | zero => exact htree.elim
  | succ k ih =>
      obtain ⟨y, hy, hxy⟩ := List.mem_flatMap.mp hx
      obtain ⟨_, c, hc, hsub⟩ := htree.2.2 y hy
      have hpart : (y :: h.linksBelow k c).Sublist (h.linksBelow (k + 1) n) := by
        have hmem := List.sublist_flatten_of_mem (List.mem_map_of_mem
          (f := fun x => x :: (h.childOf x).elim [] (h.linksBelow k)) hy)
        rw [hc] at hmem
        exact hmem
      rw [hc, List.mem_cons] at hxy
      rcases hxy with rfl | hxy
      · refine ⟨c, hc, hsub.succ, ?_⟩
        rw [linksBelow_succ hsub]
        exact hpart
      · obtain ⟨d, hd, hdtree, hdsub⟩ := ih hsub hxy
        refine ⟨d, hd, hdtree.succ, ?_⟩
        rw [linksBelow_succ hdtree]
        exact hdsub.trans ((List.sublist_cons_self y _).trans hpart)

variable (h) in
/-- No terminus is below another. -/
def Apart (terminii : List Nat) : Prop :=
  ∀ t ∈ terminii, ∀ c, h.childOf t = some c → ∀ j, ∀ x ∈ h.linksBelow j c, x ∉ terminii

/-- **The terminii met** are those below the node, where none is below another. -/
theorem terminiiMet_eq (htree : h.IsTree k n) {terminii : List Nat} (hapart : h.Apart terminii) :
    h.terminiiMet terminii k n = (h.linksBelow k n).filter (· ∈ terminii) := by
  induction k generalizing n with
  | zero => exact htree.elim
  | succ k ih =>
      show List.flatMap _ _ = List.filter _ (List.flatMap _ _)
      rw [List.filter_flatMap]
      apply List.flatMap_congr
      intro x hx
      obtain ⟨_, c, hc, hsub⟩ := htree.2.2 x hx
      rw [hc]
      show (if x ∈ terminii then [x] else h.terminiiMet terminii k c)
        = List.filter _ (x :: h.linksBelow k c)
      by_cases hmem : x ∈ terminii
      · rw [if_pos hmem, List.filter_cons_of_pos (by simpa using hmem), List.filter_eq_nil_iff.mpr]
        intro y hy
        simpa using hapart x hmem c hc k y hy
      · rw [if_neg hmem, List.filter_cons_of_neg (by simpa using hmem)]
        exact ih hsub

/-! ## §2. The same tree twice. -/

end TreeHeap

/-- Nodes of one class with the same data; a specific identifier is none. -/
structure NodeRecord.SameClass (r s : NodeRecord) : Prop where
  not_identifier : r.kind ≠ .identifier
  kind : r.kind = s.kind
  typeIndex : r.typeIndex = s.typeIndex
  value : r.value = s.value

namespace TreeHeap

variable (h : TreeHeap)

/-- **The same tree at two nodes**, but for the pairs of links in `P`: a specific identifier
is one node, any other node is two of one class with the same data. -/
def SameUpTo (P : Nat → Nat → Prop) : Nat → Nat → Nat → Prop
  | 0, _, _ => False
  | k + 1, n, m => (n = m ∧ (h.nodeAt n).kind = .identifier) ∨
      ((h.nodeAt n).SameClass (h.nodeAt m) ∧
        List.Forall₂ (Item.Rel fun x y => P x y ∨
          ∃ c d, h.childOf x = some c ∧ h.childOf y = some d ∧ SameUpTo P k c d)
          (h.nodeAt n).items (h.nodeAt m).items)

/-- The same tree at two links. -/
def SameLink (P : Nat → Nat → Prop) (k x y : Nat) : Prop :=
  P x y ∨ ∃ c d, h.childOf x = some c ∧ h.childOf y = some d ∧ h.SameUpTo P k c d

/-- The same tree at two nodes. -/
def SameTree (k n m : Nat) : Prop := h.SameUpTo (fun _ _ => False) k n m

variable {h} {P : Nat → Nat → Prop} {k l n m : Nat}

theorem sameUpTo_succ : h.SameUpTo P (k + 1) n m ↔
    (n = m ∧ (h.nodeAt n).kind = .identifier) ∨ ((h.nodeAt n).SameClass (h.nodeAt m) ∧
      List.Forall₂ (Item.Rel (h.SameLink P k)) (h.nodeAt n).items (h.nodeAt m).items) :=
  Iff.rfl

/-- The nodes at the top are of one kind. -/
theorem SameUpTo.kind (hsame : h.SameUpTo P k n m) : (h.nodeAt n).kind = (h.nodeAt m).kind := by
  cases k with
  | zero => exact hsame.elim
  | succ k =>
      rcases sameUpTo_succ.mp hsame with ⟨rfl, _⟩ | ⟨hclass, _⟩
      · rfl
      · exact hclass.kind

theorem SameUpTo.succ (hsame : h.SameUpTo P k n m) : h.SameUpTo P (k + 1) n m := by
  induction k generalizing n m with
  | zero => exact hsame.elim
  | succ k ih =>
      refine (sameUpTo_succ.mp hsame).imp id fun hboth => ⟨hboth.1, ?_⟩
      refine hboth.2.imp fun i j hij => hij.imp fun x y hxy => ?_
      refine hxy.imp id fun hchild => ?_
      obtain ⟨c, d, hc, hd, hcd⟩ := hchild
      exact ⟨c, d, hc, hd, ih hcd⟩

theorem SameUpTo.mono (hsame : h.SameUpTo P k n m) (hkl : k ≤ l) : h.SameUpTo P l n m := by
  induction hkl with
  | refl => exact hsame
  | step _ ih => exact ih.succ

/-- **Filling in**: with the same tree at the places left open, the whole is the same. -/
theorem SameUpTo.fill (hsame : h.SameUpTo P k n m)
    (hfill : ∀ x y, P x y → ∃ c d, h.childOf x = some c ∧ h.childOf y = some d
      ∧ h.SameTree l c d) : h.SameTree (l + k) n m := by
  induction k generalizing n m with
  | zero => exact hsame.elim
  | succ k ih =>
      rcases sameUpTo_succ.mp hsame with hid | ⟨hclass, hitems⟩
      · exact Or.inl hid
      · refine Or.inr ⟨hclass, hitems.imp fun i j hij => hij.imp fun x y hxy => Or.inr ?_⟩
        rcases hxy with hopen | ⟨c, d, hc, hd, hcd⟩
        · obtain ⟨c, d, hc, hd, hcd⟩ := hfill x y hopen
          exact ⟨c, d, hc, hd, hcd.mono (Nat.le_add_right l k)⟩
        · exact ⟨c, d, hc, hd, ih hcd⟩

/-! ## §3. Zones. -/

/-- **A zone of a tree in memory**: an empty one, or one whose terminii are below its base,
in depth-first order, and none below another. -/
structure HoldsZone (h : TreeHeap) (k : Nat) (z : TreeZone) (n : Nat) : Prop where
  base : h.childOf z.base = some n
  base_lt : z.base < h.nextLink
  tree : h.IsTree k n
  distinct : (z.base :: h.linksBelow k n).Nodup
  terminii : z.isEmpty = true ∨
    (z.terminii.Sublist (h.linksBelow k n) ∧ h.Apart z.terminii)

theorem filter_mem_of_sublist {l ts : List Nat} (hsub : ts.Sublist l) (hnodup : l.Nodup) :
    l.filter (· ∈ ts) = ts := by
  have hfilter : ts.Sublist (l.filter (· ∈ ts)) := by
    have hboth := hsub.filter (· ∈ ts)
    rwa [List.filter_eq_self.mpr (by simp)] at hboth
  have hle : (l.filter (· ∈ ts)).length ≤ ts.length := by
    refine ((hnodup.filter _).subperm fun x hx => ?_).length_le
    simpa using (List.mem_filter.mp hx).2
  exact (hfilter.eq_of_length_le hle).symm

namespace HoldsZone

variable {z : TreeZone}

/-- No path is longer than there are links. -/
theorem length_lt (hz : h.HoldsZone k z n) : (h.linksBelow k n).length < h.nextLink := by
  have hsub : (z.base :: h.linksBelow k n).Subperm (List.range h.nextLink) := by
    refine hz.distinct.subperm fun x hx => ?_
    rw [List.mem_range]
    rcases List.mem_cons.mp hx with rfl | hx
    · exact hz.base_lt
    · exact hz.tree.lt_of_mem hx
  have hle := hsub.length_le
  rw [List.length_cons, List.length_range] at hle
  omega

theorem terminiiMet (hz : h.HoldsZone k z n) (hne : z.isEmpty = false) :
    h.terminiiMet z.terminii k n = z.terminii := by
  rcases hz.terminii with hempty | ⟨hsub, hapart⟩
  · rw [hne] at hempty
    cases hempty
  · rw [terminiiMet_eq hz.tree hapart]
    exact filter_mem_of_sublist hsub (List.nodup_cons.mp hz.distinct).2

theorem mem_linksBelow (hz : h.HoldsZone k z n) (hne : z.isEmpty = false) {t : Nat}
    (ht : t ∈ z.terminii) : t ∈ h.linksBelow k n := by
  rcases hz.terminii with hempty | ⟨hsub, _⟩
  · rw [hne] at hempty
    cases hempty
  · exact hsub.subset ht

theorem base_not_mem (hz : h.HoldsZone k z n) (hne : z.isEmpty = false) :
    z.base ∉ z.terminii :=
  fun hmem => (List.nodup_cons.mp hz.distinct).1 (hz.mem_linksBelow hne hmem)

theorem terminii_nodup (hz : h.HoldsZone k z n) : z.terminii.Nodup := by
  rcases hz.terminii with hempty | ⟨hsub, _⟩
  · have hsolo : z.terminii = [z.base] := by simpa [TreeZone.isEmpty] using hempty
    rw [hsolo]
    exact List.nodup_singleton _
  · exact hsub.nodup (List.nodup_cons.mp hz.distinct).2

/-- The subtree at a terminus is a zone too, without terminii. -/
theorem subtree (hz : h.HoldsZone k z n) (hne : z.isEmpty = false) {t : Nat}
    (ht : t ∈ z.terminii) : ∃ c, h.HoldsZone k ⟨t, [], z.ordinal⟩ c := by
  have hmem := hz.mem_linksBelow hne ht
  obtain ⟨c, hc, htree, hsub⟩ := hz.tree.child hmem
  refine ⟨c, hc, hz.tree.lt_of_mem hmem, htree, ?_, Or.inr ⟨List.nil_sublist _, ?_⟩⟩
  · exact hsub.nodup (List.nodup_cons.mp hz.distinct).2
  · exact fun u hu => absurd hu List.not_mem_nil

end HoldsZone

/-! ## §4. Later memory. -/

/-- **Memory that has grown**: what was there is as it was. -/
structure Grows (h h' : TreeHeap) : Prop where
  node_le : h.nextNode ≤ h'.nextNode
  link_le : h.nextLink ≤ h'.nextLink
  nodeAt : ∀ n, n < h.nextNode → h'.nodeAt n = h.nodeAt n
  childOf : ∀ x, x < h.nextLink → h'.childOf x = h.childOf x

/-- **What came between `h` and `h'` is still there**, but for some links. -/
structure Keeps (h h' : TreeHeap) (but : List Nat) (h'' : TreeHeap) : Prop where
  nodeAt : ∀ n, h.nextNode ≤ n → n < h'.nextNode → h''.nodeAt n = h'.nodeAt n
  childOf : ∀ x, h.nextLink ≤ x → x < h'.nextLink → x ∉ but → h''.childOf x = h'.childOf x

namespace Grows

variable {h h' h'' : TreeHeap}

theorem refl (h : TreeHeap) : h.Grows h :=
  ⟨Nat.le_refl _, Nat.le_refl _, fun _ _ => rfl, fun _ _ => rfl⟩

theorem trans (h1 : h.Grows h') (h2 : h'.Grows h'') : h.Grows h'' where
  node_le := Nat.le_trans h1.node_le h2.node_le
  link_le := Nat.le_trans h1.link_le h2.link_le
  nodeAt n hn := by rw [h2.nodeAt n (by have := h1.node_le; omega), h1.nodeAt n hn]
  childOf x hx := by rw [h2.childOf x (by have := h1.link_le; omega), h1.childOf x hx]

end Grows

end TreeHeap

end Inferno.DB
