/-
  Inferno.DB.HeapCompare
  ──────────────────────
  `SimpleCompare` on trees in memory.

    • `Describes`       — classes, data and items of the nodes of a tree, as `SimpleCompare`
                          has them,
    • `simpleCompare_of_sameTree` — the same trees tie,
    • `exists_describes` — what describes a tree can be made to describe the same tree
                          elsewhere too,
    • `SimpleCompareEqual` — both together.
-/
import Inferno.DB.HeapTrees
import Mathlib.Order.Lattice.Nat

namespace Inferno.DB

open Inferno.Common Inferno.Helpers

/-! ## §1. Descriptions. -/

/-- The item of what links point to. -/
def Item.map {L M : Type} (f : L → M) : Item L → Item M
  | .singular x => .singular (f x)
  | .sequence xs => .sequence (xs.map f)
  | .collection xs => .collection (xs.map f)

theorem forall₂_map_of_mem {A B C D : Type} {R : A → B → Prop} {S : C → D → Prop} {f : A → C}
    {g : B → D} {xs : List A} {ys : List B} (hxy : List.Forall₂ R xs ys)
    (himp : ∀ x ∈ xs, ∀ y ∈ ys, R x y → S (f x) (g y)) :
    List.Forall₂ S (xs.map f) (ys.map g) := by
  induction hxy with
  | nil => exact List.Forall₂.nil
  | cons hx hxs ih =>
      exact List.Forall₂.cons (himp _ List.mem_cons_self _ List.mem_cons_self hx)
        (ih fun x hx y hy => himp x (List.mem_cons_of_mem _ hx) y (List.mem_cons_of_mem _ hy))

namespace TreeHeap

/-- What `SimpleCompare` finds at a node in memory. -/
structure DescribedBy (h : TreeHeap) (t : TreeNodes Nat) (n : Nat) : Prop where
  typeIndex : t.typeIndex n = (h.nodeAt n).typeIndex
  value : t.value n = (h.nodeAt n).value
  itemise : t.itemise n = (h.nodeAt n).items.map (Item.map h.childOf)

/-- The nodes of the tree at a node. -/
inductive Reaches (h : TreeHeap) : Nat → Nat → Prop where
  | refl (n : Nat) : Reaches h n n
  | step {n m x c : Nat} (hn : Reaches h n m) (hx : x ∈ (h.nodeAt m).links)
      (hc : h.childOf x = some c) : Reaches h n c

/-- **The tree at a node, described.** -/
def Describes (h : TreeHeap) (t : TreeNodes Nat) (n : Nat) : Prop :=
  ∀ a, h.Reaches n a → h.DescribedBy t a

variable {h : TreeHeap} {t : TreeNodes Nat} {k n m : Nat}

theorem rel_map {R S : Nat → Nat → Prop} {f g : Nat → Option Nat} {i j : Item Nat}
    (hij : Item.Rel R i j) (himp : ∀ x ∈ i.links, ∀ y ∈ j.links, R x y →
      Option.Rel S (f x) (g y)) :
    Item.Rel (Option.Rel S) (i.map f) (j.map g) := by
  cases hij with
  | singular hxy => exact .singular (himp _ List.mem_cons_self _ List.mem_cons_self hxy)
  | sequence hxy => exact .sequence (forall₂_map_of_mem hxy himp)
  | collection hxy => exact .collection (forall₂_map_of_mem hxy himp)

/-- **The same trees tie in `SimpleCompare`.** -/
theorem simpleCompare_of_sameTree (hn : h.Describes t n) (hm : h.Describes t m)
    (hsame : h.SameTree k n m) (orderProperty : OrderProperty) :
    SimpleCompare.compare3Way t orderProperty n m = 0
      ∧ SimpleCompare.compare3Way t orderProperty m n = 0 := by
  refine SimpleCompare.compare3Way_alike
    (E := fun a b => h.Reaches n a ∧ h.Reaches m b ∧ ∃ k, h.SameTree k a b) ?_
    ⟨.refl n, .refl m, k, hsame⟩
  intro a b hab
  obtain ⟨ha, hb, k, hsame⟩ := hab
  cases k with
  | zero => exact hsame.elim
  | succ k =>
      rcases sameUpTo_succ.mp hsame with ⟨heq, _⟩ | ⟨hclass, hitems⟩
      · exact Or.inl heq
      · refine Or.inr ⟨?_, ?_, ?_, ?_⟩
        · rw [(hn a ha).typeIndex, (hm b hb).typeIndex, hclass.typeIndex]
        · rw [(hn a ha).value, (hm b hb).value, hclass.value]
        · intro name role hvalue
          rw [(hn a ha).value] at hvalue
          exact hclass.not_identifier ((h.nodeAt a).identifier_value.mpr ⟨name, role, hvalue⟩)
        · rw [(hn a ha).itemise, (hm b hb).itemise]
          refine forall₂_map_of_mem hitems fun i hi j hj hij => ?_
          refine rel_map hij fun x hx y hy hxy => ?_
          have hxa : x ∈ (h.nodeAt a).links := List.mem_flatMap.mpr ⟨i, hi, hx⟩
          have hyb : y ∈ (h.nodeAt b).links := List.mem_flatMap.mpr ⟨j, hj, hy⟩
          rcases hxy with hfalse | ⟨c, d, hc, hd, hcd⟩
          · exact hfalse.elim
          · rw [hc, hd]
            exact Option.Rel.some ⟨ha.step hxa hc, hb.step hyb hd, k, hcd⟩

/-! ## §2. Nodes of the same tree. -/

theorem SameTree.symm (hsame : h.SameTree k n m) : h.SameTree k m n := by
  induction k generalizing n m with
  | zero => exact hsame.elim
  | succ k ih =>
      rcases sameUpTo_succ.mp hsame with ⟨rfl, hkind⟩ | ⟨hclass, hitems⟩
      · exact Or.inl ⟨rfl, hkind⟩
      · refine sameUpTo_succ.mpr (Or.inr ⟨?_, ?_⟩)
        · exact ⟨hclass.kind ▸ hclass.not_identifier, hclass.kind.symm, hclass.typeIndex.symm,
            hclass.value.symm⟩
        · refine hitems.flip.imp fun i j hij => hij.flip.imp fun x y hxy => Or.inr ?_
          rcases hxy with hfalse | ⟨c, d, hc, hd, hcd⟩
          · exact hfalse.elim
          · exact ⟨d, c, hd, hc, ih hcd⟩

theorem forall₂_links {R : Nat → Nat → Prop} {is js : List (Item Nat)}
    (hitems : List.Forall₂ (Item.Rel R) is js) :
    List.Forall₂ R (is.flatMap Item.links) (js.flatMap Item.links) := by
  induction hitems with
  | nil => exact List.Forall₂.nil
  | cons hij _ ih => exact List.rel_append hij.links ih

theorem exists_of_forall₂ {R : Nat → Nat → Prop} {xs ys : List Nat}
    (hxy : List.Forall₂ R xs ys) {x : Nat} (hx : x ∈ xs) : ∃ y ∈ ys, R x y := by
  induction hxy with
  | nil => exact absurd hx List.not_mem_nil
  | cons hab _ ih =>
      rcases List.mem_cons.mp hx with rfl | hx
      · exact ⟨_, List.mem_cons_self, hab⟩
      · obtain ⟨y, hy, hxy⟩ := ih hx
        exact ⟨y, List.mem_cons_of_mem _ hy, hxy⟩

/-- Every link has a child, and the other tree has the same one. -/
theorem SameTree.child (hsame : h.SameTree k n m) {x : Nat} (hx : x ∈ (h.nodeAt n).links) :
    ∃ y ∈ (h.nodeAt m).links, ∃ c d, h.childOf x = some c ∧ h.childOf y = some d
      ∧ ∃ j < k, h.SameTree j c d := by
  cases k with
  | zero => exact hsame.elim
  | succ k =>
      rcases sameUpTo_succ.mp hsame with ⟨_, hkind⟩ | ⟨_, hitems⟩
      · unfold NodeRecord.links at hx
        rw [(h.nodeAt n).identifier_items hkind] at hx
        exact absurd hx List.not_mem_nil
      · obtain ⟨y, hy, hxy⟩ := exists_of_forall₂ (forall₂_links hitems) hx
        rcases hxy with hfalse | ⟨c, d, hc, hd, hcd⟩
        · exact hfalse.elim
        · exact ⟨y, hy, c, d, hc, hd, k, Nat.lt_succ_self k, hcd⟩

/-- Every node of one tree is in the other. -/
theorem SameTree.reaches (hsame : h.SameTree k n m) {a : Nat} (ha : h.Reaches n a) :
    ∃ b, h.Reaches m b ∧ ∃ j, h.SameTree j a b := by
  induction ha with
  | refl => exact ⟨m, .refl m, k, hsame⟩
  | step hn hx hc ih =>
      obtain ⟨b, hb, j, hab⟩ := ih
      obtain ⟨y, hy, c', d, hc', hd, i, _, hcd⟩ := hab.child hx
      obtain rfl : c' = _ := Option.some.inj (hc'.symm.trans hc)
      exact ⟨d, hb.step hy hd, i, hcd⟩

theorem itemKind_map {f : Nat → Option Nat} (items : List (Item Nat)) :
    (items.map (Item.map f)).map itemKind = items.map itemKind := by
  rw [List.map_map]
  refine List.map_congr_left fun i _ => ?_
  cases i <;> rfl

/-- Nodes of the same tree are of one class. -/
theorem SameTree.sameClass (hsame : h.SameTree k n m) :
    (h.nodeAt n).typeIndex = (h.nodeAt m).typeIndex ∧ (h.nodeAt n).value = (h.nodeAt m).value
      ∧ (h.nodeAt n).items.map itemKind = (h.nodeAt m).items.map itemKind := by
  cases k with
  | zero => exact hsame.elim
  | succ k =>
      rcases sameUpTo_succ.mp hsame with ⟨rfl, _⟩ | ⟨hclass, hitems⟩
      · exact ⟨rfl, rfl, rfl⟩
      · refine ⟨hclass.typeIndex, hclass.value, ?_⟩
        clear hsame
        generalize (h.nodeAt n).items = is at hitems
        generalize (h.nodeAt m).items = js at hitems
        induction hitems with
        | nil => rfl
        | cons hij _ ih =>
            rw [List.map_cons, List.map_cons, ih]
            cases hij <;> rfl

/-! ## §3. The description. -/

section

variable (h n m) in
/-- A node of one of the two trees; for other addresses, the first. -/
noncomputable def nodeOf (a : Nat) : Nat :=
  open Classical in if h.Reaches n a ∨ h.Reaches m a then a else n

theorem nodeOf_mem (a : Nat) : h.Reaches n (nodeOf h n m a) ∨ h.Reaches m (nodeOf h n m a) := by
  unfold nodeOf
  split
  · assumption
  · exact Or.inl (.refl n)

theorem nodeOf_eq {a : Nat} (ha : h.Reaches n a ∨ h.Reaches m a) : nodeOf h n m a = a :=
  if_pos ha

variable (h) in
/-- The least number of levels of a tree. -/
noncomputable def depth (a : Nat) : Nat := sInf {k | ∃ b, h.SameTree k a b}

/-- A child has fewer levels. -/
theorem depth_lt {a b x c : Nat} (hsame : h.SameTree k a b) (hx : x ∈ (h.nodeAt a).links)
    (hc : h.childOf x = some c) : depth h c < depth h a := by
  have hmem : depth h a ∈ {k | ∃ b, h.SameTree k a b} := Nat.sInf_mem ⟨k, b, hsame⟩
  obtain ⟨b, hsame⟩ := hmem
  obtain ⟨y, _, c', d, hc', _, j, hlt, hcd⟩ := hsame.child hx
  obtain rfl : c' = c := Option.some.inj (hc'.symm.trans hc)
  have hle : depth h c' ≤ j := Nat.sInf_le ⟨d, hcd⟩
  omega

/-- Where the nodes come from: the first tree, as it is described. -/
theorem exists_origin (ht : h.Describes t n) (hsame : h.SameTree k n m) {a : Nat}
    (ha : h.Reaches n a ∨ h.Reaches m a) : (∃ j b, h.SameTree j a b) ∧
    ∃ b, t.typeIndex b = (h.nodeAt a).typeIndex ∧ t.value b = (h.nodeAt a).value
      ∧ (t.itemise b).map itemKind = (h.nodeAt a).items.map itemKind := by
  rcases ha with ha | ha
  · obtain ⟨b, _, j, hab⟩ := hsame.reaches ha
    have hd := ht a ha
    refine ⟨⟨j, b, hab⟩, a, hd.typeIndex, hd.value, ?_⟩
    rw [hd.itemise, itemKind_map]
  · obtain ⟨b, hb, j, hab⟩ := hsame.symm.reaches ha
    have hd := ht b hb
    obtain ⟨htype, hvalue, hitems⟩ := hab.sameClass
    refine ⟨⟨j, b, hab⟩, b, hd.typeIndex.trans htype.symm, hd.value.trans hvalue.symm, ?_⟩
    rw [hd.itemise, itemKind_map, hitems]

/-- **What describes a tree** can be made to describe the same tree elsewhere too. -/
theorem exists_describes (ht : h.Describes t n) (hsame : h.SameTree k n m) :
    ∃ t, h.Describes t n ∧ h.Describes t m := by
  -- each node of either tree comes from a node that `t` describes
  have horigin (a : Nat) := exists_origin ht hsame (nodeOf_mem (h := h) (n := n) (m := m) a)
  have hlink {a : Nat} {item : Item (Option Nat)} {p : Option Nat}
      (hitem : item ∈ (h.nodeAt a).items.map (Item.map h.childOf)) (hp : p ∈ item.links) :
      ∃ x ∈ (h.nodeAt a).links, h.childOf x = p := by
    obtain ⟨i, hi, rfl⟩ := List.mem_map.mp hitem
    have hmap : p ∈ i.links.map h.childOf := by
      cases i <;> exact hp
    obtain ⟨x, hx, rfl⟩ := List.mem_map.mp hmap
    exact ⟨x, List.mem_flatMap.mpr ⟨i, hi, hx⟩, rfl⟩
  have hleaf {a : Nat} (hnil : (h.nodeAt a).items.map itemKind = []) :
      (h.nodeAt a).items = [] := List.map_eq_nil_iff.mp hnil
  -- the description read off memory; its laws come from those of `t`
  let t' : TreeNodes Nat :=
    { typeIndex := fun a => (h.nodeAt (nodeOf h n m a)).typeIndex
      value := fun a => (h.nodeAt (nodeOf h n m a)).value
      itemise := fun a => (h.nodeAt (nodeOf h n m a)).items.map (Item.map h.childOf)
      height := fun a => depth h (nodeOf h n m a)
      value_kind := by
        intro x y htype
        obtain ⟨b, htb, hvb, _⟩ := (horigin x).2
        obtain ⟨b', htb', hvb', _⟩ := (horigin y).2
        rw [← hvb, ← hvb']
        exact t.value_kind b b' (htb.trans (htype.trans htb'.symm))
      layout := by
        intro x y htype
        obtain ⟨b, htb, _, hib⟩ := (horigin x).2
        obtain ⟨b', htb', _, hib'⟩ := (horigin y).2
        rw [itemKind_map, itemKind_map, ← hib, ← hib']
        exact t.layout b b' (htb.trans (htype.trans htb'.symm))
      float_class := by
        intro x y f g hx hy
        obtain ⟨b, htb, hvb, _⟩ := (horigin x).2
        obtain ⟨b', htb', hvb', _⟩ := (horigin y).2
        rw [← htb, ← htb']
        exact t.float_class b b' f g (hvb.trans hx) (hvb'.trans hy)
      float_leaf := by
        intro x f hx
        obtain ⟨b, _, hvb, hib⟩ := (horigin x).2
        rw [t.float_leaf b f (hvb.trans hx)] at hib
        rw [hleaf hib.symm]
        rfl
      container_nonnull := by
        intro x item hitem p hp _
        obtain ⟨y, hy, rfl⟩ := hlink hitem hp
        obtain ⟨j, b, hab⟩ := (horigin x).1
        obtain ⟨_, _, c, _, hc, _⟩ := hab.child hy
        rw [hc]
        exact Option.some_ne_none c
      -- a child is less high, also in the other tree
      height_lt := by
        intro x item hitem y hy
        obtain ⟨l, hl, hly⟩ := hlink hitem hy
        obtain ⟨j, b, hab⟩ := (horigin x).1
        have hreach : h.Reaches n y ∨ h.Reaches m y :=
          (nodeOf_mem x).imp (fun hr => hr.step hl hly) (fun hr => hr.step hl hly)
        rw [nodeOf_eq hreach]
        exact depth_lt hab hl hly }
  have hdescribed {a : Nat} (ha : h.Reaches n a ∨ h.Reaches m a) : h.DescribedBy t' a := by
    have heq := nodeOf_eq ha
    refine ⟨?_, ?_, ?_⟩
    · show (h.nodeAt (nodeOf h n m a)).typeIndex = _
      rw [heq]
    · show (h.nodeAt (nodeOf h n m a)).value = _
      rw [heq]
    · show (h.nodeAt (nodeOf h n m a)).items.map _ = _
      rw [heq]
  exact ⟨t', fun a ha => hdescribed (Or.inl ha), fun a ha => hdescribed (Or.inr ha)⟩

end

/-- **Two trees are equal in `SimpleCompare`**: what describes the first can describe both,
and then they tie, either way round. -/
structure SimpleCompareEqual (h : TreeHeap) (n m : Nat) : Prop where
  described : (∃ t, h.Describes t n) → ∃ t, h.Describes t n ∧ h.Describes t m
  ties : ∀ t, h.Describes t n → h.Describes t m → ∀ orderProperty,
    SimpleCompare.compare3Way t orderProperty n m = 0
      ∧ SimpleCompare.compare3Way t orderProperty m n = 0

theorem SameTree.simpleCompareEqual (hsame : h.SameTree k n m) : h.SimpleCompareEqual n m where
  described ht := by
    obtain ⟨t, ht⟩ := ht
    exact exists_describes ht hsame
  ties _ hn hm orderProperty := simpleCompare_of_sameTree hn hm hsame orderProperty

end TreeHeap

end Inferno.DB
