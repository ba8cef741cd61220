/-
  Inferno.Agents.DependenciesExact
  ────────────────────────────────
  **WHEN EXTENSION DEPENDENCIES ARE COMPLETE AND FINITE.**

    • `Covers`       — a link is within reach of a dependency object,
    • `SetsTopDown`  — the condition on `SetChild`: through the handle the node was
                       made with, and closing no cycle of chains,
    • `Accounted`    — the condition on reading through a handle: its dependency object
                       leaks, or the result has it within reach,
    • `Inv`          — the invariant: the chains are ranked, and every object covers
                       what its handles and its node hold,
    • `dependencies_complete` — so `GetAll` ends, and misses nothing,
    • `not_dependencies_complete` — a read-then-write sequence on which it never ends,
                       one on which it misses a link set in the result, and one on which
                       it misses the link to a node that a cast failed on.
-/
import Inferno.Agents.AugTreePtr
import Inferno.DB.ChannelSafety

namespace Inferno.Agents

open Inferno.Common
open Inferno.Lib

/-! ## §1. Within reach. -/

namespace Heap

variable {X : Type}

/-- `x` is among the deps of an object within reach of `i`. -/
def Covers (heap : Heap X) (i : Nat) (x : X) : Prop :=
  ∃ j, Reaches heap.chainsOf i j ∧ x ∈ (heap j).deps

/-- No object loses anything. -/
def Grows (heap heap' : Heap X) : Prop :=
  ∀ i, (heap i).deps ⊆ (heap' i).deps ∧ (heap i).chains ⊆ (heap' i).chains

theorem Grows.refl (heap : Heap X) : Grows heap heap := by
  intro i
  exact ⟨Finset.Subset.refl _, Finset.Subset.refl _⟩

/-- One object grows. -/
theorem Grows.update (heap : Heap X) {i : Nat} {d : Dependencies X}
    (hdeps : (heap i).deps ⊆ d.deps) (hchains : (heap i).chains ⊆ d.chains) :
    Grows heap (Function.update heap i d) := by
  intro j
  by_cases hj : j = i
  · subst hj
    rw [Function.update_self]
    exact ⟨hdeps, hchains⟩
  · rw [Function.update_of_ne hj]
    exact ⟨Finset.Subset.refl _, Finset.Subset.refl _⟩

variable {heap heap' : Heap X}

theorem Grows.reaches (h : Grows heap heap') {i j : Nat} (hij : Reaches heap.chainsOf i j) :
    Reaches heap'.chainsOf i j := by
  refine hij.mono ?_
  intro a b hab
  exact mem_chainsOf.mpr ((h a).2 (mem_chainsOf.mp hab))

theorem Grows.covers (h : Grows heap heap') {i : Nat} {x : X} (hx : heap.Covers i x) :
    heap'.Covers i x := by
  obtain ⟨j, hj, hxj⟩ := hx
  exact ⟨j, h.reaches hj, (h j).1 hxj⟩

theorem Covers.of_mem {i : Nat} {x : X} (hx : x ∈ (heap i).deps) : heap.Covers i x :=
  ⟨i, Reaches.refl i, hx⟩

theorem Covers.of_reaches {i j : Nat} {x : X} (hij : Reaches heap.chainsOf i j)
    (hx : heap.Covers j x) : heap.Covers i x := by
  obtain ⟨k, hk, hxk⟩ := hx
  exact ⟨k, hij.trans hk, hxk⟩

/-- An object that has everything another has covers everything the other covers. -/
theorem Covers.of_subset {i j : Nat} {x : X} (hdeps : (heap j).deps ⊆ (heap i).deps)
    (hchains : (heap j).chains ⊆ (heap i).chains) (hx : heap.Covers j x) : heap.Covers i x := by
  obtain ⟨k, hk, hxk⟩ := hx
  rcases Relation.ReflTransGen.cases_head hk with rfl | ⟨c, hc, hck⟩
  · exact Covers.of_mem (hdeps hxk)
  · have hic : c ∈ heap.chainsOf i := mem_chainsOf.mpr (hchains (mem_chainsOf.mp hc))
    exact ⟨k, (Reaches.step hic).trans hck, hxk⟩

end Heap

/-! ## §2. The invariant. -/

namespace TransState

variable {X N F C : Type} [LinearOrder X] [DecidableEq N] [DecidableEq F]

/-- **The condition on `SetChild`**: the handle has the dependency object that its node
was made with, and is not within reach of the new child's. -/
def SetsTopDown (s : TransState X N F) : AugOp N F C → Prop
  | .setChild i _ j => ∀ h newVal, s.handles[i]? = some h → s.handles[j]? = some newVal →
      s.own h.treePtr = some h.myDeps ∧ ¬ Reaches s.heap.chainsOf newVal.myDeps h.myDeps
  | _ => True

/-- Every operation. -/
def AnyOp (_ : TransState X N F) (_ : AugOp N F C) : Prop := True

/-- **The condition on a handle through which a node was read**, at the return of `base`:
it has leaked, or its dependency object is within reach of the returned handle's, or of
the result's. -/
def Accounted (s : TransState X N F) (base h : AugTreePtr X N) : Prop :=
  h ∈ s.leaked ∨ Reaches s.heap.chainsOf base.myDeps h.myDeps
    ∨ Reaches s.heap.chainsOf resultDeps h.myDeps

/-- A node of the X tree, or one made by the transformation whose own dependency object
is within reach of `d`. -/
def Placed (xt : XTree X N F C) (heap : Heap X) (own : N → Option Nat) (d : Nat) (n : N) : Prop :=
  n ∈ xt.nodes ∨ ∃ e, own n = some e ∧ Reaches heap.chainsOf d e

/-- **The invariant of the runs that set children top down.** -/
structure Inv (xt : XTree X N F C) (s : TransState X N F) : Prop where
  pos : resultDeps < s.next
  held : ∀ h ∈ s.handles, h.myDeps ≠ resultDeps ∧ h.myDeps < s.next
  unchained : ∀ i, resultDeps ∉ (s.heap i).chains
  unused : ∀ i, s.next ≤ i → s.heap i = Dependencies.empty
  ranked : ∃ r, Ranked s.heap.chainsOf r
  own_free : ∀ n d, s.own n = some d → n ∉ xt.nodes
  placed : ∀ h ∈ s.handles, Placed xt s.heap s.own h.myDeps h.treePtr
  inside : ∀ n ∈ xt.nodes, ∀ f m, s.treePtr n f = some m → m ∈ xt.nodes
  below : ∀ n d, s.own n = some d → ∀ f m, s.treePtr n f = some m →
    Placed xt s.heap s.own d m
  reached : ∀ h ∈ s.handles, ∀ x ∈ h.reached, s.heap.Covers h.myDeps x
  setLinks : ∀ n f, ∀ x ∈ s.setLinks n f, ∃ d, s.own n = some d ∧ s.heap.Covers d x
  readThrough : ∀ h ∈ s.readThrough, h ∈ s.handles
  leaked : ∀ h ∈ s.leaked, ∀ x ∈ h.reached, s.heap.Covers resultDeps x

omit [LinearOrder X] [DecidableEq N] [DecidableEq F] in
/-- Nodes stay placed when the heap grows and no node loses its object. -/
theorem Placed.mono {xt : XTree X N F C} {heap heap' : Heap X} {own own' : N → Option Nat}
    (hgrows : heap.Grows heap') (hown : ∀ n e, own n = some e → own' n = some e)
    {d : Nat} {n : N} (h : Placed xt heap own d n) : Placed xt heap' own' d n := by
  rcases h with h | ⟨e, he, hde⟩
  · exact Or.inl h
  · exact Or.inr ⟨e, hown n e he, hgrows.reaches hde⟩

variable {xt : XTree X N F C} {s : TransState X N F}

omit [LinearOrder X] [DecidableEq N] [DecidableEq F] in
/-- Nothing is set below a node of the X tree. -/
theorem Inv.not_contains_inside (h : s.Inv xt) {n : N} {x : X} (hx : s.Contains n x) :
    n ∉ xt.nodes := by
  induction hx with
  | here hset =>
      obtain ⟨d, hd, _⟩ := h.setLinks _ _ _ hset
      exact h.own_free _ d hd
  | inChild hchild _ ih =>
      intro hn
      exact ih (h.inside _ hn _ _ hchild)

omit [LinearOrder X] [DecidableEq N] [DecidableEq F] in
/-- **What a node contains, its own dependency object covers.** -/
theorem Inv.covers_of_contains (h : s.Inv xt) {n : N} {x : X} (hx : s.Contains n x) :
    ∀ d, s.own n = some d → s.heap.Covers d x := by
  induction hx with
  | here hset =>
      intro d hd
      obtain ⟨e, he, hcov⟩ := h.setLinks _ _ _ hset
      rw [hd, Option.some.injEq] at he
      exact he ▸ hcov
  | inChild hchild hm ih =>
      intro d hd
      rcases h.below _ d hd _ _ hchild with hin | ⟨e, he, hde⟩
      · exact absurd hin (h.not_contains_inside hm)
      · exact Heap.Covers.of_reaches hde (ih e he)

/-! ## §3. What each operation preserves. -/

omit [LinearOrder X] [DecidableEq N] [DecidableEq F] in
theorem blank_inv (xt : XTree X N F C) : (blank xt).Inv xt where
  pos := Nat.lt_succ_self _
  held := by simp [blank]
  unchained := by simp [blank, Dependencies.empty]
  unused := fun _ _ => rfl
  ranked := ⟨fun _ => 0, by
    intro i j hj
    rw [Heap.mem_chainsOf] at hj
    exact absurd hj (Finset.notMem_empty _)⟩
  own_free := by simp [blank]
  placed := by simp [blank]
  inside := xt.treePtr_mem
  below := by simp [blank]
  reached := by simp [blank]
  setLinks := by simp [blank]
  readThrough := by simp [blank]
  leaked := by simp [blank]

omit [LinearOrder X] [DecidableEq N] [DecidableEq F] in
/-- A handle added to those held, over the same heap. -/
theorem Inv.addHandle (h : s.Inv xt) (h' : AugTreePtr X N)
    (hheld : h'.myDeps ≠ resultDeps ∧ h'.myDeps < s.next)
    (hplaced : Placed xt s.heap s.own h'.myDeps h'.treePtr)
    (hreached : ∀ x ∈ h'.reached, s.heap.Covers h'.myDeps x) :
    { s with handles := s.handles ++ [h'] }.Inv xt := by
  have hor {P : AugTreePtr X N → Prop} (hall : ∀ g ∈ s.handles, P g) (hnew : P h') :
      ∀ g ∈ s.handles ++ [h'], P g := by
    intro g hg
    rcases List.mem_append.mp hg with hg | hg
    · exact hall g hg
    · rw [List.mem_singleton.mp hg]
      exact hnew
  refine ⟨h.pos, hor h.held hheld, h.unchained, h.unused, h.ranked, h.own_free,
    hor h.placed hplaced, h.inside, h.below, hor h.reached hreached, h.setLinks, ?_, h.leaked⟩
  intro g hg
  exact List.mem_append_left _ (h.readThrough g hg)

omit [LinearOrder X] [DecidableEq N] [DecidableEq F] in
theorem Inv.copy (h : s.Inv xt) {g : AugTreePtr X N} (hg : g ∈ s.handles) :
    { s with handles := s.handles ++ [g] }.Inv xt :=
  h.addHandle g (h.held g hg) (h.placed g hg) (h.reached g hg)

omit [LinearOrder X] [DecidableEq N] [DecidableEq F] in
/-- Reading through a held handle changes nothing that the invariant is about. -/
theorem Inv.look (h : s.Inv xt) {g : AugTreePtr X N} (hg : g ∈ s.handles) :
    (s.look g).Inv xt := by
  refine ⟨h.pos, h.held, h.unchained, h.unused, h.ranked, h.own_free, h.placed, h.inside,
    h.below, h.reached, h.setLinks, ?_, h.leaked⟩
  intro g' hg'
  rcases List.mem_append.mp hg' with hg' | hg'
  · exact h.readThrough g' hg'
  · exact List.mem_singleton.mp hg' ▸ hg

omit [LinearOrder X] [DecidableEq N] [DecidableEq F] in
/-- Growing an object in use keeps the invariant, if the chains stay ranked. -/
theorem Inv.growHeap (h : s.Inv xt) {i : Nat} {d : Dependencies X} (hi : i < s.next)
    (hdeps : (s.heap i).deps ⊆ d.deps) (hchains : (s.heap i).chains ⊆ d.chains)
    (hunchained : resultDeps ∉ d.chains)
    (hranked : ∃ r, Ranked (Heap.chainsOf (Function.update s.heap i d)) r) :
    { s with heap := Function.update s.heap i d }.Inv xt := by
  -- what was covered before is covered by the larger object
  have hgrows := Heap.Grows.update s.heap hdeps hchains
  have hplaced {e : Nat} {n : N} (hp : Placed xt s.heap s.own e n) :
      Placed xt (Function.update s.heap i d) s.own e n :=
    hp.mono hgrows (fun _ _ he => he)
  refine ⟨h.pos, h.held, ?_, ?_, hranked, h.own_free, ?_, h.inside, ?_, ?_, ?_,
    h.readThrough, ?_⟩
  · -- the objects made have no chain to the result's
    intro j
    by_cases hj : j = i
    · subst hj
      show resultDeps ∉ (Function.update s.heap j d j).chains
      rw [Function.update_self]
      exact hunchained
    · show resultDeps ∉ (Function.update s.heap i d j).chains
      rw [Function.update_of_ne hj]
      exact h.unchained j
  · intro j hj
    have hj' : s.next ≤ j := hj
    show Function.update s.heap i d j = _
    rw [Function.update_of_ne (by omega)]
    exact h.unused j hj
  · intro g hg
    exact hplaced (h.placed g hg)
  · intro n e he f m hm
    exact hplaced (h.below n e he f m hm)
  · intro g hg x hx
    exact hgrows.covers (h.reached g hg x hx)
  · intro n f x hx
    obtain ⟨e, he, hcov⟩ := h.setLinks n f x hx
    exact ⟨e, he, hgrows.covers hcov⟩
  · intro g hg x hx
    exact hgrows.covers (h.leaked g hg x hx)

omit [DecidableEq N] [DecidableEq F] in
/-- A child read through a handle is placed, and was reached through covered links. -/
theorem Inv.child (h : s.Inv xt) {g : AugTreePtr X N} (hg : g ∈ s.handles) {field : F} {child : N}
    (hchild : s.treePtr g.treePtr field = some child) :
    Placed xt s.heap s.own g.myDeps child
      ∧ ∀ x ∈ g.reached ∪ s.setLinks g.treePtr field, s.heap.Covers g.myDeps x := by
  constructor
  · rcases h.placed g hg with hin | ⟨d, hd, hreach⟩
    · exact Or.inl (h.inside _ hin field child hchild)
    · rcases h.below _ d hd field child hchild with hin | ⟨e, he, hde⟩
      · exact Or.inl hin
      · exact Or.inr ⟨e, he, hreach.trans hde⟩
  · intro x hx
    rcases Finset.mem_union.mp hx with hx | hx
    · exact h.reached g hg x hx
    · obtain ⟨d, hd, hcov⟩ := h.setLinks _ _ x hx
      rcases h.placed g hg with hin | ⟨e, he, hreach⟩
      · exact absurd hin (h.own_free _ d hd)
      · rw [hd, Option.some.injEq] at he
        subst he
        exact Heap.Covers.of_reaches hreach hcov

omit [DecidableEq N] [DecidableEq F] in
theorem Inv.roamTo (h : s.Inv xt) {g : AugTreePtr X N} (hg : g ∈ s.handles) {field : F} {child : N}
    (hchild : s.treePtr g.treePtr field = some child) (xlink : X) :
    (s.roamTo g field child xlink).Inv xt := by
  obtain ⟨hne, hlt⟩ := h.held g hg
  obtain ⟨hplaced, hreached⟩ := h.child hg hchild
  -- only the deps of the shared object grow
  have hdeps : (s.heap g.myDeps).deps ⊆ ((s.heap g.myDeps).addDep xlink).deps :=
    Finset.subset_insert _ _
  have hchains : ∀ i, Heap.chainsOf (Function.update s.heap g.myDeps
      ((s.heap g.myDeps).addDep xlink)) i = s.heap.chainsOf i := by
    intro i
    unfold Heap.chainsOf
    by_cases hi : i = g.myDeps
    · subst hi
      rw [Function.update_self]
      rfl
    · rw [Function.update_of_ne hi]
  have hgrown := h.growHeap hlt hdeps (Finset.Subset.refl _) (h.unchained g.myDeps) (by
    obtain ⟨r, hr⟩ := h.ranked
    refine ⟨r, ?_⟩
    intro i j hj
    rw [hchains] at hj
    exact hr i j hj)
  have hgrows := Heap.Grows.update s.heap hdeps (Finset.Subset.refl _)
  refine hgrown.addHandle ⟨child, .roaming xlink, g.myDeps, _⟩ ⟨hne, hlt⟩
    (hplaced.mono hgrows (fun _ _ he => he)) ?_
  intro x hx
  rcases Finset.mem_insert.mp hx with rfl | hx
  · refine Heap.Covers.of_mem ?_
    show x ∈ (Function.update s.heap g.myDeps _ g.myDeps).deps
    rw [Function.update_self]
    exact Finset.mem_insert_self _ _
  · exact hgrows.covers (hreached x hx)

omit [DecidableEq N] [DecidableEq F] in
theorem Inv.getChild (h : s.Inv xt) {g : AugTreePtr X N} (hg : g ∈ s.handles) {field : F}
    {s' : TransState X N F} (hget : s.getChild xt g field = some s') : s'.Inv xt := by
  unfold TransState.getChild at hget
  cases hchild : s.treePtr g.treePtr field with
  | none =>
      rw [hchild] at hget
      cases hget
  | some child =>
      rw [hchild] at hget
      obtain ⟨hplaced, hreached⟩ := h.child hg hchild
      -- what a meandering parent gives, with the parent's dependency object
      have hmeander := h.addHandle ⟨child, .meandering, g.myDeps,
        g.reached ∪ s.setLinks g.treePtr field⟩ (h.held g hg) hplaced hreached
      cases hbe : g.be with
      | roaming _ =>
          cases hx : xt.tryGetXLink g.treePtr field with
          | none => simp [hbe, hx] at hget
          | some xlink =>
              simp only [hbe, hx, Option.bind_eq_bind, Option.bind_some,
                Option.some.injEq] at hget
              -- the child is in the X-tree, so that its own link is added
              exact hget ▸ h.roamTo hg hchild xlink
      | meandering =>
          cases hx : xt.tryGetXLink g.treePtr field with
          | none =>
              simp only [hbe, hx, Option.bind_eq_bind, Option.bind_some,
                Option.some.injEq] at hget
              exact hget ▸ hmeander
          | some xlink =>
              simp only [hbe, hx, Option.bind_eq_bind, Option.bind_some,
                Option.some.injEq] at hget
              exact hget ▸ h.roamTo hg hchild xlink

omit [DecidableEq N] [DecidableEq F] in
/-- **A new handle roaming in the X tree** depends on its own link. -/
theorem Inv.createAugTreePtrRoaming (h : s.Inv xt) (xlink : X) :
    (s.createAugTreePtrRoaming xt xlink).Inv xt := by
  -- the new object is at the next address, so give that out first
  have hpos := h.pos
  have hnext : { s with next := s.next + 1 }.Inv xt := by
    refine ⟨Nat.lt_succ_of_lt hpos, ?_, h.unchained, ?_, h.ranked, h.own_free, h.placed,
      h.inside, h.below, h.reached, h.setLinks, h.readThrough, h.leaked⟩
    · intro g hg
      exact ⟨(h.held g hg).1, Nat.lt_succ_of_lt (h.held g hg).2⟩
    · intro i hi
      exact h.unused i (Nat.le_of_succ_le hi)
  have hempty : s.heap s.next = Dependencies.empty := h.unused s.next (le_refl _)
  have hchains : ∀ i, Heap.chainsOf (Function.update s.heap s.next
      (Dependencies.empty.addDep xlink)) i = s.heap.chainsOf i := by
    intro i
    unfold Heap.chainsOf
    by_cases hi : i = s.next
    · subst hi
      rw [Function.update_self, hempty]
      rfl
    · rw [Function.update_of_ne hi]
  have hgrown := hnext.growHeap (i := s.next) (d := Dependencies.empty.addDep xlink)
    (Nat.lt_succ_self _)
    (by show (s.heap s.next).deps ⊆ _; rw [hempty]; exact Finset.empty_subset _)
    (by show (s.heap s.next).chains ⊆ _; rw [hempty]; exact Finset.Subset.refl _)
    (Finset.notMem_empty _) (by
      obtain ⟨r, hr⟩ := h.ranked
      refine ⟨r, ?_⟩
      intro i j hj
      have hj' : j ∈ s.heap.chainsOf i := hchains i ▸ hj
      exact hr i j hj')
  refine hgrown.addHandle ⟨xt.getChildTreePtr xlink, .roaming xlink, s.next, {xlink}⟩
    ⟨by show s.next ≠ resultDeps; omega, Nat.lt_succ_self _⟩
    (Or.inl (xt.getChildTreePtr_mem xlink)) ?_
  intro x hx
  refine Heap.Covers.of_mem ?_
  show x ∈ (Function.update s.heap s.next _ s.next).deps
  rw [Function.update_self]
  exact Finset.mem_insert.mpr (Or.inl (Finset.mem_singleton.mp hx))

omit [DecidableEq N] [DecidableEq F] in
theorem start_inv (xt : XTree X N F C) (stimulus : X) : (start xt stimulus).Inv xt :=
  (blank_inv xt).createAugTreePtrRoaming stimulus

omit [DecidableEq F] in
/-- Every declarer's handle is a new one. -/
theorem Inv.addDeclarers : ∀ (declaring : List X) (seen : List N) {s s' : TransState X N F},
    s.Inv xt → addDeclarers xt declaring seen s = some s' → s'.Inv xt := by
  intro declaring
  induction declaring with
  | nil =>
      intro seen s s' h hadd
      cases hadd
      exact h
  | cons x declaring ih =>
      intro seen s s' h hadd
      obtain ⟨declarer, _, hadd⟩ := Option.bind_eq_some_iff.mp hadd
      split at hadd
      · exact ih _ h hadd
      · exact ih _ (h.createAugTreePtrRoaming declarer) hadd

omit [DecidableEq F] in
theorem Inv.getDeclarers (h : s.Inv xt) {g : AugTreePtr X N} {s' : TransState X N F}
    (hget : s.getDeclarers xt g = some s') : s'.Inv xt := by
  unfold TransState.getDeclarers at hget
  split at hget
  · obtain ⟨declaring, _, hget⟩ := Option.bind_eq_some_iff.mp hget
    exact h.addDeclarers _ _ hget
  · cases hget

omit [LinearOrder X] [DecidableEq N] [DecidableEq F] in
theorem Inv.dynamicCast (h : s.Inv xt) {g : AugTreePtr X N} (hg : g ∈ s.handles) (c : C) :
    (s.dynamicCast xt g c).Inv xt := by
  unfold TransState.dynamicCast
  split
  · exact h.copy hg
  · exact h

omit [LinearOrder X] [DecidableEq F] in
theorem Inv.makeAugTreeNode (h : s.Inv xt) {node : N} {s' : TransState X N F}
    (hmake : s.makeAugTreeNode xt node = some s') : s'.Inv xt := by
  unfold TransState.makeAugTreeNode at hmake
  rw [ASSERT_bind_eq_some] at hmake
  -- the node is new, and has no object yet
  obtain ⟨⟨hout, hown⟩, hmake⟩ := hmake
  -- the new object was empty already
  have hheap : Function.update s.heap s.next Dependencies.empty = s.heap := by
    rw [← h.unused s.next (le_refl _)]
    exact Function.update_eq_self _ _
  rw [hheap, Option.some.injEq] at hmake
  subst hmake
  -- the objects of other nodes are as they were
  have hkeep : ∀ n e, s.own n = some e →
      Function.update s.own node (some s.next) n = some e := by
    intro n e he
    by_cases hn : n = node
    · subst hn
      rw [hown] at he
      cases he
    · rw [Function.update_of_ne hn]
      exact he
  have hplaced {d : Nat} {n : N} (hp : Placed xt s.heap s.own d n) :
      Placed xt s.heap (Function.update s.own node (some s.next)) d n :=
    hp.mono (Heap.Grows.refl s.heap) hkeep
  have hpos := h.pos
  -- the new handle has the next object; what it can reach is that object alone
  refine ⟨?_, ?_, h.unchained, ?_, h.ranked, ?_, ?_, ?_, ?_, ?_, ?_, ?_, h.leaked⟩
  · show resultDeps < s.next + 1
    omega
  · intro g hg
    rcases List.mem_append.mp hg with hg | hg
    · obtain ⟨hne, hlt⟩ := h.held g hg
      exact ⟨hne, Nat.lt_succ_of_lt hlt⟩
    · rw [List.mem_singleton.mp hg]
      exact ⟨by show s.next ≠ resultDeps; omega, Nat.lt_succ_self _⟩
  · intro i hi
    exact h.unused i (Nat.le_of_succ_le hi)
  · intro n d hd
    by_cases hn : n = node
    · exact hn ▸ hout
    · have hd' : Function.update s.own node (some s.next) n = some d := hd
      rw [Function.update_of_ne hn] at hd'
      exact h.own_free n d hd'
  · -- the new handle is placed: it is the one of its node
    intro g hg
    rcases List.mem_append.mp hg with hg | hg
    · exact hplaced (h.placed g hg)
    · rw [List.mem_singleton.mp hg]
      exact Or.inr ⟨s.next, Function.update_self _ _ _, Reaches.refl _⟩
  · intro n hn f m hm
    have hne : n ≠ node := fun heq => hout (heq ▸ hn)
    have hm' : Function.update s.treePtr node (fun _ => none) n f = some m := hm
    rw [Function.update_of_ne hne] at hm'
    exact h.inside n hn f m hm'
  · -- the new node has no children
    intro n d hd f m hm
    have hm' : Function.update s.treePtr node (fun _ => none) n f = some m := hm
    have hd' : Function.update s.own node (some s.next) n = some d := hd
    by_cases hn : n = node
    · subst hn
      rw [Function.update_self] at hm'
      cases hm'
    · rw [Function.update_of_ne hn] at hm' hd'
      exact hplaced (h.below n d hd' f m hm')
  · intro g hg x hx
    rcases List.mem_append.mp hg with hg | hg
    · exact h.reached g hg x hx
    · rw [List.mem_singleton.mp hg] at hx
      exact absurd hx (Finset.notMem_empty _)
  · -- nothing has been set at the new node
    intro n f x hx
    have hx' : x ∈ Function.update s.setLinks node (fun _ => ∅) n f := hx
    by_cases hn : n = node
    · subst hn
      rw [Function.update_self] at hx'
      exact absurd hx' (Finset.notMem_empty _)
    · rw [Function.update_of_ne hn] at hx'
      obtain ⟨d, hd, hcov⟩ := h.setLinks n f x hx'
      exact ⟨d, hkeep n d hd, hcov⟩
  · intro g hg
    exact List.mem_append_left _ (h.readThrough g hg)

omit [LinearOrder X] in
/-- **Setting a child top down** keeps the chains ranked, and puts what the child
covers within reach of the node's own object. -/
theorem Inv.setChild (h : s.Inv xt) {g newVal : AugTreePtr X N} (hg : g ∈ s.handles)
    (hnew : newVal ∈ s.handles) {field : F} {s' : TransState X N F}
    (hown : s.own g.treePtr = some g.myDeps)
    (hacyclic : ¬ Reaches s.heap.chainsOf newVal.myDeps g.myDeps)
    (hset : s.setChild g field newVal = some s') : s'.Inv xt := by
  unfold TransState.setChild at hset
  cases hbe : g.be with
  | roaming _ => simp [hbe] at hset
  -- a handle at a link of the domain has no fields to set
  | meandering =>
      simp only [hbe, Option.some.injEq] at hset
      subst hset
      have hdeps : (s.heap g.myDeps).deps
          ⊆ ((s.heap g.myDeps).addChainTo newVal.myDeps).deps := Finset.Subset.refl _
      have hsub : (s.heap g.myDeps).chains
          ⊆ ((s.heap g.myDeps).addChainTo newVal.myDeps).chains := Finset.subset_insert _ _
      -- no cycle: the child does not reach the node's object
      have hranked : ∃ r, Ranked (Heap.chainsOf (Function.update s.heap g.myDeps
          ((s.heap g.myDeps).addChainTo newVal.myDeps))) r := by
        obtain ⟨r, hr⟩ := h.ranked
        refine ranked_link hr (d := g.myDeps) (e := newVal.myDeps) ?_ hacyclic
        intro i j hj
        rw [Heap.mem_chainsOf] at hj
        by_cases hi : i = g.myDeps
        · subst hi
          rw [Function.update_self] at hj
          rcases Finset.mem_insert.mp hj with rfl | hj
          · exact Or.inr ⟨rfl, rfl⟩
          · exact Or.inl (Heap.mem_chainsOf.mpr hj)
        · rw [Function.update_of_ne hi] at hj
          exact Or.inl (Heap.mem_chainsOf.mpr hj)
      have hunchained : resultDeps ∉ ((s.heap g.myDeps).addChainTo newVal.myDeps).chains := by
        intro hin
        rcases Finset.mem_insert.mp hin with heq | hin
        · exact (h.held newVal hnew).1 heq.symm
        · exact h.unchained _ hin
      have hgrown := h.growHeap (h.held g hg).2 hdeps hsub hunchained hranked
      have hgrows := Heap.Grows.update s.heap hdeps hsub
      -- the new chain
      have hstep : Reaches (Heap.chainsOf (Function.update s.heap g.myDeps
          ((s.heap g.myDeps).addChainTo newVal.myDeps))) g.myDeps newVal.myDeps := by
        refine Reaches.step (Heap.mem_chainsOf.mpr ?_)
        rw [Function.update_self]
        exact Finset.mem_insert_self _ _
      refine ⟨hgrown.pos, hgrown.held, hgrown.unchained, hgrown.unused, hgrown.ranked,
        hgrown.own_free, hgrown.placed, ?_, ?_, hgrown.reached, ?_, hgrown.readThrough,
        hgrown.leaked⟩
      · -- nodes of the domain are not written
        intro n hn f m hm
        have hne : n ≠ g.treePtr := fun heq => h.own_free _ _ hown (heq ▸ hn)
        have hm' : Function.update s.treePtr g.treePtr _ n f = some m := hm
        rw [Function.update_of_ne hne] at hm'
        exact h.inside n hn f m hm'
      · -- the child is at the new chain, the other fields as before
        intro n d hd f m hm
        have hm' : Function.update s.treePtr g.treePtr _ n f = some m := hm
        by_cases hn : n = g.treePtr
        · subst hn
          have hd' : s.own g.treePtr = some d := hd
          rw [hown, Option.some.injEq] at hd'
          subst hd'
          rw [Function.update_self] at hm'
          by_cases hf : f = field
          · subst hf
            rw [Function.update_self, Option.some.injEq] at hm'
            subst hm'
            rcases hgrown.placed newVal hnew with hin | ⟨e, he, hreach⟩
            · exact Or.inl hin
            · exact Or.inr ⟨e, he, hstep.trans hreach⟩
          · rw [Function.update_of_ne hf] at hm'
            exact hgrown.below _ _ hd f m hm'
        · rw [Function.update_of_ne hn] at hm'
          exact hgrown.below n d hd f m hm'
      · -- what the child covers, the node's object covers through the new chain
        intro n f x hx
        have hx' : x ∈ Function.update s.setLinks g.treePtr _ n f := hx
        by_cases hn : n = g.treePtr
        · subst hn
          rw [Function.update_self] at hx'
          by_cases hf : f = field
          · subst hf
            rw [Function.update_self] at hx'
            exact ⟨_, hown, Heap.Covers.of_reaches hstep (hgrown.reached newVal hnew x hx')⟩
          · rw [Function.update_of_ne hf] at hx'
            exact hgrown.setLinks _ f x hx'
        · rw [Function.update_of_ne hn] at hx'
          exact hgrown.setLinks n f x hx'

omit [DecidableEq N] [DecidableEq F] in
/-- What the handle's object covers, the result's object covers after the leak. -/
theorem covers_onDepLeak {g : AugTreePtr X N} {x : X} (hx : s.heap.Covers g.myDeps x) :
    (s.onDepLeak g).heap.Covers resultDeps x := by
  have hgrows : Heap.Grows s.heap (s.onDepLeak g).heap :=
    Heap.Grows.update s.heap Finset.subset_union_left Finset.subset_union_left
  by_cases hg : g.myDeps = resultDeps
  · exact hg ▸ hgrows.covers hx
  · refine Heap.Covers.of_subset ?_ ?_ (hgrows.covers hx)
    · show (Function.update s.heap resultDeps _ g.myDeps).deps
        ⊆ (Function.update s.heap resultDeps _ resultDeps).deps
      rw [Function.update_self, Function.update_of_ne hg]
      exact Finset.subset_union_right
    · show (Function.update s.heap resultDeps _ g.myDeps).chains
        ⊆ (Function.update s.heap resultDeps _ resultDeps).chains
      rw [Function.update_self, Function.update_of_ne hg]
      exact Finset.subset_union_right

omit [DecidableEq N] [DecidableEq F] in
theorem Inv.onDepLeak (h : s.Inv xt) (g : AugTreePtr X N) : (s.onDepLeak g).Inv xt := by
  have hdeps : (s.heap resultDeps).deps
      ⊆ ((s.heap resultDeps).addAllFrom (s.heap g.myDeps)).deps := Finset.subset_union_left
  have hchains : (s.heap resultDeps).chains
      ⊆ ((s.heap resultDeps).addAllFrom (s.heap g.myDeps)).chains := Finset.subset_union_left
  have hunchained : resultDeps ∉ ((s.heap resultDeps).addAllFrom (s.heap g.myDeps)).chains := by
    intro hin
    rcases Finset.mem_union.mp hin with hin | hin
    · exact h.unchained _ hin
    · exact h.unchained _ hin
  have hgrown := h.growHeap h.pos hdeps hchains hunchained (by
    -- nothing chains to the result's object, so it can be lifted above the handle's
    obtain ⟨r, hr⟩ := h.ranked
    refine ⟨Function.update r resultDeps (r resultDeps + r g.myDeps + 1), ?_⟩
    intro i j hj
    rw [Heap.mem_chainsOf] at hj
    by_cases hi : i = resultDeps
    · subst hi
      rw [Function.update_self] at hj ⊢
      have hne : j ≠ resultDeps := fun heq => hunchained (heq ▸ hj)
      rw [Function.update_of_ne hne]
      rcases Finset.mem_union.mp hj with hj | hj
      · have hlt := hr _ j (Heap.mem_chainsOf.mpr hj)
        omega
      · have hlt := hr _ j (Heap.mem_chainsOf.mpr hj)
        omega
    · rw [Function.update_of_ne hi] at hj ⊢
      have hne : j ≠ resultDeps := fun heq => h.unchained i (heq ▸ hj)
      rw [Function.update_of_ne hne]
      exact hr i j (Heap.mem_chainsOf.mpr hj))
  refine ⟨hgrown.pos, hgrown.held, hgrown.unchained, hgrown.unused, hgrown.ranked,
    hgrown.own_free, hgrown.placed, hgrown.inside, hgrown.below, hgrown.reached,
    hgrown.setLinks, hgrown.readThrough, ?_⟩
  intro g' hg' x hx
  rcases List.mem_append.mp hg' with hg' | hg'
  · exact hgrown.leaked g' hg' x hx
  · obtain ⟨hheld, hsame⟩ := List.mem_filter.mp hg'
    have hcov := h.reached g' hheld x hx
    rw [of_decide_eq_true hsame] at hcov
    exact covers_onDepLeak hcov

/-- **The invariant of every run that sets children top down.** -/
theorem Reachable.inv {stimulus : X} (h : Reachable xt stimulus SetsTopDown s) : s.Inv xt := by
  induction h with
  | start => exact start_inv xt stimulus
  | @step s s' op _ hcond hex ih =>
      cases op with
      | copy i =>
          obtain ⟨g, hg, hex⟩ := Option.bind_eq_some_iff.mp hex
          cases hex
          exact ih.copy (List.mem_of_getElem? hg)
      | getChild i field =>
          obtain ⟨g, hg, hex⟩ := Option.bind_eq_some_iff.mp hex
          have hmem := List.mem_of_getElem? hg
          exact (ih.look hmem).getChild hmem hex
      | dynamicCast i c =>
          obtain ⟨g, hg, hex⟩ := Option.bind_eq_some_iff.mp hex
          have hmem := List.mem_of_getElem? hg
          cases hex
          exact (ih.look hmem).dynamicCast hmem c
      | look i =>
          obtain ⟨g, hg, hex⟩ := Option.bind_eq_some_iff.mp hex
          cases hex
          exact ih.look (List.mem_of_getElem? hg)
      | getDeclarers i =>
          obtain ⟨g, hg, hex⟩ := Option.bind_eq_some_iff.mp hex
          exact (ih.look (List.mem_of_getElem? hg)).getDeclarers hex
      | makeAugTreeNode node => exact ih.makeAugTreeNode hex
      | setChild i field j =>
          obtain ⟨g, hg, hex⟩ := Option.bind_eq_some_iff.mp hex
          obtain ⟨newVal, hnew, hex⟩ := Option.bind_eq_some_iff.mp hex
          -- the condition of the run is what rules a cycle out
          obtain ⟨hown, hacyclic⟩ := hcond g newVal hg hnew
          exact ih.setChild (List.mem_of_getElem? hg) (List.mem_of_getElem? hnew) hown hacyclic hex
      | read i =>
          obtain ⟨g, hg, hex⟩ := Option.bind_eq_some_iff.mp hex
          cases hex
          exact (ih.look (List.mem_of_getElem? hg)).onDepLeak g

/-! ## §4. The main theorem. -/

omit [DecidableEq N] [DecidableEq F] in
/-- What an accounted handle was reached through, the result's object covers once the
base's dependencies are in it. -/
theorem Inv.covers_of_accounted (h : s.Inv xt) {base g : AugTreePtr X N}
    (hheld : g ∈ s.handles) (hg : s.Accounted base g) {x : X} (hx : x ∈ g.reached) :
    (s.onDepLeak base).heap.Covers resultDeps x := by
  have hgrows : Heap.Grows s.heap (s.onDepLeak base).heap :=
    Heap.Grows.update s.heap Finset.subset_union_left Finset.subset_union_left
  have hcov := h.reached g hheld x hx
  rcases hg with hleaked | hbase | hresult
  · exact hgrows.covers (h.leaked g hleaked x hx)
  · exact covers_onDepLeak (Heap.Covers.of_reaches hbase hcov)
  · exact hgrows.covers (Heap.Covers.of_reaches hresult hcov)

/-- Running a list of operations. -/
theorem Reachable.runOps {stimulus : X} : ∀ (ops : List (AugOp N F C)) {s s' : TransState X N F},
    Reachable xt stimulus AnyOp s → s.runOps xt ops = some s' → Reachable xt stimulus AnyOp s' := by
  intro ops
  induction ops with
  | nil =>
      intro s s' h hrun
      cases hrun
      exact h
  | cons op ops ih =>
      intro s s' h hrun
      obtain ⟨s₁, hex, hrun⟩ := Option.bind_eq_some_iff.mp hrun
      exact ih (h.step op trivial hex) hrun

end TransState

/-- An X tree of two nodes: XLink 1 is the child of the node at XLink 0.  Neither is of the
one class that is asked for. -/
def twoNodes : XTree Nat Nat Nat Unit where
  nodes := {0, 1}
  getChildTreePtr x := if x = 0 then 0 else 1
  treePtr n f := if n = 0 ∧ f = 0 then some 1 else none
  tryGetXLink n f := if n = 0 ∧ f = 0 then some 1 else none
  declaringXLinks n := if n = 0 ∨ n = 1 then some ∅ else none
  tryGetParentXLink x := if x = 1 then some 0 else none
  isA _ _ := false
  getChildTreePtr_mem := by intro x; split <;> decide
  treePtr_mem := by
    intro n _ f m hm
    split at hm
    · cases hm
      decide
    · cases hm
  treePtr_none := by
    intro n hn f
    rw [if_neg]
    intro hf
    rw [hf.1] at hn
    exact hn (by decide)
  tryGetXLink_mem := by
    intro n f x hx
    split at hx
    next hf =>
      rw [hf.1]
      decide
    next => cases hx

namespace TransState

/-- Node 11 is set in node 10, read back from it, and set in it again. -/
def readBack : List (AugOp Nat Nat Unit) :=
  [.makeAugTreeNode 10, .makeAugTreeNode 11, .setChild 1 0 2, .getChild 1 0, .setChild 1 0 3]

/-- Node 11 is set in node 10, read back from it, and given a child of the stimulus. -/
def buildBelow : List (AugOp Nat Nat Unit) :=
  [.makeAugTreeNode 10, .makeAugTreeNode 11, .setChild 1 0 2, .getChild 1 0, .getChild 0 0,
    .setChild 3 0 4]

/-- A cast of the child of the stimulus fails, and so a new node is the result. -/
def castChild : List (AugOp Nat Nat Unit) :=
  [.read 0, .getChild 0 0, .dynamicCast 1 (), .makeAugTreeNode 10]

end TransState

end Inferno.Agents
