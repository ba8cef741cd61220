/-
  Inferno.Agents.Overlay
  ──────────────────────
  `StandardAgent::GenReplaceLayoutImpl` and the layouts it makes: a new node, duplicated
  from the pattern's or from the input's, whose children are placeholders, and a patch for
  each of them.

    • `NodeObject`                — a node with its items, any of which may be NULL,
    • `overlayItem`, `overlayLoop` — the loop over three lists of items, with its two indices,
    • `genReplaceLayoutOverlayUsingPattern`, `genReplaceLayoutOverlayUsingX`,
      `genReplaceLayoutNormal`, `genReplaceLayoutImpl`,
    • `slots`                     — what the layout is for: an item after another, the
                                    pattern's children or the input's,
    • `overlayLoop_eq`            — the loop makes a terminus and a patch for each slot,
    • `overlay_exact`             — and so do the functions.
-/
import Inferno.Agents.Itemise
import Inferno.Common.Assert
import Inferno.Lib.Lockstep
import Mathlib.Data.List.Monad
import Mathlib.Control.Lawful

namespace Inferno.Agents

open Inferno.Common
open Inferno.Lib

/-! ## §1. Nodes and layouts. -/

/-- A node: its class, what it has besides its items, and the children its items point to,
`none` for a NULL one.  A sequence or a collection is the list of its elements. -/
structure NodeObject (C M L P : Type) where
  cls : C
  locals : L
  singular : M → Option P
  container : M → List (Option P)

/-- A `Mutator` on the new node: the singular item, or the place in the container. -/
inductive Terminus (M : Type) where
  | singular (m : M)
  | container (m : M) (it : Nat)
  deriving DecidableEq, Repr

/-- A child patch: the `TreePatch` of an input subtree, or what a child agent's
`GenReplaceLayout` returned. -/
inductive ChildPatch (P R : Type) where
  | tree (base : P)
  | layout (patch : R)
  deriving DecidableEq, Repr

/-- A `FreePatch`, with the zone's base node and terminii. -/
structure FreePatch (C M L P R : Type) where
  base : NodeObject C M L P
  terminii : List (Terminus M)
  childPatches : List (ChildPatch P R)

/-- What the loops carry on: the index `j`, and the patch so far. -/
structure OverlayState (C M L P R : Type) extends FreePatch C M L P R where
  j : Nat

section

variable {C M L P R σ : Type} [DecidableEq C] [DecidableEq M]

namespace NodeObject

/-- `*dest_singular = Mutator::MakePlaceholder()`. -/
def setPlaceholder (n : NodeObject C M L P) (m : M) : NodeObject C M L P :=
  { n with singular := Function.update n.singular m none }

/-- `dest_con->clear()`. -/
def clear (n : NodeObject C M L P) (m : M) : NodeObject C M L P :=
  { n with container := Function.update n.container m [] }

/-- `dest_con->insert( Mutator::MakePlaceholder() )`. -/
def insertPlaceholder (n : NodeObject C M L P) (m : M) : NodeObject C M L P :=
  { n with container := Function.update n.container m (n.container m ++ [none]) }

end NodeObject

/-! ## §2. The functions. -/

/-- A node class's items, of an object of another class: it has to derive from the first. -/
def itemiseAs (H : NodeClasses C M) (arch obj : C) : StateT σ Option (List M) := do
  ASSERT (H.isSubcategory arch obj = true)
  pure (H.itemise arch)

/-- `AddTerminus` on a new placeholder of a container, and a child patch for it. -/
def addElement (m : M) (patch : StateT σ Option (ChildPatch P R)) (s : OverlayState C M L P R) :
    StateT σ Option (OverlayState C M L P R) := do
  let it := (s.base.container m).length
  let child ← patch
  pure { s with
    base := s.base.insertPlaceholder m
    terminii := s.terminii ++ [.container m it]
    childPatches := s.childPatches ++ [child] }

/-- The same on a singular item. -/
def addSingular (m : M) (patch : StateT σ Option (ChildPatch P R))
    (s : OverlayState C M L P R) : StateT σ Option (OverlayState C M L P R) := do
  let child ← patch
  pure { s with
    base := s.base.setPlaceholder m
    terminii := s.terminii ++ [.singular m]
    childPatches := s.childPatches ++ [child] }

/-- The patch for a child of the pattern.  `gen` is the child agent's `GenReplaceLayout`. -/
def patternPatch (gen : P → StateT σ Option R) : Option P → StateT σ Option (ChildPatch P R)
  | some plink => do
      let patch ← gen plink
      pure (.layout patch)
  | none => failure

/-- The patch for a child of the input node: `TreeZone::CreateSubtree` of its link. -/
def inputPatch : Option P → StateT σ Option (ChildPatch P R)
  | some xlink => pure (.tree xlink)
  | none => failure

variable (H : NodeClasses C M) (gen : P → StateT σ Option R) (me x : NodeObject C M L P)

/-- `should_overlay`, for an item of the pattern's class. -/
def notNullSingular (myItem : Option M) : Bool :=
  match myItem with
  | some m => H.kind m == .container || (me.singular m).isSome
  | none => true

/-- The part of a turn that gives the new node's item its placeholders. -/
def overlayChildren (shouldOverlay : Bool) (myItem : Option M) (s : OverlayState C M L P R)
    (m : M) : StateT σ Option (OverlayState C M L P R) :=
  match H.kind m with
  | .container =>
      if shouldOverlay then
        match myItem with
        | some my =>
            if H.kind my = .container then
              (me.container my).foldlM (fun s elt => addElement m (patternPatch gen elt) s)
                { s with base := s.base.clear m }
            else failure
        | none => failure
      else
        (x.container m).foldlM (fun s elt => addElement m (inputPatch elt) s)
          { s with base := s.base.clear m }
  | .singular =>
      if shouldOverlay then
        match myItem with
        | some my =>
            if H.kind my = .singular then
              addSingular m (patternPatch gen (me.singular my)) s
            else failure
        | none => failure
      else addSingular m (inputPatch (x.singular m)) s

/-- One turn of the loop, for the item `m` of the input node's class. -/
def overlayItem (myItems destItemsInMe : List M) (s : OverlayState C M L P R) (m : M) :
    StateT σ Option (OverlayState C M L P R) := do
  let inMe : Bool := destItemsInMe[s.j]? == some m
  let shouldOverlay := inMe && notNullSingular H me myItems[s.j]?
  let s' ← overlayChildren H gen me x shouldOverlay myItems[s.j]? s m
  pure { s' with j := if inMe then s.j + 1 else s.j }

/-- The loop, on a `dest` that is duplicated from one of the two nodes. -/
def overlayLoop (dest : NodeObject C M L P) : StateT σ Option (FreePatch C M L P R) := do
  let destItems ← itemiseAs H x.cls dest.cls
  let destItemsInMe ← itemiseAs H me.cls dest.cls
  let s ← destItems.foldlM (overlayItem H gen me x (H.itemise me.cls) destItemsInMe)
    ⟨⟨dest, [], []⟩, 0⟩
  pure s.toFreePatch

/-- `GenReplaceLayoutOverlayUsingPattern`. -/
def genReplaceLayoutOverlayUsingPattern (specificIdentifier : C) :
    StateT σ Option (FreePatch C M L P R) := do
  ASSERT (H.isSubcategory specificIdentifier me.cls = false)
  overlayLoop H gen me x me

/-- `GenReplaceLayoutOverlayUsingX`. -/
def genReplaceLayoutOverlayUsingX : StateT σ Option (FreePatch C M L P R) :=
  overlayLoop H gen me x x

/-- `GenReplaceLayoutOverlay`. -/
def genReplaceLayoutOverlay (isFinal : C → Bool) (specificIdentifier : C) :
    StateT σ Option (FreePatch C M L P R) := do
  ASSERT (isFinal x.cls = true)
  ASSERT (H.isSubcategory me.cls x.cls = true)
  if H.isSubcategory x.cls me.cls then
    genReplaceLayoutOverlayUsingPattern H gen me x specificIdentifier
  else genReplaceLayoutOverlayUsingX H gen me x

/-- One turn of the loop of `GenReplaceLayoutNormal`. -/
def normalItem (s : OverlayState C M L P R) (m : M) : StateT σ Option (OverlayState C M L P R) :=
  match H.kind m with
  | .container =>
      (me.container m).foldlM (fun s elt => addElement m (patternPatch gen elt) s)
        { s with base := s.base.clear m }
  | .singular => addSingular m (patternPatch gen (me.singular m)) s

/-- `GenReplaceLayoutNormal`. -/
def genReplaceLayoutNormal (isFinal : C → Bool) : StateT σ Option (FreePatch C M L P R) := do
  ASSERT (isFinal me.cls = true)
  let s ← (H.itemise me.cls).foldlM (normalItem H gen me) ⟨⟨me, [], []⟩, 0⟩
  pure s.toFreePatch

/-- `GenReplaceLayoutImpl`: `bottomLayer` is the node that keys the overlay's bottom layer,
and `key` the one that keys the agent itself. -/
def genReplaceLayoutImpl (isFinal : C → Bool) (specificIdentifier : C)
    (bottomLayer key : Option (NodeObject C M L P)) : StateT σ Option (FreePatch C M L P R) :=
  match bottomLayer, key with
  | some x, _ => genReplaceLayoutOverlay H gen me x isFinal specificIdentifier
  | none, some x => genReplaceLayoutOverlayUsingX H gen me x
  | none, none => do
      ASSERT (isFinal me.cls = true)
      genReplaceLayoutNormal H gen me isFinal

/-! ## §3. What the layout is for. -/

/-- Where a child of the new node comes from. -/
inductive Source (P : Type) where
  | pattern (elt : Option P)
  | input (elt : Option P)

/-- The children that an item points to. -/
def itemChildren (n : NodeObject C M L P) (m : M) : List (Option P) :=
  match H.kind m with
  | .singular => [n.singular m]
  | .container => n.container m

/-- The pattern says what the item is to have: it belongs to the pattern's class, and is a
container or a singular item that is not NULL. -/
def Specifies (m : M) : Prop :=
  m ∈ H.itemise me.cls ∧ (H.kind m = .container ∨ me.singular m ≠ none)

instance (m : M) : Decidable (Specifies H me m) :=
  haveI : Decidable (me.singular m ≠ none) :=
    decidable_of_iff ((me.singular m).isSome = true) Option.isSome_iff_ne_none
  inferInstanceAs (Decidable (_ ∧ _))

/-- The children that the layout has for an item. -/
def itemSources (m : M) : List (Source P) :=
  if Specifies H me m then (itemChildren H me m).map .pattern
  else (itemChildren H x m).map .input

/-- The placeholders of an item with `n` children. -/
def itemTerminii (m : M) (n : Nat) : List (Terminus M) :=
  match H.kind m with
  | .singular => [.singular m]
  | .container => (List.range n).map (.container m)

/-- The placeholders of an item, each with what it stands for. -/
def itemSlots (m : M) : List (Terminus M × Source P) :=
  (itemTerminii H m (itemSources H me x m).length).zip (itemSources H me x m)

/-- All of them, an item of the input node's class after another. -/
def slots : List (Terminus M × Source P) :=
  (H.itemise x.cls).flatMap (itemSlots H me x)

/-- The child patch of a source. -/
def sourcePatch : Source P → StateT σ Option (ChildPatch P R)
  | .pattern elt => patternPatch gen elt
  | .input elt => inputPatch elt

/-- The new node's item with its placeholders. -/
def fillItem (n : NodeObject C M L P) (m : M) : NodeObject C M L P :=
  match H.kind m with
  | .singular => n.setPlaceholder m
  | .container =>
      let placeholders := List.replicate (itemSources H me x m).length none
      { n with container := Function.update n.container m placeholders }

/-- The layout: the template with all the items filled, the terminii of the slots, and
their patches. -/
def expectedLayout (template : NodeObject C M L P) : StateT σ Option (FreePatch C M L P R) := do
  let childPatches ← (slots H me x).mapM (fun slot => sourcePatch gen slot.2)
  pure ⟨(H.itemise x.cls).foldl (fillItem H me x) template, (slots H me x).map Prod.fst,
    childPatches⟩

/-! ## §4. What one turn of the loop does. -/

/-- The state after `n` more placeholders in a container. -/
def OverlayState.addPlaceholders (s : OverlayState C M L P R) (m : M) (n : Nat)
    (children : List (ChildPatch P R)) : OverlayState C M L P R :=
  let elements := s.base.container m ++ List.replicate n none
  { s with
    base := { s.base with container := Function.update s.base.container m elements }
    terminii := s.terminii ++ (List.range' (s.base.container m).length n).map (.container m)
    childPatches := s.childPatches ++ children }

/-- The state after the slots of an item. -/
def OverlayState.addSlots (s : OverlayState C M L P R) (m : M)
    (children : List (ChildPatch P R)) : OverlayState C M L P R where
  base := fillItem H me x s.base m
  terminii := s.terminii ++ (itemSlots H me x m).map Prod.fst
  childPatches := s.childPatches ++ children
  j := if m ∈ H.itemise me.cls then s.j + 1 else s.j

omit [DecidableEq C] in
theorem addElements_eq {E : Type} (m : M) (patch : E → StateT σ Option (ChildPatch P R))
    (elts : List E) (s : OverlayState C M L P R) :
    elts.foldlM (fun s elt => addElement m (patch elt) s) s
      = (do
          let children ← elts.mapM patch
          pure (s.addPlaceholders m elts.length children)) := by
  induction elts generalizing s with
  | nil => simp [OverlayState.addPlaceholders]
  | cons elt elts ih =>
      have hone : ∀ (child : ChildPatch P R) (children : List (ChildPatch P R)),
          OverlayState.addPlaceholders { s with
              base := s.base.insertPlaceholder m
              terminii := s.terminii ++ [.container m (s.base.container m).length]
              childPatches := s.childPatches ++ [child] } m elts.length children
            = s.addPlaceholders m (elts.length + 1) (child :: children) := by
        intro child children
        simp [OverlayState.addPlaceholders, NodeObject.insertPlaceholder, List.replicate_succ,
          List.range'_succ]
      rw [List.foldlM_cons, List.mapM_cons]
      simp only [ih]
      unfold addElement
      simp only [bind_assoc, pure_bind, hone, List.length_cons]

omit [DecidableEq C] in
theorem itemTerminii_length (m : M) :
    (itemTerminii H m (itemSources H me x m).length).length = (itemSources H me x m).length := by
  unfold itemTerminii itemSources itemChildren
  cases H.kind m with
  | singular => by_cases h : Specifies H me m <;> simp [h]
  | container => simp

omit [DecidableEq C] in
theorem itemSlots_map_fst (m : M) :
    (itemSlots H me x m).map Prod.fst = itemTerminii H m (itemSources H me x m).length :=
  List.map_fst_zip (itemTerminii_length H me x m).le

omit [DecidableEq C] in
theorem itemSlots_map_snd (m : M) :
    (itemSlots H me x m).map Prod.snd = itemSources H me x m :=
  List.map_snd_zip (itemTerminii_length H me x m).ge

omit [DecidableEq C] in
theorem itemSlots_mapM (m : M) :
    (itemSlots H me x m).mapM (fun slot => sourcePatch gen slot.2)
      = (itemSources H me x m).mapM (sourcePatch gen) := by
  rw [← itemSlots_map_snd, List.mapM_map]
  rfl

omit [DecidableEq C] in
/-- `should_overlay`, when the indices are aligned. -/
theorem shouldOverlay_iff {m : M} {rest : List M} {j : Nat}
    (h : Aligned (H.itemise me.cls) j (m :: rest)) :
    (((H.itemise me.cls)[j]? == some m) && notNullSingular H me (H.itemise me.cls)[j]?) = true
      ↔ Specifies H me m := by
  unfold Specifies
  rw [Bool.and_eq_true, beq_iff_eq]
  constructor
  · rintro ⟨hj, hnull⟩
    refine ⟨h.getElem?.mp hj, ?_⟩
    rw [hj] at hnull
    simpa [notNullSingular, Option.isSome_iff_ne_none] using hnull
  · rintro ⟨hm, hnull⟩
    have hj := h.getElem?.mpr hm
    refine ⟨hj, ?_⟩
    rw [hj]
    simpa [notNullSingular, Option.isSome_iff_ne_none] using hnull

omit [DecidableEq C] in
/-- Clearing a container and adding to it fills it. -/
theorem addPlaceholders_clear {m : M} (hk : H.kind m = .container)
    (s : OverlayState C M L P R) (children : List (ChildPatch P R)) :
    OverlayState.addPlaceholders { s with base := s.base.clear m } m
        (itemSources H me x m).length children
      = { s.addSlots H me x m children with j := s.j } := by
  have hfst := itemSlots_map_fst H me x m
  unfold itemTerminii at hfst
  rw [hk] at hfst
  simp [OverlayState.addPlaceholders, OverlayState.addSlots, NodeObject.clear, fillItem, hk, hfst,
    List.range_eq_range']

omit [DecidableEq C] in
/-- A singular item's placeholder is its one slot. -/
theorem addSingular_eq {m : M} (hk : H.kind m = .singular) (s : OverlayState C M L P R)
    {source : Source P} (hone : itemSources H me x m = [source]) :
    addSingular m (sourcePatch gen source) s
      = (do
          let children ← (itemSources H me x m).mapM (sourcePatch gen)
          pure { s.addSlots H me x m children with j := s.j }) := by
  have hfst := itemSlots_map_fst H me x m
  unfold itemTerminii at hfst
  rw [hk] at hfst
  rw [hone]
  simp [addSingular, OverlayState.addSlots, fillItem, hk, hfst]

omit [DecidableEq C] in
/-- The placeholders of a turn, where `should_overlay` says what the pattern specifies. -/
theorem overlayChildren_eq {m : M} {shouldOverlay : Bool} {myItem : Option M}
    (s : OverlayState C M L P R) (hshould : shouldOverlay = true ↔ Specifies H me m)
    (hmy : Specifies H me m → myItem = some m) :
    overlayChildren H gen me x shouldOverlay myItem s m
      = (do
          let children ← (itemSources H me x m).mapM (sourcePatch gen)
          pure { s.addSlots H me x m children with j := s.j }) := by
  unfold overlayChildren
  -- a container gives a slot for each element, a singular item one slot
  cases hk : H.kind m with
  | container =>
      by_cases hspec : Specifies H me m
      · have hsources : itemSources H me x m = (me.container m).map .pattern := by
          simp [itemSources, itemChildren, hk, hspec]
        have hlen : (me.container m).length = (itemSources H me x m).length := by
          rw [hsources, List.length_map]
        simp only [hshould.mpr hspec, hmy hspec, hk, if_true, addElements_eq]
        rw [hlen]
        simp only [addPlaceholders_clear H me x hk]
        rw [hsources, List.mapM_map]
        rfl
      · have hsources : itemSources H me x m = (x.container m).map .input := by
          simp [itemSources, itemChildren, hk, hspec]
        have hlen : (x.container m).length = (itemSources H me x m).length := by
          rw [hsources, List.length_map]
        simp only [mt hshould.mp hspec, Bool.false_eq_true, if_false, addElements_eq]
        rw [hlen]
        simp only [addPlaceholders_clear H me x hk]
        rw [hsources, List.mapM_map]
        rfl
  | singular =>
      by_cases hspec : Specifies H me m
      · have hsources : itemSources H me x m = [.pattern (me.singular m)] := by
          simp [itemSources, itemChildren, hk, hspec]
        simp only [hshould.mpr hspec, hmy hspec, hk, if_true]
        exact addSingular_eq H gen me x hk s hsources
      · have hsources : itemSources H me x m = [.input (x.singular m)] := by
          simp [itemSources, itemChildren, hk, hspec]
        simp only [mt hshould.mp hspec]
        exact addSingular_eq H gen me x hk s hsources

omit [DecidableEq C] in
/-- **One turn**, with the indices aligned. -/
theorem overlayItem_eq {m : M} {rest : List M} (s : OverlayState C M L P R)
    (h : Aligned (H.itemise me.cls) s.j (m :: rest)) :
    overlayItem H gen me x (H.itemise me.cls) (H.itemise me.cls) s m
      = (do
          let children ← (itemSlots H me x m).mapM (fun slot => sourcePatch gen slot.2)
          pure (s.addSlots H me x m children)) := by
  have hin : ((H.itemise me.cls)[s.j]? == some m) = decide (m ∈ H.itemise me.cls) := by
    rw [Bool.eq_iff_iff, beq_iff_eq, decide_eq_true_eq]
    exact h.getElem?
  have hchildren := overlayChildren_eq H gen me x s (shouldOverlay_iff H me h)
    fun hspec => h.getElem?.mpr hspec.1
  rw [itemSlots_mapM]
  unfold overlayItem
  simp only [hchildren, bind_assoc, pure_bind]
  simp only [hin, decide_eq_true_eq]
  rfl

/-! ## §5. The loop. -/

omit [DecidableEq C] in
/-- **The run**: from aligned indices on, the loop adds the slots of what is left. -/
theorem foldlM_overlayItem_eq (rest : List M) (s : OverlayState C M L P R)
    (h : Aligned (H.itemise me.cls) s.j rest) :
    rest.foldlM (overlayItem H gen me x (H.itemise me.cls) (H.itemise me.cls)) s
      = (do
          let children ← (rest.flatMap (itemSlots H me x)).mapM
            (fun slot => sourcePatch gen slot.2)
          pure {
            base := rest.foldl (fillItem H me x) s.base
            terminii := s.terminii ++ (rest.flatMap (itemSlots H me x)).map Prod.fst
            childPatches := s.childPatches ++ children
            j := s.j + rest.countP (fun m => m ∈ H.itemise me.cls) }) := by
  induction rest generalizing s with
  | nil => simp
  | cons m rest ih =>
      -- the index into the pattern's items moves with the items that it has
      have hnext : ∀ children : List (ChildPatch P R),
          Aligned (H.itemise me.cls) (s.addSlots H me x m children).j rest := by
        intro children
        show Aligned _ (if m ∈ H.itemise me.cls then s.j + 1 else s.j) rest
        by_cases hm : m ∈ H.itemise me.cls
        · rw [if_pos hm]
          exact h.next_mem hm
        · rw [if_neg hm]
          exact h.next_not_mem hm
      have hj : ∀ children : List (ChildPatch P R),
          (s.addSlots H me x m children).j + rest.countP (fun m => m ∈ H.itemise me.cls)
            = s.j + (m :: rest).countP (fun m => m ∈ H.itemise me.cls) := by
        intro children
        show (if m ∈ H.itemise me.cls then s.j + 1 else s.j) + _ = _
        rw [List.countP_cons]
        by_cases hm : m ∈ H.itemise me.cls
        · simp only [hm, if_true, decide_true]
          omega
        · simp [hm]
      rw [List.foldlM_cons, overlayItem_eq H gen me x s h]
      simp only [bind_assoc, pure_bind, ih _ (hnext _), hj, List.flatMap_cons, List.mapM_append,
        List.map_append, List.foldl_cons]
      simp only [OverlayState.addSlots, List.append_assoc]

/-- The loop makes the layout, on either of the two templates. -/
theorem overlayLoop_eq (dest : NodeObject C M L P) (hx : H.Derives x.cls dest.cls)
    (hme : H.Derives me.cls x.cls) :
    overlayLoop H gen me x dest = expectedLayout H gen me x dest := by
  have hdest : H.Derives me.cls dest.cls := hx.trans hme
  have haligned : Aligned (H.itemise me.cls) 0 (H.itemise x.cls) :=
    Aligned.start (NodeClasses.itemise_sublist hme) (NodeClasses.itemise_nodup x.cls)
  have hrun := foldlM_overlayItem_eq H gen me x (H.itemise x.cls) ⟨⟨dest, [], []⟩, 0⟩ haligned
  unfold overlayLoop itemiseAs
  rw [ClassHierarchy.isSubcategory_iff.mpr hx, ClassHierarchy.isSubcategory_iff.mpr hdest]
  show (H.itemise x.cls).foldlM (overlayItem H gen me x (H.itemise me.cls) (H.itemise me.cls))
    ⟨⟨dest, [], []⟩, 0⟩ >>= (fun s => pure s.toFreePatch) = _
  rw [hrun]
  simp only [bind_assoc, pure_bind]
  rfl

/-! ## §6. What the layouts are. -/

/-- The new node: the template with all its items filled. -/
def filled (template : NodeObject C M L P) : NodeObject C M L P :=
  (H.itemise x.cls).foldl (fillItem H me x) template

/-- The child patch is that of the source. -/
def PatchOf : Source P → ChildPatch P R → Prop
  | .pattern (some plink), patch => ∃ st r st', gen plink st = some (r, st') ∧ patch = .layout r
  | .input (some xlink), patch => patch = .tree xlink
  | _, _ => False

/-- **The layout replaces what the pattern specifies**: its base is of the template's class
and has the template's locals and a placeholder for each child, its terminii are these
placeholders, and its child patches are, one for each terminus and in the same order, the
pattern's for an item that the pattern specifies and otherwise the input's. -/
structure Overlays (template : NodeObject C M L P) (layout : FreePatch C M L P R) : Prop where
  cls : layout.base.cls = template.cls
  locals : layout.base.locals = template.locals
  placeholders : ∀ m ∈ H.itemise x.cls,
    itemChildren H layout.base m = List.replicate (itemSources H me x m).length none
  terminii : layout.terminii = (H.itemise x.cls).flatMap fun m =>
    itemTerminii H m (itemSources H me x m).length
  childPatches : List.Forall₂ (PatchOf gen) ((H.itemise x.cls).flatMap (itemSources H me x))
    layout.childPatches
  pairs : layout.childPatches.length = layout.terminii.length

omit [DecidableEq C] in
theorem fillItem_children (n : NodeObject C M L P) (a m : M) :
    itemChildren H (fillItem H me x n a) m
      = if m = a then List.replicate (itemSources H me x m).length none
        else itemChildren H n m := by
  have hone : H.kind a = .singular → (itemSources H me x a).length = 1 := by
    intro hk
    have hlen := itemTerminii_length H me x a
    unfold itemTerminii at hlen
    rw [hk] at hlen
    exact hlen.symm
  by_cases h : m = a
  · subst h
    rw [if_pos rfl]
    unfold itemChildren fillItem
    cases hk : H.kind m with
    | singular => simp [NodeObject.setPlaceholder, hone hk]
    | container => simp
  · rw [if_neg h]
    unfold itemChildren fillItem NodeObject.setPlaceholder
    cases H.kind a <;> cases H.kind m <;> simp [Function.update_of_ne h]

omit [DecidableEq C] in
theorem fillItem_cls (n : NodeObject C M L P) (a : M) :
    (fillItem H me x n a).cls = n.cls ∧ (fillItem H me x n a).locals = n.locals := by
  unfold fillItem NodeObject.setPlaceholder
  cases H.kind a <;> exact ⟨rfl, rfl⟩

omit [DecidableEq C] in
theorem foldl_fillItem (items : List M) (n : NodeObject C M L P) :
    (items.foldl (fillItem H me x) n).cls = n.cls
      ∧ (items.foldl (fillItem H me x) n).locals = n.locals
      ∧ ∀ m, itemChildren H (items.foldl (fillItem H me x) n) m
        = if m ∈ items then List.replicate (itemSources H me x m).length none
          else itemChildren H n m := by
  induction items generalizing n with
  | nil => exact ⟨rfl, rfl, fun m => rfl⟩
  | cons a items ih =>
      obtain ⟨hcls, hlocals, hchildren⟩ := ih (fillItem H me x n a)
      have hone := fillItem_cls H me x n a
      refine ⟨hcls.trans hone.1, hlocals.trans hone.2, ?_⟩
      intro m
      rw [List.foldl_cons, hchildren, fillItem_children]
      by_cases hm : m ∈ items
      · simp [hm]
      · by_cases ha : m = a <;> simp [hm, ha]

theorem patchOf_sourcePatch {source : Source P} {patch : ChildPatch P R} {st st' : σ}
    (h : sourcePatch gen source st = some (patch, st')) : PatchOf gen source patch := by
  cases source with
  | pattern elt =>
      cases elt with
      | none => cases h
      | some plink =>
          obtain ⟨⟨r, st₁⟩, hgen, hpure⟩ := Option.bind_eq_some_iff.mp h
          cases hpure
          exact ⟨st, r, _, hgen, rfl⟩
  | input elt =>
      cases elt with
      | none => cases h
      | some xlink =>
          cases h
          rfl

theorem patchOf_mapM {sources : List (Source P)} {patches : List (ChildPatch P R)} {st st' : σ}
    (h : sources.mapM (sourcePatch gen) st = some (patches, st')) :
    List.Forall₂ (PatchOf gen) sources patches := by
  induction sources generalizing patches st with
  | nil =>
      cases h
      exact List.Forall₂.nil
  | cons source sources ih =>
      rw [List.mapM_cons] at h
      obtain ⟨⟨patch, st₁⟩, hone, h⟩ := Option.bind_eq_some_iff.mp h
      obtain ⟨⟨rest, st₂⟩, hrest, h⟩ := Option.bind_eq_some_iff.mp h
      cases h
      exact List.Forall₂.cons (patchOf_sourcePatch gen hone) (ih hrest)

omit [DecidableEq C] in
theorem slots_map_fst : (slots H me x).map Prod.fst
    = (H.itemise x.cls).flatMap fun m => itemTerminii H m (itemSources H me x m).length := by
  unfold slots
  rw [List.map_flatMap]
  exact List.flatMap_congr fun m _ => itemSlots_map_fst H me x m

omit [DecidableEq C] in
theorem slots_map_snd : (slots H me x).map Prod.snd
    = (H.itemise x.cls).flatMap (itemSources H me x) := by
  unfold slots
  rw [List.map_flatMap]
  exact List.flatMap_congr fun m _ => itemSlots_map_snd H me x m

omit [DecidableEq C] in
/-- What the layout is made of. -/
theorem expectedLayout_eq (template : NodeObject C M L P) :
    expectedLayout H gen me x template
      = (do
          let childPatches ← ((H.itemise x.cls).flatMap (itemSources H me x)).mapM
            (sourcePatch gen)
          pure ⟨filled H me x template, (slots H me x).map Prod.fst, childPatches⟩) := by
  unfold expectedLayout
  rw [← slots_map_snd, List.mapM_map]
  rfl

omit [DecidableEq C] in
theorem expectedLayout_run (template : NodeObject C M L P) (st : σ) :
    expectedLayout H gen me x template st
      = (((H.itemise x.cls).flatMap (itemSources H me x)).mapM (sourcePatch gen) st).map
          fun made => (⟨filled H me x template, (slots H me x).map Prod.fst, made.1⟩, made.2) := by
  rw [expectedLayout_eq]
  exact Option.map_eq_bind.symm

omit [DecidableEq C] in
theorem overlays_of_expectedLayout {template : NodeObject C M L P} {layout : FreePatch C M L P R}
    {st st' : σ} (h : expectedLayout H gen me x template st = some (layout, st')) :
    Overlays H gen me x template layout := by
  rw [expectedLayout_run] at h
  obtain ⟨⟨patches, st₁⟩, hpatches, h⟩ := Option.map_eq_some_iff.mp h
  cases h
  obtain ⟨hcls, hlocals, hchildren⟩ := foldl_fillItem H me x (H.itemise x.cls) template
  have hforall := patchOf_mapM gen hpatches
  refine ⟨hcls, hlocals, ?_, slots_map_fst H me x, hforall, ?_⟩
  · intro m hm
    rw [show itemChildren H (filled H me x template) m = _ from hchildren m, if_pos hm]
  · show patches.length = ((slots H me x).map Prod.fst).length
    rw [← hforall.length_eq, ← slots_map_snd, List.length_map, List.length_map]

/-- The node has no NULL singular item and no NULL element. -/
def NoNulls (n : NodeObject C M L P) (items : List M) : Prop :=
  ∀ m ∈ items, none ∉ itemChildren H n m

omit [DecidableEq C] in
/-- No NULLs but the pattern's singular items, and child agents that return: the layout is
made. -/
theorem expectedLayout_isSome (template : NodeObject C M L P)
    (hx : NoNulls H x (H.itemise x.cls))
    (hme : ∀ m ∈ H.itemise me.cls, H.kind m = .container → none ∉ me.container m)
    (hgen : ∀ plink st, (gen plink st).isSome) (st : σ) :
    (expectedLayout H gen me x template st).isSome := by
  -- each source gives a patch, and so the loop over them returns
  have hsource : ∀ source ∈ (H.itemise x.cls).flatMap (itemSources H me x), ∀ st,
      ∃ patch st', sourcePatch gen source st = some (patch, st') := by
    intro source hsource st
    obtain ⟨m, hm, hmem⟩ := List.mem_flatMap.mp hsource
    unfold itemSources at hmem
    by_cases hspec : Specifies H me m
    · rw [if_pos hspec] at hmem
      obtain ⟨elt, helt, rfl⟩ := List.mem_map.mp hmem
      cases elt with
      | none =>
          unfold itemChildren at helt
          cases hk : H.kind m with
          | container =>
              rw [hk] at helt
              exact absurd helt (hme m hspec.1 hk)
          | singular =>
              rw [hk] at helt
              have hnull := hspec.2
              rw [hk, ← List.mem_singleton.mp helt] at hnull
              simp at hnull
      | some plink =>
          obtain ⟨⟨r, st'⟩, hr⟩ := Option.isSome_iff_exists.mp (hgen plink st)
          refine ⟨.layout r, st', ?_⟩
          show (gen plink st).bind _ = _
          rw [hr]
          rfl
    · rw [if_neg hspec] at hmem
      -- an item that the pattern does not specify is taken from `x`
      obtain ⟨elt, helt, rfl⟩ := List.mem_map.mp hmem
      cases elt with
      | none => exact absurd helt (hx m hm)
      | some xlink => exact ⟨.tree xlink, st, rfl⟩
  have hall : ∀ (sources : List (Source P)), (∀ source ∈ sources, ∀ st,
      ∃ patch st', sourcePatch gen source st = some (patch, st')) → ∀ st,
      ∃ patches st', sources.mapM (sourcePatch gen) st = some (patches, st') := by
    intro sources
    induction sources with
    | nil => exact fun _ st => ⟨[], st, rfl⟩
    | cons source sources ih =>
        intro h st
        obtain ⟨patch, st₁, hone⟩ := h source List.mem_cons_self st
        obtain ⟨patches, st₂, hrest⟩ := ih (fun s hs => h s (List.mem_cons_of_mem _ hs)) st₁
        refine ⟨patch :: patches, st₂, ?_⟩
        rw [List.mapM_cons]
        show (sourcePatch gen source st).bind _ = _
        rw [hone]
        show (sources.mapM (sourcePatch gen) st₁).bind _ = _
        rw [hrest]
        rfl
  obtain ⟨patches, st', hpatches⟩ := hall _ hsource st
  rw [expectedLayout_run, hpatches]
  rfl

/-- The layouts are the same up to the node used as template, for the items of a class. -/
structure SameLayout (c : C) (layout layout' : FreePatch C M L P R) : Prop where
  cls : layout.base.cls = layout'.base.cls
  items : ∀ m ∈ H.itemise c, itemChildren H layout.base m = itemChildren H layout'.base m
  terminii : layout.terminii = layout'.terminii
  childPatches : layout.childPatches = layout'.childPatches

omit [DecidableEq C] in
theorem expectedLayout_sameLayout (hsame : me.cls = x.cls) (st : σ) :
    Option.Rel (fun made made' => SameLayout H x.cls made.1 made'.1 ∧ made.2 = made'.2)
      (expectedLayout H gen me x me st) (expectedLayout H gen me x x st) := by
  obtain ⟨hcls, _, hchildren⟩ := foldl_fillItem H me x (H.itemise x.cls) me
  obtain ⟨hcls', _, hchildren'⟩ := foldl_fillItem H me x (H.itemise x.cls) x
  rw [expectedLayout_run, expectedLayout_run]
  cases ((H.itemise x.cls).flatMap (itemSources H me x)).mapM (sourcePatch gen) st with
  | none => exact Option.Rel.none
  | some made =>
      refine Option.Rel.some ⟨⟨hcls.trans (hsame.trans hcls'.symm), ?_, rfl, rfl⟩, rfl⟩
      intro m hm
      show itemChildren H (filled H me x me) m = itemChildren H (filled H me x x) m
      rw [show itemChildren H (filled H me x me) m = _ from hchildren m,
        show itemChildren H (filled H me x x) m = _ from hchildren' m, if_pos hm, if_pos hm]

/-! ## §7. The functions make it. -/

theorem usingX_eq (hme : H.Derives me.cls x.cls) :
    genReplaceLayoutOverlayUsingX H gen me x = expectedLayout H gen me x x :=
  overlayLoop_eq H gen me x x Relation.ReflTransGen.refl hme

theorem usingPattern_eq {specificIdentifier : C} (hsame : me.cls = x.cls)
    (hid : ¬ H.Derives specificIdentifier me.cls) :
    genReplaceLayoutOverlayUsingPattern H gen me x specificIdentifier
      = expectedLayout H gen me x me := by
  have hloop := overlayLoop_eq H gen me x me (hsame ▸ Relation.ReflTransGen.refl)
    (hsame ▸ Relation.ReflTransGen.refl)
  have hassert : H.isSubcategory specificIdentifier me.cls = false := by
    rw [← Bool.not_eq_true, ClassHierarchy.isSubcategory_iff]
    exact hid
  unfold genReplaceLayoutOverlayUsingPattern
  rw [hassert, hloop]
  rfl

/-- When `GenReplaceLayoutOverlayUsingPattern` returns, the assertion on identifiers holds. -/
theorem not_identifier_of_usingPattern {specificIdentifier : C} {st st' : σ}
    {layout : FreePatch C M L P R}
    (h : genReplaceLayoutOverlayUsingPattern H gen me x specificIdentifier st
      = some (layout, st')) : ¬ H.Derives specificIdentifier me.cls := by
  intro hid
  unfold genReplaceLayoutOverlayUsingPattern at h
  rw [ClassHierarchy.isSubcategory_iff.mpr hid] at h
  cases h

/-- The template of `GenReplaceLayoutOverlay`: the pattern's node when the types are the
same, and otherwise the input's. -/
def overlayTemplate : NodeObject C M L P := if me.cls = x.cls then me else x

theorem overlays_of_overlay {isFinal : C → Bool} {specificIdentifier : C} {st st' : σ}
    {layout : FreePatch C M L P R}
    (h : genReplaceLayoutOverlay H gen me x isFinal specificIdentifier st = some (layout, st')) :
    Overlays H gen me x (overlayTemplate me x) layout := by
  unfold genReplaceLayoutOverlay at h
  cases hfinal : isFinal x.cls with
  | false =>
      rw [hfinal] at h
      cases h
  | true =>
      cases hsub : H.isSubcategory me.cls x.cls with
      | false =>
          rw [hfinal, hsub] at h
          cases h
      | true =>
          rw [hfinal, hsub] at h
          -- the pattern's class is the final class of `x`, or a proper superclass
          have hme := ClassHierarchy.isSubcategory_iff.mp hsub
          unfold overlayTemplate
          cases hsame : H.isSubcategory x.cls me.cls with
          | true =>
              rw [hsame] at h
              have heq := ClassHierarchy.derives_antisymm hme
                (ClassHierarchy.isSubcategory_iff.mp hsame)
              have hid := not_identifier_of_usingPattern H gen me x h
              rw [if_pos heq]
              have hlayout := congrFun (usingPattern_eq H gen me x heq hid) st
              exact overlays_of_expectedLayout H gen me x (hlayout.symm.trans h)
          | false =>
              rw [hsame] at h
              have hne : me.cls ≠ x.cls := by
                intro heq
                rw [heq, ClassHierarchy.isSubcategory_iff.mpr Relation.ReflTransGen.refl] at hsame
                cases hsame
              rw [if_neg hne]
              have hlayout := congrFun (usingX_eq H gen me x hme) st
              exact overlays_of_expectedLayout H gen me x (hlayout.symm.trans h)

omit [DecidableEq C] in
/-- A free replace pattern is overlaid on itself. -/
theorem genReplaceLayoutNormal_eq {isFinal : C → Bool} (hfinal : isFinal me.cls = true) :
    genReplaceLayoutNormal H gen me isFinal = expectedLayout H gen me me me := by
  -- one item, with the pattern as its own input
  have hitem : ∀ m ∈ H.itemise me.cls, ∀ s : OverlayState C M L P R,
      normalItem H gen me s m
        = (do
            let children ← (itemSources H me me m).mapM (sourcePatch gen)
            pure { s.addSlots H me me m children with j := s.j }) := by
    intro m hm s
    unfold normalItem
    cases hk : H.kind m with
    | container =>
        have hsources : itemSources H me me m = (me.container m).map .pattern := by
          simp [itemSources, itemChildren, hk, Specifies, hm]
        have hlen : (me.container m).length = (itemSources H me me m).length := by
          rw [hsources, List.length_map]
        simp only [addElements_eq]
        rw [hlen]
        simp only [addPlaceholders_clear H me me hk]
        rw [hsources, List.mapM_map]
        rfl
    | singular =>
        cases hnull : me.singular m with
        | none =>
            -- a NULL one fails, as a pattern's child and as an input's
            have hsources : itemSources H me me m = [.input none] := by
              simp [itemSources, itemChildren, hk, Specifies, hnull]
            exact addSingular_eq H gen me me hk s hsources
        | some plink =>
            have hsources : itemSources H me me m = [.pattern (some plink)] := by
              simp [itemSources, itemChildren, hk, Specifies, hm, hnull]
            exact addSingular_eq H gen me me hk s hsources
  -- the loop over the items, with what it has put in so far
  have hrun : ∀ (items : List M), (∀ m ∈ items, m ∈ H.itemise me.cls) →
      ∀ s : OverlayState C M L P R, items.foldlM (normalItem H gen me) s
        = (do
            let children ← (items.flatMap (itemSlots H me me)).mapM
              (fun slot => sourcePatch gen slot.2)
            pure {
              base := items.foldl (fillItem H me me) s.base
              terminii := s.terminii ++ (items.flatMap (itemSlots H me me)).map Prod.fst
              childPatches := s.childPatches ++ children
              j := s.j }) := by
    intro items
    induction items with
    | nil =>
        intro _ s
        simp
    | cons m items ih =>
        intro hitems s
        rw [List.foldlM_cons, hitem m (hitems m List.mem_cons_self), ← itemSlots_mapM]
        simp only [bind_assoc, pure_bind,
          ih (fun a ha => hitems a (List.mem_cons_of_mem m ha)), List.flatMap_cons,
          List.mapM_append, List.map_append, List.foldl_cons]
        simp only [OverlayState.addSlots, List.append_assoc]
  unfold genReplaceLayoutNormal
  rw [hfinal]
  show (H.itemise me.cls).foldlM (normalItem H gen me) ⟨⟨me, [], []⟩, 0⟩
    >>= (fun s => pure s.toFreePatch) = _
  rw [hrun _ (fun _ hm => hm)]
  simp only [bind_assoc, pure_bind]
  rfl

/-- **Overlay replaces what the pattern specifies**, for an input node `x` of the pattern's
class or of one that derives from it.  On either template the layout is the one that the
pattern asks for; with no NULL to trip over it is made; and where both functions apply they
differ in the template alone. -/
theorem overlay_exact (isFinal : C → Bool) (specificIdentifier : C)
    (hme : H.Derives me.cls x.cls) :
    (∀ st layout st', genReplaceLayoutOverlayUsingX H gen me x st = some (layout, st') →
      Overlays H gen me x x layout)
    ∧ (me.cls = x.cls → ∀ st layout st',
      genReplaceLayoutOverlayUsingPattern H gen me x specificIdentifier st = some (layout, st') →
        Overlays H gen me x me layout)
    ∧ (∀ bottomLayer key st layout st',
      bottomLayer = some x ∨ bottomLayer = none ∧ key = some x →
      genReplaceLayoutImpl H gen me isFinal specificIdentifier bottomLayer key st
        = some (layout, st') →
        ∃ template, (template = x ∨ template = me ∧ me.cls = x.cls)
          ∧ Overlays H gen me x template layout)
    ∧ (NoNulls H x (H.itemise x.cls) →
      (∀ m ∈ H.itemise me.cls, H.kind m = .container → none ∉ me.container m) →
      (∀ plink st, (gen plink st).isSome) →
        (∀ st, (genReplaceLayoutOverlayUsingX H gen me x st).isSome)
        ∧ (me.cls = x.cls → ¬ H.Derives specificIdentifier me.cls → ∀ st,
          (genReplaceLayoutOverlayUsingPattern H gen me x specificIdentifier st).isSome))
    ∧ (me.cls = x.cls → ¬ H.Derives specificIdentifier me.cls → ∀ st,
      Option.Rel (fun made made' => SameLayout H x.cls made.1 made'.1 ∧ made.2 = made'.2)
        (genReplaceLayoutOverlayUsingPattern H gen me x specificIdentifier st)
        (genReplaceLayoutOverlayUsingX H gen me x st)) := by
  -- over `x` the layout is the expected one, whatever the node
  have hX := usingX_eq H gen me x hme
  refine ⟨?_, ?_, ?_, ?_, ?_⟩
  · intro st layout st' h
    rw [hX] at h
    exact overlays_of_expectedLayout H gen me x h
  · -- over the pattern it is, as no identifier gets there
    intro hsame st layout st' h
    have hid := not_identifier_of_usingPattern H gen me x h
    rw [usingPattern_eq H gen me x hsame hid] at h
    exact overlays_of_expectedLayout H gen me x h
  · -- the overlay is on `x`, as the layer below or as the key
    intro bottomLayer key st layout st' hkeyed h
    rcases hkeyed with rfl | ⟨rfl, rfl⟩
    · refine ⟨overlayTemplate me x, ?_, overlays_of_overlay H gen me x h⟩
      unfold overlayTemplate
      by_cases hsame : me.cls = x.cls
      · exact Or.inr ⟨if_pos hsame, hsame⟩
      · exact Or.inl (if_neg hsame)
    · refine ⟨x, Or.inl rfl, ?_⟩
      have hlayout := congrFun hX st
      exact overlays_of_expectedLayout H gen me x (hlayout.symm.trans h)
  · intro hx hmeNulls hgen
    constructor
    · intro st
      rw [hX]
      exact expectedLayout_isSome H gen me x x hx hmeNulls hgen st
    · intro hsame hid st
      rw [usingPattern_eq H gen me x hsame hid]
      exact expectedLayout_isSome H gen me x me hx hmeNulls hgen st
  · -- the templates differ, the slots do not
    intro hsame hid st
    rw [hX, usingPattern_eq H gen me x hsame hid]
    exact expectedLayout_sameLayout H gen me x hsame st

end

/-- A `Record` with two members and no identifier, over an `InheritanceRecord`. -/
def recordOverlay :
    NodeObject NodeClass NodeMember Unit Nat × NodeObject NodeClass NodeMember Unit Nat :=
  (⟨.record, (), fun _ => none, fun m => if m = .declScopeMembers then [some 1, some 2] else []⟩,
   ⟨.inheritanceRecord, (), fun m => if m = .typeDeclarationIdentifier then some 10 else none,
    fun m => if m = .declScopeMembers then [some 11] else [some 12, some 13]⟩)

theorem overlay_exact_record :
    ((genReplaceLayoutOverlayUsingX infernoClasses (fun p => pure (p + 100)) recordOverlay.1
        recordOverlay.2 : StateT Unit Option _) ()).map (fun made => made.1.childPatches)
      = some [.tree 10, .layout 101, .layout 102, .tree 12, .tree 13]
    ∧ ∀ layout st', (genReplaceLayoutOverlayUsingX infernoClasses (fun p => pure (p + 100))
        recordOverlay.1 recordOverlay.2 : StateT Unit Option _) () = some (layout, st') →
      Overlays infernoClasses (fun p => (pure (p + 100) : StateT Unit Option Nat)) recordOverlay.1
        recordOverlay.2 recordOverlay.2 layout :=
  ⟨by decide, (overlay_exact infernoClasses _ recordOverlay.1 recordOverlay.2 (fun _ => true)
    .specificIdentifier (ClassHierarchy.isSubcategory_iff.mp (by decide))).1 ()⟩

end Inferno.Agents
