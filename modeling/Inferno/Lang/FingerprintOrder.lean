/-
  Inferno.Lang.FingerprintOrder
  ─────────────────────────────
  When the nodes by fingerprint are in an order in which designations can be used.

    • `Ordered`          — every node reached has a child's index below all its own,
    • `Walked`           — what a part of the walk leaves behind,
    • `processNode_walked` — a walk whose replays are apart keeps the order,
    • `DesignationsPrecede` — the nodes below a node come strictly before it,
    • `designations_precede_of_apart`, and a pattern where they do not.
-/
import Inferno.Lang.Fingerprinter
import Inferno.Lib.FoldM
import Mathlib.Logic.Relation

namespace Inferno.Lang

open Inferno.Common
open Inferno.DB
open Inferno.Helpers
open Inferno.Lib

section

variable {N : Type} [LinearOrder N] (g : PatternNodes N)

namespace PatternNodes

/-! ## §1. The nodes below a node. -/

/-- `y` is a child of `x`. -/
def Child (y x : N) : Prop := y ∈ g.children x

/-- `z` is `x` or below it. -/
def Below (z x : N) : Prop := Relation.ReflTransGen g.Child z x

omit [LinearOrder N] in
theorem mem_children {x y : N} :
    y ∈ g.children x ↔ ∃ item ∈ g.itemise x, some y ∈ item.links := by
  unfold children
  simp [List.mem_filterMap, List.mem_flatMap]

omit [LinearOrder N] in
theorem height_of_child {x y : N} (h : g.Child y x) : g.height y < g.height x := by
  obtain ⟨item, hitem, hy⟩ := g.mem_children.mp h
  exact g.height_lt x item hitem y hy

omit [LinearOrder N] in
theorem height_of_below {x z : N} (h : g.Below z x) : g.height z ≤ g.height x := by
  induction h with
  | refl => exact Nat.le_refl _
  | tail _ hchild ih => exact Nat.le_trans ih (Nat.le_of_lt (g.height_of_child hchild))

theorem mem_subtreeTo (depth : Nat) : ∀ {x z : N}, g.height x ≤ depth →
    (z ∈ g.subtreeTo depth x ↔ g.Below z x) := by
  induction depth with
  | zero =>
      intro x z hx
      show z ∈ ({x} : Finset N) ↔ _
      rw [Finset.mem_singleton]
      constructor
      · intro h
        rw [h]
        exact Relation.ReflTransGen.refl
      · intro h
        cases h with
        | refl => rfl
        | tail _ hchild =>
            have hlt := g.height_of_child hchild
            omega
  | succ depth ih =>
      intro x z hx
      show z ∈ insert x ((g.children x).toFinset.biUnion (g.subtreeTo depth)) ↔ _
      rw [Finset.mem_insert, Finset.mem_biUnion]
      -- below the node, or below one of its children, which are lower
      have hlow : ∀ y, y ∈ g.children x → g.height y ≤ depth := by
        intro y hy
        have hlt := g.height_of_child hy
        omega
      constructor
      · rintro (h | ⟨y, hy, hz⟩)
        · rw [h]
          exact Relation.ReflTransGen.refl
        · have hy' : y ∈ g.children x := List.mem_toFinset.mp hy
          exact ((ih (hlow y hy')).mp hz).tail hy'
      · intro h
        cases h with
        | refl => exact Or.inl rfl
        | tail hz hchild =>
            exact Or.inr ⟨_, List.mem_toFinset.mpr hchild, (ih (hlow _ hchild)).mpr hz⟩

/-- **What the subtree of a node holds.** -/
theorem mem_subtree {x z : N} : z ∈ g.subtree x ↔ g.Below z x :=
  g.mem_subtreeTo (g.height x) (Nat.le_refl _)

theorem mem_subtree_self (x : N) : x ∈ g.subtree x :=
  g.mem_subtree.mpr Relation.ReflTransGen.refl

theorem subtree_subset {x y : N} (h : g.Child y x) : g.subtree y ⊆ g.subtree x := by
  intro z hz
  exact g.mem_subtree.mpr ((g.mem_subtree.mp hz).tail h)

/-- The items gone through point to the children, whatever the node is. -/
theorem mem_childItems {x y : N} :
    y ∈ ((g.childItems x).flatMap Item.links).filterMap id ↔ g.Child y x := by
  unfold Child children childItems
  cases he : g.embedded x with
  | none => rfl
  | some e =>
      have hlinks := g.embedded_links x e he (some y)
      by_cases heq : e.searchPattern = e.replacePattern
      · simp only [heq, if_true]
        rw [List.mem_filterMap, List.mem_filterMap]
        simp only [id_eq, exists_eq_right]
        rw [hlinks, heq]
        simp only [List.flatMap_cons, List.flatMap_nil, Item.links, List.append_nil,
          List.singleton_append, List.mem_cons, List.not_mem_nil, or_false]
        tauto
      · simp only [heq, if_false]

/-! ## §2. Indices in order. -/

/-- Every child of a node reached has an index below all of the node's. -/
structure Ordered (st : Fingerprints N) : Prop where
  closed : ∀ x ∈ st.fingerprints.keys, ∀ y, g.Child y x → y ∈ st.fingerprints.keys
  lower : ∀ x ∈ st.fingerprints.keys, ∀ y, g.Child y x → ∃ i ∈ st.of y, ∀ j ∈ st.of x, i < j
  nonempty : ∀ x ∈ st.fingerprints.keys, (st.of x).Nonempty

/-- The nodes of `T` with children, as far as reached, have an index below `i`. -/
def Seen (st : Fingerprints N) (T : Finset N) (i : Int) : Prop :=
  ∀ z ∈ T, z ∈ st.fingerprints.keys → g.children z ≠ [] → ∃ j ∈ st.of z, j < i

/-- What the walk of `xs` leaves behind. -/
structure Walked (st st' : Fingerprints N) (xs : List N) : Prop where
  ordered : g.Ordered st'
  le : st.index ≤ st'.index
  keys : ∀ z, z ∈ st'.fingerprints.keys ↔
    z ∈ st.fingerprints.keys ∨ ∃ x ∈ xs, z ∈ g.subtree x
  grow : ∀ z, st.of z ⊆ st'.of z
  fresh : ∀ z ∈ st'.fingerprints.keys, z ∉ st.fingerprints.keys →
    ∃ j ∈ st'.of z, j < st'.index
  entered : ∀ x ∈ xs, ∃ j ∈ st'.of x, j < st'.index

variable {g}

omit [LinearOrder N] in
theorem Ordered.below {st : Fingerprints N} (h : g.Ordered st) {x z : N}
    (hx : x ∈ st.fingerprints.keys) (hz : g.Below z x) : z ∈ st.fingerprints.keys := by
  induction hz using Relation.ReflTransGen.head_induction_on with
  | refl => exact hx
  | head hchild _ ih => exact h.closed _ ih _ hchild

theorem Walked.nil {st : Fingerprints N} (h : g.Ordered st) : g.Walked st st [] where
  ordered := h
  le := Int.le_refl _
  keys z := by simp
  grow z := Finset.Subset.refl _
  fresh z hz hno := absurd hz hno
  entered x hx := absurd hx (by simp)

/-- One part after the other. -/
theorem Walked.append {st st₁ st' : Fingerprints N} {xs ys : List N}
    (h : g.Walked st st₁ xs) (h' : g.Walked st₁ st' ys) : g.Walked st st' (xs ++ ys) where
  ordered := h'.ordered
  le := Int.le_trans h.le h'.le
  keys z := by
    rw [h'.keys z, h.keys z]
    simp only [List.mem_append, or_and_right, exists_or, or_assoc]
  grow z := (h.grow z).trans (h'.grow z)
  fresh z hz hno := by
    by_cases hz₁ : z ∈ st₁.fingerprints.keys
    · obtain ⟨j, hj, hlt⟩ := h.fresh z hz₁ hno
      exact ⟨j, h'.grow z hj, Int.lt_of_lt_of_le hlt h'.le⟩
    · exact h'.fresh z hz hz₁
  entered x hx := by
    rcases List.mem_append.mp hx with hx | hx
    · obtain ⟨j, hj, hlt⟩ := h.entered x hx
      exact ⟨j, h'.grow x hj, Int.lt_of_lt_of_le hlt h'.le⟩
    · exact h'.entered x hx

/-- The order of the nodes does not matter. -/
theorem Walked.congr {st st' : Fingerprints N} {xs ys : List N} (h : g.Walked st st' xs)
    (hmem : ∀ x, x ∈ ys ↔ x ∈ xs) : g.Walked st st' ys where
  ordered := h.ordered
  le := h.le
  keys z := by
    rw [h.keys z]
    simp only [hmem]
  grow := h.grow
  fresh := h.fresh
  entered x hx := h.entered x ((hmem x).mp hx)

/-- What was seen stays seen. -/
theorem Walked.seen {st st' : Fingerprints N} {xs : List N} (h : g.Walked st st' xs)
    {T : Finset N} (hseen : g.Seen st T st.index) : g.Seen st' T st'.index := by
  intro z hz hkey hchildren
  by_cases hold : z ∈ st.fingerprints.keys
  · obtain ⟨j, hj, hlt⟩ := hseen z hz hold hchildren
    exact ⟨j, h.grow z hj, Int.lt_of_lt_of_le hlt h.le⟩
  · exact h.fresh z hkey hold

theorem of_enter (st : Fingerprints N) (x z : N) :
    (st.enter x).of z = if z = x then insert st.index (st.of x) else st.of z := by
  unfold Fingerprints.enter Fingerprints.of
  rw [StdMap.lookup_set]
  split
  · rfl
  · rfl

omit [LinearOrder N] in
theorem of_notMem {st : Fingerprints N} {x : N} (h : x ∉ st.fingerprints.keys) :
    st.of x = ∅ := by
  unfold Fingerprints.of
  rw [StdMap.lookup_eq_none.mpr h]
  rfl

/-- **A node is entered after its children**: the step that keeps the order. -/
theorem Walked.enter {st st₁ : Fingerprints N} {cs : List N} {x : N}
    (h : g.Walked st st₁ cs) (hcs : ∀ c ∈ cs, g.Child c x)
    (hkeys : ∀ y, g.Child y x → y ∈ st₁.fingerprints.keys)
    (hlower : ∀ y, g.Child y x → ∃ i ∈ st₁.of y, (∀ j ∈ st₁.of x, i < j) ∧ i < st₁.index) :
    g.Walked st (st₁.enter x) [x] := by
  have hself : (st₁.enter x).of x = insert st₁.index (st₁.of x) := by
    rw [of_enter, if_pos rfl]
  have hother : ∀ z, z ≠ x → (st₁.enter x).of z = st₁.of z := by
    intro z hz
    rw [of_enter, if_neg hz]
  have hgrow : ∀ z, st₁.of z ⊆ (st₁.enter x).of z := by
    intro z
    by_cases hz : z = x
    · rw [hz, hself]
      exact Finset.subset_insert _ _
    · rw [hother z hz]
  have hmem : ∀ z, z ∈ (st₁.enter x).fingerprints.keys ↔
      z = x ∨ z ∈ st₁.fingerprints.keys := fun z => Finset.mem_insert
  have hindex : (st₁.enter x).index = st₁.index + 1 := rfl
  constructor
  · constructor
    · intro p hp y hy
      rw [hmem]
      rcases (hmem p).mp hp with hpx | hp
      · rw [hpx] at hy
        exact Or.inr (hkeys y hy)
      · exact Or.inr (h.ordered.closed p hp y hy)
    · -- only `x` has a new index, and its children have a smaller one already
      intro p hp y hy
      by_cases hpx : p = x
      · rw [hpx] at hy
        obtain ⟨i, hi, hbelow, hlt⟩ := hlower y hy
        refine ⟨i, hgrow y hi, fun j hj => ?_⟩
        rw [hpx, hself, Finset.mem_insert] at hj
        rcases hj with hj | hj
        · omega
        · exact hbelow j hj
      · have hp' := ((hmem p).mp hp).resolve_left hpx
        obtain ⟨i, hi, hbelow⟩ := h.ordered.lower p hp' y hy
        refine ⟨i, hgrow y hi, fun j hj => ?_⟩
        rw [hother p hpx] at hj
        exact hbelow j hj
    · intro p hp
      by_cases hpx : p = x
      · rw [hpx, hself]
        exact ⟨st₁.index, Finset.mem_insert_self _ _⟩
      · exact (h.ordered.nonempty p (((hmem p).mp hp).resolve_left hpx)).mono (hgrow p)
  · have hle := h.le
    omega
  · -- the keys are those below `x`, which are below a child or `x` itself
    intro z
    rw [hmem, h.keys z]
    simp only [List.mem_singleton, exists_eq_left]
    constructor
    · rintro (hz | hz | ⟨c, hc, hz⟩)
      · rw [hz]
        exact Or.inr (g.mem_subtree_self x)
      · exact Or.inl hz
      · exact Or.inr (g.subtree_subset (hcs c hc) hz)
    · rintro (hz | hz)
      · exact Or.inr (Or.inl hz)
      · -- below `x`, and so below a child
        cases g.mem_subtree.mp hz with
        | refl => exact Or.inl rfl
        | tail hz hchild =>
            exact Or.inr ((h.keys z).mp (h.ordered.below (hkeys _ hchild) hz))
  · intro z
    exact (h.grow z).trans (hgrow z)
  · -- the entry is fresh: it takes the current index
    intro z hz hno
    by_cases hzx : z = x
    · rw [hzx, hself]
      exact ⟨st₁.index, Finset.mem_insert_self _ _, by omega⟩
    · obtain ⟨j, hj, hlt⟩ := h.fresh z (((hmem z).mp hz).resolve_left hzx) hno
      exact ⟨j, hgrow z hj, by omega⟩
  · intro y hy
    rw [List.mem_singleton.mp hy, hself]
    exact ⟨st₁.index, Finset.mem_insert_self _ _, by omega⟩

/-- A part walked from an earlier index, and the index put back with as much added. -/
theorem Walked.replay {st st₁ : Fingerprints N} {xs : List N} {i : Int} (hi : i ≤ st.index)
    (h : g.Walked { st with index := i } st₁ xs) :
    g.Walked st { st₁ with index := st.index + (st₁.index - i) } xs where
  ordered := ⟨h.ordered.closed, h.ordered.lower, h.ordered.nonempty⟩
  le := by
    have hle : i ≤ st₁.index := h.le
    show st.index ≤ st.index + (st₁.index - i)
    omega
  keys := h.keys
  grow := h.grow
  fresh z hz hno := by
    obtain ⟨j, hj, hlt⟩ := h.fresh z hz hno
    refine ⟨j, hj, ?_⟩
    show j < st.index + (st₁.index - i)
    omega
  entered x hx := by
    obtain ⟨j, hj, hlt⟩ := h.entered x hx
    refine ⟨j, hj, ?_⟩
    show j < st.index + (st₁.index - i)
    omega

theorem Walked.keys_single {st st' : Fingerprints N} {x : N} (h : g.Walked st st' [x]) :
    st'.fingerprints.keys = st.fingerprints.keys ∪ g.subtree x := by
  ext z
  rw [h.keys z, Finset.mem_union]
  simp

/-! ## §3. The walk. -/

/-- What is asked of the walk of single nodes. -/
def NodeWalks (g : PatternNodes N) (node : N → Fingerprints N → Option (Fingerprints N))
    (apart : Finset N → N → Bool) (S : N → Prop) : Prop :=
  ∀ x st, S x → g.Ordered st → g.Seen st (g.subtree x) st.index →
    apart st.fingerprints.keys x = true → ∃ st', node x st = some st' ∧ g.Walked st st' [x]

section

variable {node : N → Fingerprints N → Option (Fingerprints N)} {apart : Finset N → N → Bool}
  {S : N → Prop} (hnode : NodeWalks g node apart S) {T : Finset N}

include hnode

/-- The elements of a sequence, one after the other. -/
theorem sequence_walked (xs : List N) : ∀ {st : Fingerprints N}, (∀ x ∈ xs, S x) →
    (∀ x ∈ xs, g.subtree x ⊆ T) → g.Ordered st → g.Seen st T st.index →
    g.apartSequence apart st.fingerprints.keys xs = true →
    ∃ st', xs.foldlM (fun st x => node x st) st = some st' ∧ g.Walked st st' xs := by
  induction xs with
  | nil =>
      intro st _ _ hord _ _
      exact ⟨st, rfl, Walked.nil hord⟩
  | cons x xs ih =>
      intro st hS hT hord hseen hapart
      unfold apartSequence at hapart
      rw [Bool.and_eq_true] at hapart
      obtain ⟨st₁, hrun, hwalk⟩ := hnode x st (hS x List.mem_cons_self) hord
        (fun z hz => hseen z (hT x List.mem_cons_self hz)) hapart.1
      obtain ⟨st', hrest, hwalk'⟩ := ih (fun y hy => hS y (List.mem_cons_of_mem x hy))
        (fun y hy => hT y (List.mem_cons_of_mem x hy)) hwalk.ordered (hwalk.seen hseen)
        (by rw [hwalk.keys_single]; exact hapart.2)
      exact ⟨st', foldlM_cons_eq_some.mpr ⟨st₁, hrun, hrest⟩, hwalk.append hwalk'⟩

/-- **The elements of a collection**, by induction on the ordering.  While elements compare
equal, what `start` holds has an index below the one they are replayed from. -/
theorem ordering_walked {xs : List N} : ∀ (run : CollectionRun N) (start : Finset N),
    (∀ x ∈ xs, S x) → (∀ x ∈ xs, g.subtree x ⊆ T) → g.Ordered run.state →
    g.Seen run.state T run.state.index →
    (run.prevX ≠ none → run.prevStartIndex ≤ run.state.index ∧
      ∀ z ∈ T, z ∈ start → g.children z ≠ [] → ∃ j ∈ run.state.of z, j < run.prevStartIndex) →
    g.apartOrdering apart run.prevX start run.state.fingerprints.keys xs = true →
    ∃ run', xs.foldlM (g.processElement node) run = some run' ∧
      g.Walked run.state run'.state xs := by
  induction xs with
  | nil =>
      intro run start _ _ hord _ _ _
      exact ⟨run, rfl, Walked.nil hord⟩
  | cons x xs ih =>
      intro run start hS hT hord hseen hstart hapart
      have hTx := hT x List.mem_cons_self
      unfold apartOrdering at hapart
      by_cases hreplay : g.isReplay run.prevX x = true
      · -- the walk starts again where the run started
        rw [if_pos hreplay, Bool.and_eq_true, Bool.and_eq_true, decide_eq_true_eq] at hapart
        obtain ⟨⟨hmeets, hapart⟩, hrest⟩ := hapart
        have hprev : run.prevX ≠ none := by
          intro hnone
          rw [hnone] at hreplay
          exact absurd hreplay (by simp [isReplay])
        obtain ⟨hle, hbefore⟩ := hstart hprev
        obtain ⟨st₁, hrun, hwalk⟩ := hnode x { run.state with index := run.prevStartIndex }
          (hS x List.mem_cons_self) ⟨hord.closed, hord.lower, hord.nonempty⟩
          (fun z hz hkey hchildren =>
            hbefore z (hTx hz) (hmeets z hz hchildren hkey) hchildren) hapart
        have hwalk₁ := Walked.replay hle hwalk
        have hstep : g.processElement node run x
            = some ⟨{ st₁ with index := run.state.index + (st₁.index - run.prevStartIndex) },
                some x, run.prevStartIndex⟩ := by
          unfold processElement
          rw [if_pos hreplay]
          show (node x { run.state with index := run.prevStartIndex }).bind _ = _
          rw [hrun]
          rfl
        obtain ⟨run', hfold, hwalk'⟩ := ih
          ⟨{ st₁ with index := run.state.index + (st₁.index - run.prevStartIndex) },
            some x, run.prevStartIndex⟩ start
          (fun y hy => hS y (List.mem_cons_of_mem x hy))
          (fun y hy => hT y (List.mem_cons_of_mem x hy)) hwalk₁.ordered (hwalk₁.seen hseen)
          (fun _ => by
            refine ⟨Int.le_trans hle hwalk₁.le, fun z hz hzstart hchildren => ?_⟩
            obtain ⟨j, hj, hlt⟩ := hbefore z hz hzstart hchildren
            exact ⟨j, hwalk₁.grow z hj, hlt⟩)
          (by rw [hwalk₁.keys_single]; exact hrest)
        exact ⟨run', foldlM_cons_eq_some.mpr ⟨_, hstep, hfold⟩, hwalk₁.append hwalk'⟩
      · -- no replay: the element is walked from where the state stands
        rw [if_neg hreplay, Bool.and_eq_true] at hapart
        obtain ⟨st₁, hrun, hwalk⟩ := hnode x run.state (hS x List.mem_cons_self) hord
          (fun z hz => hseen z (hTx hz)) hapart.1
        have hstep : g.processElement node run x
            = some ⟨st₁, some x, run.state.index⟩ := by
          unfold processElement
          rw [if_neg hreplay, hrun]
          rfl
        obtain ⟨run', hfold, hwalk'⟩ := ih ⟨st₁, some x, run.state.index⟩
          run.state.fingerprints.keys
          (fun y hy => hS y (List.mem_cons_of_mem x hy))
          (fun y hy => hT y (List.mem_cons_of_mem x hy)) hwalk.ordered (hwalk.seen hseen)
          -- and the next element is replayed from the index before it, if at all
          (fun _ => by
            refine ⟨hwalk.le, fun z hz hold hchildren => ?_⟩
            obtain ⟨j, hj, hlt⟩ := hseen z hz hold hchildren
            exact ⟨j, hwalk.grow z hj, hlt⟩)
          (by rw [hwalk.keys_single]; exact hapart.2)
        exact ⟨run', foldlM_cons_eq_some.mpr ⟨_, hstep, hfold⟩, hwalk.append hwalk'⟩

/-- One item. -/
theorem item_walked {item : Item (Option N)} {st : Fingerprints N}
    (hnull : ∀ p ∈ item.links, item ≠ .singular p → p ≠ none)
    (hS : ∀ x ∈ item.links.filterMap id, S x)
    (hT : ∀ x ∈ item.links.filterMap id, g.subtree x ⊆ T) (hord : g.Ordered st)
    (hseen : g.Seen st T st.index)
    (hapart : g.apartItem apart st.fingerprints.keys item = true) :
    ∃ st', g.processItem node st item = some st' ∧
      g.Walked st st' (item.links.filterMap id) := by
  -- nothing NULL outside the singular items, so every link is walked
  have hmapM : ∀ ps : List (Option N), (∀ p ∈ ps, p ≠ none) →
      ps.mapM id = some (ps.filterMap id) := by
    intro ps hps
    rw [mapM_eq_filterMap, if_pos]
    intro p hp
    exact Option.isSome_iff_ne_none.mpr (hps p hp)
  cases item with
  | singular p =>
      cases p with
      | none => exact ⟨st, rfl, Walked.nil hord⟩
      | some x =>
          obtain ⟨st', hrun, hwalk⟩ := sequence_walked hnode [x] hS hT hord hseen hapart
          obtain ⟨st₁, hstep, hnil⟩ := foldlM_cons_eq_some.mp hrun
          cases hnil
          exact ⟨st', hstep, hwalk⟩
  | sequence ps =>
      obtain ⟨st', hrun, hwalk⟩ := sequence_walked hnode _ hS hT hord hseen hapart
      refine ⟨st', ?_, hwalk⟩
      show (ps.mapM id).bind _ = _
      rw [hmapM ps fun p hp => hnull p hp (by simp)]
      exact hrun
  | collection ps =>
      -- a collection is walked in the order of the comparer, with replays
      have hmem : ∀ x, x ∈ multisetOf g.comparer (ps.filterMap id) ↔ x ∈ ps.filterMap id :=
        fun x => mem_multisetOf
      obtain ⟨run', hrun, hwalk⟩ := ordering_walked hnode ⟨st, none, 0⟩ ∅
        (fun x hx => hS x ((hmem x).mp hx)) (fun x hx => hT x ((hmem x).mp hx)) hord hseen
        (fun h => absurd rfl h) hapart
      refine ⟨run'.state, ?_, hwalk.congr fun x => (hmem x).symm⟩
      show (ps.mapM id).bind _ = _
      rw [hmapM ps fun p hp => hnull p hp (by simp)]
      show Option.bind ((multisetOf g.comparer (ps.filterMap id)).foldlM _ _) _ = _
      rw [hrun]
      rfl

/-- The items of a node. -/
theorem items_walked {items : List (Item (Option N))} : ∀ {st : Fingerprints N},
    (∀ item ∈ items, ∀ p ∈ item.links, item ≠ .singular p → p ≠ none) →
    (∀ x ∈ (items.flatMap Item.links).filterMap id, S x) →
    (∀ x ∈ (items.flatMap Item.links).filterMap id, g.subtree x ⊆ T) → g.Ordered st →
    g.Seen st T st.index → g.apartItems apart st.fingerprints.keys items = true →
    ∃ st', items.foldlM (g.processItem node) st = some st' ∧
      g.Walked st st' ((items.flatMap Item.links).filterMap id) := by
  induction items with
  | nil =>
      intro st _ _ _ hord _ _
      exact ⟨st, rfl, Walked.nil hord⟩
  | cons item items ih =>
      intro st hnull hS hT hord hseen hapart
      rw [List.flatMap_cons, List.filterMap_append] at hS hT ⊢
      unfold apartItems at hapart
      rw [Bool.and_eq_true] at hapart
      obtain ⟨st₁, hrun, hwalk⟩ := item_walked hnode (hnull item List.mem_cons_self)
        (fun x hx => hS x (List.mem_append_left _ hx))
        (fun x hx => hT x (List.mem_append_left _ hx)) hord hseen hapart.1
      -- the item has put the subtrees of its links into the map
      have hkeys : st₁.fingerprints.keys
          = st.fingerprints.keys ∪ (item.links.filterMap id).toFinset.biUnion g.subtree := by
        ext z
        rw [hwalk.keys z, Finset.mem_union, Finset.mem_biUnion]
        simp only [List.mem_toFinset]
      obtain ⟨st', hrest, hwalk'⟩ := ih
        (fun i hi => hnull i (List.mem_cons_of_mem item hi))
        (fun x hx => hS x (List.mem_append_right _ hx))
        (fun x hx => hT x (List.mem_append_right _ hx)) hwalk.ordered (hwalk.seen hseen)
        (by rw [hkeys]; exact hapart.2)
      exact ⟨st', foldlM_cons_eq_some.mpr ⟨st₁, hrun, hrest⟩, hwalk.append hwalk'⟩

end

/-- Containers among the items gone through hold no NULL. -/
theorem childItems_nonnull (g : PatternNodes N) (x : N) :
    ∀ item ∈ g.childItems x, ∀ p ∈ item.links, item ≠ .singular p → p ≠ none := by
  unfold childItems
  cases g.embedded x with
  | none => exact g.container_nonnull x
  | some e =>
      by_cases heq : e.searchPattern = e.replacePattern
      · simp only [heq, if_true]
        intro item hitem p hp hne
        simp only [List.mem_cons, List.not_mem_nil, or_false] at hitem
        rcases hitem with rfl | rfl
        · exact absurd (congrArg Item.singular (List.mem_singleton.mp hp).symm) hne
        · exact absurd (congrArg Item.singular (List.mem_singleton.mp hp).symm) hne
      · simp only [heq, if_false]
        exact g.container_nonnull x

/-- **The walk keeps the order where replays are apart**, by induction on the depth. -/
theorem processNode_walked (depth : Nat) :
    NodeWalks g (g.processNode depth) (g.apartNode depth) (fun x => g.height x < depth) := by
  induction depth with
  | zero =>
      intro x st hx
      exact absurd hx (Nat.not_lt_zero _)
  | succ depth ih =>
      intro x st hx hord hseen hapart
      by_cases hkey : x ∈ st.fingerprints.keys
      · -- reached before: what it has below is not walked again
        have hrun : g.processNode (depth + 1) x st = some (st.enter x) := by
          unfold processNode
          rw [if_pos hkey]
          rfl
        refine ⟨st.enter x, hrun, (Walked.nil hord).enter (by simp) (hord.closed x hkey) ?_⟩
        intro y hy
        obtain ⟨i, hi, hbelow⟩ := hord.lower x hkey y hy
        obtain ⟨j, hj, hlt⟩ := hseen x (g.mem_subtree_self x) hkey (List.ne_nil_of_mem hy)
        exact ⟨i, hi, hbelow, Int.lt_trans (hbelow j hj) hlt⟩
      · -- a new node: its children first
        have hchild : ∀ y, y ∈ ((g.childItems x).flatMap Item.links).filterMap id ↔ g.Child y x :=
          fun y => g.mem_childItems
        have hitems : g.apartItems (g.apartNode depth) st.fingerprints.keys (g.childItems x)
            = true := by
          unfold apartNode at hapart
          rw [Bool.or_eq_true, decide_eq_true_eq] at hapart
          exact hapart.resolve_left hkey
        obtain ⟨st₁, hfold, hwalk⟩ := items_walked ih (childItems_nonnull g x)
          (fun y hy => by
            have hlt := g.height_of_child ((hchild y).mp hy)
            omega)
          (fun y hy => g.subtree_subset ((hchild y).mp hy)) hord hseen hitems
        have hrun : g.processNode (depth + 1) x st = some (st₁.enter x) := by
          unfold processNode
          rw [if_neg hkey]
          show Option.bind ((g.childItems x).foldlM _ st) _ = _
          rw [hfold]
          rfl
        -- the node is not below its own children, so it has no index yet
        have hnew : x ∉ st₁.fingerprints.keys := by
          intro hmem
          rcases (hwalk.keys x).mp hmem with h | ⟨y, hy, h⟩
          · exact hkey h
          · have hlt := g.height_of_child ((hchild y).mp hy)
            have hle := g.height_of_below (g.mem_subtree.mp h)
            omega
        refine ⟨st₁.enter x, hrun, hwalk.enter (fun y hy => (hchild y).mp hy) ?_ ?_⟩
        · intro y hy
          exact (hwalk.keys y).mpr (Or.inr ⟨y, (hchild y).mpr hy, g.mem_subtree_self y⟩)
        · -- the children were entered by this walk, and so below the current index
          intro y hy
          obtain ⟨i, hi, hlt⟩ := hwalk.entered y ((hchild y).mpr hy)
          refine ⟨i, hi, fun j hj => ?_, hlt⟩
          rw [of_notMem hnew] at hj
          exact absurd hj (Finset.notMem_empty j)

/-! ## §4. The order of the nodes. -/

/-- `y` is in a set of nodes that comes strictly before that of `x`. -/
def StrictlyBefore (sets : List (Finset Int × List N)) (y x : N) : Prop :=
  ∃ (i j : Nat) (p q : Finset Int × List N), i < j ∧ sets[i]? = some p ∧ sets[j]? = some q ∧
    y ∈ p.2 ∧ x ∈ q.2

/-- **Designations precede their uses**: the walk returns, every node comes strictly after
the nodes below it, and of the nodes that are designated none has one after it below. -/
def DesignationsPrecede (g : PatternNodes N) (context : N) : Prop :=
  ∃ sets, g.getNodesInTreeByFingerprint context = some sets ∧
    (∀ x ∈ g.subtree context, ∀ y ∈ g.subtree x, y ≠ x → StrictlyBefore sets y x) ∧
    ∀ (policy : Policy N) (cx : Context N),
      (nodesInDfpo policy cx sets).Pairwise fun a b => b ∈ g.subtree a → b = a

/-- A lower first index comes first. -/
theorem inOrder_lt {A B : Finset Int} (hB : B.Nonempty) (h : ∃ i ∈ A, ∀ j ∈ B, i < j) :
    inOrder A < inOrder B := by
  obtain ⟨i, hi, hlow⟩ := h
  have hApairs := inOrder_pairwise A
  have hBmem : ∀ j, j ∈ inOrder B ↔ j ∈ B := fun j => mem_inOrder
  have hAmem : i ∈ inOrder A := mem_inOrder.mpr hi
  cases hA' : inOrder A with
  | nil =>
      rw [hA'] at hAmem
      exact absurd hAmem (by simp)
  | cons a as =>
      cases hB' : inOrder B with
      | nil =>
          obtain ⟨j, hj⟩ := hB
          have hj' := (hBmem j).mpr hj
          rw [hB'] at hj'
          exact absurd hj' (by simp)
      | cons b bs =>
          have hb : b ∈ B := (hBmem b).mp (by rw [hB']; exact List.mem_cons_self)
          have hai : a ≤ i := by
            rw [hA'] at hAmem hApairs
            rcases List.mem_cons.mp hAmem with h | h
            · exact Int.le_of_eq h.symm
            · exact (List.pairwise_cons.mp hApairs).1 i h
          exact List.Lex.rel (Int.lt_of_le_of_lt hai (hlow b hb))

omit [LinearOrder N] in
/-- Below a node, indices are lower all the way down. -/
theorem Ordered.lower_below {st : Fingerprints N} (h : g.Ordered st) {x y : N}
    (hx : x ∈ st.fingerprints.keys) (hy : g.Below y x) :
    y = x ∨ ∃ i ∈ st.of y, ∀ j ∈ st.of x, i < j := by
  induction hy using Relation.ReflTransGen.head_induction_on with
  | refl => exact Or.inl rfl
  | head hchild hbelow ih =>
      have hc := h.below hx hbelow
      obtain ⟨i, hi, hlow⟩ := h.lower _ hc _ hchild
      rcases ih with heq | ⟨k, hk, hlow'⟩
      · rw [heq] at hlow
        exact Or.inr ⟨i, hi, hlow⟩
      · exact Or.inr ⟨i, hi, fun j hj => Int.lt_trans (hlow k hk) (hlow' j hj)⟩

/-- Where a node is among the sets. -/
theorem mem_nodeSets {st : Fingerprints N} {i : Nat} {p : Finset Int × List N}
    (hp : (nodeSetsByFingerprint st)[i]? = some p) {x : N} :
    x ∈ p.2 ↔ x ∈ st.fingerprints.keys ∧
      (inOrder (st.fingerprints.keys.image fun x => inOrder (st.of x)))[i]?
        = some (inOrder (st.of x)) := by
  unfold nodeSetsByFingerprint at hp
  rw [List.getElem?_map, Option.map_eq_some_iff] at hp
  obtain ⟨fp, hfp, rfl⟩ := hp
  rw [mem_inOrder, Finset.mem_filter, hfp, Option.some.injEq, eq_comm (a := fp)]

/-- Every node reached is in one of the sets, at the place of its indices. -/
theorem exists_nodeSet {st : Fingerprints N} {x : N} (hx : x ∈ st.fingerprints.keys) :
    ∃ (i : Nat) (p : Finset Int × List N), (nodeSetsByFingerprint st)[i]? = some p ∧
      x ∈ p.2 ∧ (inOrder (st.fingerprints.keys.image fun x => inOrder (st.of x)))[i]?
        = some (inOrder (st.of x)) := by
  have hmem : inOrder (st.of x)
      ∈ inOrder (st.fingerprints.keys.image fun x => inOrder (st.of x)) :=
    mem_inOrder.mpr (Finset.mem_image_of_mem _ hx)
  obtain ⟨i, hi⟩ := List.mem_iff_getElem?.mp hmem
  have hget : (nodeSetsByFingerprint st)[i]? = some ((inOrder (st.of x)).toFinset,
      inOrder (st.fingerprints.keys.filter fun y => inOrder (st.of y) = inOrder (st.of x))) := by
    unfold nodeSetsByFingerprint
    rw [List.getElem?_map, hi]
    rfl
  exact ⟨i, _, hget, (mem_nodeSets hget).mpr ⟨hx, hi⟩, hi⟩

omit [LinearOrder N] in
/-- The places are in the order of the indices. -/
theorem places_lt {st : Fingerprints N} {i j : Nat} {a b : List Int}
    (hi : (inOrder (st.fingerprints.keys.image fun x => inOrder (st.of x)))[i]? = some a)
    (hj : (inOrder (st.fingerprints.keys.image fun x => inOrder (st.of x)))[j]? = some b)
    (hlt : a < b) : i < j := by
  have hsorted := inOrder_pairwise (st.fingerprints.keys.image fun x => inOrder (st.of x))
  by_contra hno
  rcases Nat.lt_or_eq_of_le (Nat.not_lt.mp hno) with h | h
  · obtain ⟨hjlt, hj⟩ := List.getElem?_eq_some_iff.mp hj
    obtain ⟨hilt, hi⟩ := List.getElem?_eq_some_iff.mp hi
    have hle := List.pairwise_iff_getElem.mp hsorted j i hjlt hilt h
    rw [hi, hj] at hle
    exact absurd hlt (not_lt_of_ge hle)
  · rw [h, hi, Option.some.injEq] at hj
    rw [hj] at hlt
    exact lt_irrefl _ hlt

/-- No set holds a node below one of a set before it. -/
theorem Ordered.not_later {st : Fingerprints N} (h : g.Ordered st) {i j : Nat}
    {p q : Finset Int × List N} (hp : (nodeSetsByFingerprint st)[i]? = some p)
    (hq : (nodeSetsByFingerprint st)[j]? = some q) (hij : i ≤ j) {a b : N} (ha : a ∈ p.2)
    (hb : b ∈ q.2) (hbelow : b ∈ g.subtree a) : b = a := by
  obtain ⟨hakey, haplace⟩ := (mem_nodeSets hp).mp ha
  obtain ⟨_, hbplace⟩ := (mem_nodeSets hq).mp hb
  rcases h.lower_below hakey (g.mem_subtree.mp hbelow) with heq | hlow
  · exact heq
  · have hlt := places_lt hbplace haplace (inOrder_lt (h.nonempty a hakey) hlow)
    omega

/-- **Where replays are apart, designations precede their uses.** -/
theorem designationsPrecede_of_replaysApart (g : PatternNodes N) (context : N)
    (happart : g.replaysApart context = true) : g.DesignationsPrecede context := by
  have hempty : ∀ x, x ∉ (StdMap.empty : StdMap N (Finset Int)).keys :=
    fun x => Finset.notMem_empty x
  -- nothing is numbered at the start
  have hord : g.Ordered ⟨StdMap.empty, 0⟩ :=
    ⟨fun x hx => absurd hx (hempty x), fun x hx => absurd hx (hempty x),
      fun x hx => absurd hx (hempty x)⟩
  obtain ⟨st, hrun, hwalk⟩ := processNode_walked (g := g) (g.height context + 1) context
    ⟨StdMap.empty, 0⟩ (Nat.lt_succ_self _) hord (fun z _ hz => absurd hz (hempty z)) happart
  have hkeys : ∀ x ∈ g.subtree context, x ∈ st.fingerprints.keys := by
    intro x hx
    exact (hwalk.keys x).mpr (Or.inr ⟨context, List.mem_cons_self, hx⟩)
  refine ⟨nodeSetsByFingerprint st, ?_, ?_, ?_⟩
  · unfold getNodesInTreeByFingerprint
    rw [hrun]
    rfl
  · intro x hx y hy hne
    have hxkey := hkeys x hx
    have hykey := hwalk.ordered.below hxkey (g.mem_subtree.mp hy)
    -- the place of a set is by the least of its indices
    obtain ⟨i, p, hp, hyp, hi⟩ := exists_nodeSet hykey
    obtain ⟨j, q, hq, hxq, hj⟩ := exists_nodeSet hxkey
    have hlow := (hwalk.ordered.lower_below hxkey (g.mem_subtree.mp hy)).resolve_left hne
    have hlt := inOrder_lt (hwalk.ordered.nonempty x hxkey) hlow
    exact ⟨i, j, p, q, places_lt hi hj hlt, hp, hq, hyp, hxq⟩
  · intro policy cx
    unfold nodesInDfpo
    -- within one set no node is below another, and later sets are not below earlier ones
    rw [List.pairwise_flatMap]
    constructor
    · intro p hp
      obtain ⟨i, hi⟩ := List.mem_iff_getElem?.mp hp
      refine List.pairwise_of_forall_mem_list fun a ha b hb hbelow => ?_
      exact hwalk.ordered.not_later hi hi (Nat.le_refl i) (List.mem_of_mem_filter ha)
        (List.mem_of_mem_filter hb) hbelow
    · rw [List.pairwise_iff_getElem]
      intro i j hi hj hij a ha b hb hbelow
      exact hwalk.ordered.not_later (List.getElem?_eq_getElem hi) (List.getElem?_eq_getElem hj)
        (Nat.le_of_lt hij) (List.mem_of_mem_filter ha) (List.mem_of_mem_filter hb) hbelow

end PatternNodes

end

/-! ## §5. Two patterns. -/

/-- A collection of two elements that compare equal, with a leaf in common. -/
def leafPattern : PatternNodes (Fin 4) where
  typeIndex
    | 0 => 0
    | 1 | 2 => 1
    | 3 => 2
  value _ := .nothing
  itemise
    | 0 => []
    | 1 | 2 => [.sequence [some 0]]
    | 3 => [.collection [some 1, some 2]]
  height x := x.val
  value_kind := by decide
  layout := by decide
  float_class _ _ _ _ h := by cases h
  float_leaf _ _ h := by cases h
  container_nonnull := by decide
  height_lt := by decide
  embedded _ := none
  embedded_links _ _ h := by cases h

theorem leafPattern_designationsPrecede : leafPattern.DesignationsPrecede 3 :=
  PatternNodes.designationsPrecede_of_replaysApart leafPattern 3 (by decide +kernel)

/-- A collection of `( A, X )` and `( X, B )`, where `A`, `X` and `B` are alike: each has
the node `M` below it, which has a leaf. -/
def sharedPattern : PatternNodes (Fin 8) where
  typeIndex
    | 0 => 0
    | 1 => 1
    | 2 | 3 | 4 => 2
    | 5 | 6 => 3
    | 7 => 4
  value _ := .nothing
  itemise
    | 0 => []
    | 1 => [.sequence [some 0]]
    | 2 | 3 | 4 => [.sequence [some 1]]
    | 5 => [.sequence [some 2, some 3]]
    | 6 => [.sequence [some 3, some 4]]
    | 7 => [.collection [some 5, some 6]]
  height x := x.val
  value_kind := by decide
  layout := by decide
  float_class _ _ _ _ h := by cases h
  float_leaf _ _ h := by cases h
  container_nonnull := by decide
  height_lt := by decide
  embedded _ := none
  embedded_links _ _ h := by cases h

/-- The replay enters `X` where it entered `A`, without `M`: `X` is designated, by the policy
of `RenderToString`, before the `M` below it. -/
theorem sharedPattern_not_designationsPrecede : ¬ sharedPattern.DesignationsPrecede 7 := by
  rintro ⟨sets, hrun, -, hpairs⟩
  have heval : sharedPattern.getNodesInTreeByFingerprint 7
      = some [({0}, [0]), ({0, 4}, [3]), ({1, 3}, [1]), ({2}, [2, 4]), ({3}, [6]), ({5}, [5]),
        ({10}, [7])] := by
    decide +kernel
  rw [heval, Option.some.injEq] at hrun
  have hpolicy := hpairs ⟨fun _ => none, false, true, true, false⟩
    ⟨fun _ => false, fun _ => false, fun _ => false, fun _ => []⟩
  rw [← hrun] at hpolicy
  revert hpolicy
  decide +kernel

end Inferno.Lang
