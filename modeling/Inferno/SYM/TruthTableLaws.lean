/-
  Inferno.SYM.TruthTableLaws
  ──────────────────────────
  What extending, folding and slicing a table do to one another.

    • `getSlice`, `setSliceTable`    — the slice operations that take or give a table,
    • `getSlice_setSlice`            — a slice reads what was written to it,
    • `getFolded_getFolded`          — one fold after another is the fold of the union,
    • `getFolded_extend`             — a fold of the new axes undoes their extension,
    • `projection_laws`              — all of these, and what one folded cell is.
-/
import Inferno.SYM.PreSolveExact

namespace Inferno.SYM

open Inferno.Common

namespace TruthTable

/-! ## §1. Slices that are tables. -/

/-- The full indices in one pass: the fixed ones are in `base` already. -/
def fillFree (axes : List Nat) (base freeIndices : List Bool) : Option (List Bool) := do
  let freeMap ← zipToMap axes freeIndices
  scatterInto base freeMap

/-- `GetSlice`. -/
def getSlice (t : TruthTable) (slice : SliceSpec) : Option TruthTable := do
  ASSERT (slice.keys.card ≤ t.degree)
  let destAxes := freeAxes t.degree slice
  ASSERT (destAxes.length + slice.keys.card = t.degree)
  let fullIndices ← scatterInto (List.replicate t.degree false) slice
  (forPower destAxes.length indexRangeBool).foldlM
    (fun dest destIndices => do
      let cell ← (fillFree destAxes fullIndices destIndices).bind t.get
      dest.set destIndices cell)
    (make destAxes.length .FALSE)

/-- `SetSlice( slice, new_values )`. -/
def setSliceTable (t : TruthTable) (slice : SliceSpec) (newValues : TruthTable) :
    Option TruthTable := do
  ASSERT (slice.keys.card + newValues.degree = t.degree)
  let freeAxes := freeAxes t.degree slice
  ASSERT (freeAxes.length + slice.keys.card = t.degree)
  let fullIndices ← scatterInto (List.replicate t.degree false) slice
  (forPower freeAxes.length indexRangeBool).foldlM
    (fun t freeIndices => do
      let fullIndices ← fillFree freeAxes fullIndices freeIndices
      let newValue ← newValues.get freeIndices
      t.set fullIndices newValue)
    t

/-! ## §2. Tables are their cells. -/

/-- Tables of one degree with the same cells are the same. -/
theorem ext_get {t t' : TruthTable} (hdeg : t.degree = t'.degree)
    (h : ∀ v, v.length = t.degree → t.get v = t'.get v) : t = t' := by
  have hcells : t.cells = t'.cells := by
    apply List.ext_getElem?
    intro k
    by_cases hk : k < 2 ^ t.degree
    · -- the `k`th cell is the one of the vector that counts `k`
      have hlt : k < (forPower t.degree indexRangeBool).length := by
        rw [length_forPower_bool]
        exact hk
      obtain ⟨hlen, hval⟩ := getElem_forPower_bool (List.getElem?_eq_getElem hlt)
      have hv := h _ hlen
      rw [t.get_eq hlen, t'.get_eq (hlen.trans hdeg), hval] at hv
      exact hv
    · rw [List.getElem?_eq_none (by rw [t.length_cells]; omega),
        List.getElem?_eq_none (by rw [t'.length_cells, ← hdeg]; omega)]
  cases t
  cases t'
  cases hdeg
  cases hcells
  rfl

/-- No two values of the enumerators are the same. -/
theorem value_injective {c d : CellType} (h : c.value = d.value) : c = d := by
  cases c <;> cases d <;> first | rfl | exact absurd h (by decide)

/-- The highest of some cells is one of them and no lower than any. -/
structure IsHighest (cells : CellType → Prop) (c : CellType) : Prop where
  mem : cells c
  le : ∀ d, cells d → d.value ≤ c.value

theorem IsHighest.unique {cells : CellType → Prop} {c d : CellType} (hc : IsHighest cells c)
    (hd : IsHighest cells d) : c = d := by
  apply value_injective
  exact Int.le_antisymm (hd.le c hc.mem) (hc.le d hd.mem)

/-- The cells of `t` whose indices are `v` at the axes. -/
def Projects (t : TruthTable) (axes : List Nat) (v : List Bool) (c : CellType) : Prop :=
  ∃ w, w.length = t.degree ∧ Restricts axes w v ∧ t.get w = some c

/-- **A folded cell is the highest of the cells that project to it.** -/
theorem getFolded_isHighest (t : TruthTable) {foldAxes : Finset Nat}
    (h : ∀ k ∈ foldAxes, k < t.degree) :
    ∃ t', t.getFolded foldAxes = some t' ∧ t'.degree = (destAxes t.degree foldAxes).length
      ∧ ∀ v, v.length = t'.degree → ∃ c, t'.get v = some c
        ∧ IsHighest (t.Projects (destAxes t.degree foldAxes) v) c := by
  obtain ⟨t', hfold, hdeg, hget⟩ := t.get_getFolded h
  refine ⟨t', hfold, hdeg, ?_⟩
  intro v hv
  obtain ⟨c, hc, hmem, hmax⟩ := hget v hv
  refine ⟨c, hc, hmem, ?_⟩
  intro d hd
  obtain ⟨w, hw, hres, hwd⟩ := hd
  exact hmax w d hw hres hwd

/-- A table of the highest cells is the folded one. -/
theorem getFolded_eq {t t' : TruthTable} {foldAxes : Finset Nat}
    (h : ∀ k ∈ foldAxes, k < t.degree)
    (hdeg : t'.degree = (destAxes t.degree foldAxes).length)
    (hget : ∀ v, v.length = t'.degree → ∃ c, t'.get v = some c
      ∧ IsHighest (t.Projects (destAxes t.degree foldAxes) v) c) :
    t.getFolded foldAxes = some t' := by
  obtain ⟨t₂, hfold, hdeg₂, hget₂⟩ := t.getFolded_isHighest h
  rw [hfold]
  congr 1
  apply ext_get (hdeg₂.trans hdeg.symm)
  intro v hv
  obtain ⟨c, hc, hhigh⟩ := hget₂ v hv
  obtain ⟨d, hd, hhigh'⟩ := hget v (hv.trans (hdeg₂.trans hdeg.symm))
  rw [hc, hd, hhigh.unique hhigh']

/-! ## §3. Reading a slice back. -/

/-- **`GetSlice`**: a cell for each vector of the free values. -/
theorem get_getSlice (t : TruthTable) {slice : SliceSpec} (h : ∀ k ∈ slice.keys, k < t.degree) :
    ∃ t', t.getSlice slice = some t' ∧ t'.degree = (freeAxes t.degree slice).length
      ∧ ∀ w, w.length = t.degree → slice.Matches w →
        t'.get (atFree t.degree slice w) = t.get w := by
  -- the fixed axes are written first, the free ones by each pass
  have hcard : (freeAxes t.degree slice).length + slice.keys.card = t.degree :=
    length_filter_notMem h
  obtain ⟨base, hbase, _⟩ :=
    scatterInto_spec (List.replicate t.degree false) slice (by
      intro k hk
      rw [List.length_replicate]
      exact h k hk)
  obtain ⟨t', hfold, hdeg, hget⟩ := foldlM_setCells
    (fun f => (fillFree (freeAxes t.degree slice) base f).bind t.get)
    (forPower (freeAxes t.degree slice).length indexRangeBool)
    (make (freeAxes t.degree slice).length .FALSE) (by
      intro f hf
      rw [mem_forPower_bool] at hf
      refine ⟨hf, ?_⟩
      obtain ⟨w, hw, hlen, _⟩ := pass_spec h hbase hf
      show ∃ c, (Option.bind _ _).bind t.get = some c
      rw [hw]
      exact t.get_isSome hlen)
  refine ⟨t', ?_, hdeg, ?_⟩
  · unfold getSlice
    rw [ASSERT_pos (by omega)]
    show (ASSERT ((freeAxes t.degree slice).length + slice.keys.card = t.degree)).bind _ = _
    rw [ASSERT_pos hcard]
    show (scatterInto (List.replicate t.degree false) slice).bind _ = _
    rw [hbase]
    exact hfold
  · -- the pass with the free values of `w` reads `w`
    intro w hw hmatch
    have hlen := length_atFree t.degree slice w
    obtain ⟨w', hw', hlen', hmatch', hfree⟩ := pass_spec h hbase hlen
    rw [hget _ hlen, if_pos (mem_forPower_bool.mpr hlen)]
    show (Option.bind _ _).bind t.get = t.get w
    rw [hw', eq_of_atFree hw hlen' hmatch hmatch' rfl hfree]
    rfl

/-- Every vector of free values is that of an element of the slice. -/
theorem exists_atFree {degree : Nat} {slice : SliceSpec} (h : ∀ k ∈ slice.keys, k < degree)
    {f : List Bool} (hf : f.length = (freeAxes degree slice).length) :
    ∃ w, w.length = degree ∧ slice.Matches w ∧ atFree degree slice w = f := by
  obtain ⟨base, hbase, _⟩ :=
    scatterInto_spec (List.replicate degree false) slice (by
      intro k hk
      rw [List.length_replicate]
      exact h k hk)
  obtain ⟨w, _, hlen, hmatch, hfree⟩ := pass_spec h hbase hf
  refine ⟨w, hlen, hmatch, ?_⟩
  apply List.ext_getElem?
  intro j
  unfold atFree
  rw [List.getElem?_map]
  by_cases hj : j < (freeAxes degree slice).length
  · have hk := List.getElem?_eq_getElem hj
    rw [hk, Option.map_some, hfree j _ hk, List.getElem?_eq_getElem (hf ▸ hj)]
    rfl
  · rw [List.getElem?_eq_none (by omega), List.getElem?_eq_none (by omega)]
    rfl

/-- The loop of `SetSlice` is one over the elements of the slice. -/
theorem foldlM_fillFree {axes : List Nat} {base : List Bool} {newValues : TruthTable}
    (full : List Bool → List Bool) (value : List Bool → Option CellType)
    (fs : List (List Bool))
    (h : ∀ f ∈ fs, fillFree axes base f = some (full f) ∧ value (full f) = newValues.get f) :
    ∀ t : TruthTable,
    fs.foldlM (fun t f => (fillFree axes base f).bind fun w =>
        (newValues.get f).bind fun c => t.set w c) t
      = (fs.map full).foldlM (fun t w => (value w).bind fun c => t.set w c) t := by
  induction fs with
  | nil => exact fun _ => rfl
  | cons f fs ih =>
      intro t
      obtain ⟨hfill, hvalue⟩ := h f List.mem_cons_self
      have hrest := ih (fun f' hf' => h f' (List.mem_cons_of_mem f hf'))
      rw [List.map_cons, List.foldlM_cons, List.foldlM_cons, hfill, hvalue]
      show ((newValues.get f).bind fun c => t.set (full f) c).bind _
        = ((newValues.get f).bind fun c => t.set (full f) c).bind _
      congr 1
      funext t₁
      exact hrest t₁

/-- **`SetSlice` with a table** writes each of its cells to the element of the slice that
has its free values. -/
theorem get_setSliceTable (t : TruthTable) {slice : SliceSpec} {newValues : TruthTable}
    (h : ∀ k ∈ slice.keys, k < t.degree)
    (hdegree : slice.keys.card + newValues.degree = t.degree) :
    ∃ t', t.setSliceTable slice newValues = some t' ∧ t'.degree = t.degree
      ∧ ∀ w, w.length = t.degree → t'.get w =
          if slice.Matches w then newValues.get (atFree t.degree slice w) else t.get w := by
  have hcard : (freeAxes t.degree slice).length + slice.keys.card = t.degree :=
    length_filter_notMem h
  have hfreeDegree : newValues.degree = (freeAxes t.degree slice).length := by omega
  obtain ⟨base, hbase, _⟩ :=
    scatterInto_spec (List.replicate t.degree false) slice (by
      intro k hk
      rw [List.length_replicate]
      exact h k hk)
  -- the passes, and the element that each of them fills
  let fs := forPower (freeAxes t.degree slice).length indexRangeBool
  let full := fun f => (fillFree (freeAxes t.degree slice) base f).getD []
  have hfull (w : List Bool) (hw : w.length = t.degree) (hmatch : slice.Matches w) :
      fillFree (freeAxes t.degree slice) base (atFree t.degree slice w) = some w := by
    obtain ⟨w', hw', hlen', hmatch', hfree⟩ :=
      pass_spec h hbase (length_atFree t.degree slice w)
    rw [eq_of_atFree hw hlen' hmatch hmatch' rfl hfree] at hw'
    exact hw'
  -- the element that each pass writes
  have hfill (f : List Bool) (hf : f ∈ fs) :
      ∃ w, w.length = t.degree ∧ slice.Matches w ∧ atFree t.degree slice w = f
        ∧ full f = w := by
    obtain ⟨w, hlen, hmatch, hat⟩ := exists_atFree h (mem_forPower_bool.mp hf)
    refine ⟨w, hlen, hmatch, hat, ?_⟩
    show (fillFree (freeAxes t.degree slice) base f).getD [] = w
    rw [← hat, hfull w hlen hmatch]
    rfl
  -- filling the free axes reaches the element of these values
  have hpass : ∀ f ∈ fs, fillFree (freeAxes t.degree slice) base f = some (full f)
      ∧ newValues.get (atFree t.degree slice (full f)) = newValues.get f := by
    intro f hf
    obtain ⟨w, hlen, hmatch, hat, hw⟩ := hfill f hf
    refine ⟨?_, ?_⟩
    · rw [hw, ← hat]
      exact hfull w hlen hmatch
    · rw [hw, hat]
  have hloop := foldlM_fillFree full (fun w => newValues.get (atFree t.degree slice w)) fs hpass t
  obtain ⟨t', hfold, hdeg, hget⟩ := foldlM_setCells
    (fun w => newValues.get (atFree t.degree slice w)) (fs.map full) t (by
      intro w hw
      obtain ⟨f, hf, hfw⟩ := List.mem_map.mp hw
      obtain ⟨w', hlen, _, _, hw'⟩ := hfill f hf
      rw [← hfw, hw']
      refine ⟨hlen, newValues.get_isSome ?_⟩
      rw [length_atFree, hfreeDegree])
  refine ⟨t', ?_, hdeg, ?_⟩
  · unfold setSliceTable
    rw [ASSERT_pos hdegree]
    show (ASSERT ((freeAxes t.degree slice).length + slice.keys.card = t.degree)).bind _ = _
    rw [ASSERT_pos hcard]
    show (scatterInto (List.replicate t.degree false) slice).bind _ = _
    rw [hbase]
    exact hloop.trans hfold
  · intro w hw
    rw [hget w hw]
    -- in the slice: written by the pass of its free values
    by_cases hmatch : slice.Matches w
    · have hat : atFree t.degree slice w ∈ fs :=
        mem_forPower_bool.mpr (length_atFree t.degree slice w)
      have hmem : w ∈ fs.map full := by
        refine List.mem_map.mpr ⟨_, hat, ?_⟩
        show (fillFree (freeAxes t.degree slice) base (atFree t.degree slice w)).getD [] = w
        rw [hfull w hw hmatch]
        rfl
      rw [if_pos hmem, if_pos hmatch]
    · -- outside: no pass writes it
      have hnot : w ∉ fs.map full := by
        intro hmem
        obtain ⟨f, hf, hfw⟩ := List.mem_map.mp hmem
        obtain ⟨w', _, hmatch', _, hw'⟩ := hfill f hf
        rw [← hfw, hw'] at hmatch
        exact hmatch hmatch'
      rw [if_neg hnot, if_neg hmatch]

/-- A table that is `t'` on the slice reads as `t'` there. -/
theorem getSlice_eq {t t' : TruthTable} {slice : SliceSpec} (h : ∀ k ∈ slice.keys, k < t.degree)
    (hdeg : t'.degree = (freeAxes t.degree slice).length)
    (hget : ∀ w, w.length = t.degree → slice.Matches w →
      t.get w = t'.get (atFree t.degree slice w)) :
    t.getSlice slice = some t' := by
  obtain ⟨t₂, hslice, hdeg₂, hget₂⟩ := t.get_getSlice h
  rw [hslice]
  congr 1
  apply ext_get (hdeg₂.trans hdeg.symm)
  intro f hf
  obtain ⟨w, hlen, hmatch, hat⟩ := exists_atFree h (hf.trans hdeg₂)
  rw [← hat, hget₂ w hlen hmatch, hget w hlen hmatch]

/-- **A slice set to one value reads as that value.** -/
theorem getSlice_setSlice (t : TruthTable) {slice : SliceSpec}
    (h : ∀ k ∈ slice.keys, k < t.degree) (c : CellType) :
    ∃ t', t.setSlice slice c = some t' ∧ t'.degree = t.degree
      ∧ t'.getSlice slice = some (make (freeAxes t.degree slice).length c)
      ∧ ∀ w, w.length = t.degree → ¬ slice.Matches w → t'.get w = t.get w := by
  obtain ⟨t', hset, hdeg, hget⟩ := t.get_setSlice h c
  refine ⟨t', hset, hdeg, ?_, ?_⟩
  · apply getSlice_eq (by rw [hdeg]; exact h) (by rw [hdeg]; rfl)
    intro w hw hmatch
    rw [hdeg] at hw
    rw [hget w hw, if_pos hmatch, hdeg, get_make c (length_atFree t.degree slice w)]
  · intro w hw hnot
    rw [hget w hw, if_neg hnot]

/-- **A slice set to a table reads as the table.** -/
theorem getSlice_setSliceTable (t : TruthTable) {slice : SliceSpec} {newValues : TruthTable}
    (h : ∀ k ∈ slice.keys, k < t.degree)
    (hdegree : slice.keys.card + newValues.degree = t.degree) :
    ∃ t', t.setSliceTable slice newValues = some t' ∧ t'.degree = t.degree
      ∧ t'.getSlice slice = some newValues
      ∧ ∀ w, w.length = t.degree → ¬ slice.Matches w → t'.get w = t.get w := by
  have hcard : (freeAxes t.degree slice).length + slice.keys.card = t.degree :=
    length_filter_notMem h
  obtain ⟨t', hset, hdeg, hget⟩ := t.get_setSliceTable h hdegree
  refine ⟨t', hset, hdeg, ?_, ?_⟩
  · apply getSlice_eq (by rw [hdeg]; exact h) (by rw [hdeg]; omega)
    intro w hw hmatch
    rw [hdeg] at hw
    rw [hget w hw, if_pos hmatch, hdeg]
  · intro w hw hnot
    rw [hget w hw, if_neg hnot]

/-! ## §4. One fold after another. -/

/-- A list of elements that are all there. -/
theorem getElem?_filterMap {α β : Type} (f : α → Option β) (l : List α)
    (h : ∀ a ∈ l, (f a).isSome) : ∀ j : Nat, (l.filterMap f)[j]? = l[j]?.bind f := by
  induction l with
  | nil => exact fun _ => rfl
  | cons a l ih =>
      intro j
      obtain ⟨b, hb⟩ := Option.isSome_iff_exists.mp (h a List.mem_cons_self)
      rw [List.filterMap_cons_some hb]
      cases j with
      | zero => exact hb.symm
      | succ j => exact ih (fun a' ha' => h a' (List.mem_cons_of_mem a ha')) j

/-- Filtering a list through its places. -/
theorem filterMap_range_filter {α : Type} (p : α → Bool) (l : List α) :
    ((List.range l.length).filter (fun j => !l[j]?.any p)).filterMap (fun j => l[j]?)
      = l.filter (fun a => !p a) := by
  induction l with
  | nil => rfl
  | cons a l ih =>
      rw [List.length_cons, List.range_succ_eq_map, List.filter_cons, List.filter_cons,
        List.filter_map]
      have hrest : (((List.range l.length).filter
          ((fun j => !(a :: l)[j]?.any p) ∘ Nat.succ)).map
            Nat.succ).filterMap (fun j => (a :: l)[j]?) = l.filter (fun a => !p a) := by
        rw [List.filterMap_map]
        exact ih
      show List.filterMap _ (if (!p a) = true then _ else _) = _
      cases hp : p a with
      | true => exact hrest
      | false => exact congrArg (a :: ·) hrest

/-- The axes `C`, as a fold of `A` renumbers them. -/
def renumbered (degree : Nat) (A C : Finset Nat) : Finset Nat :=
  (Finset.range (destAxes degree A).length).filter
    (fun j => (destAxes degree A)[j]?.any (fun i => decide (i ∈ C)))

/-- The axes left after both folds, by their numbers before. -/
theorem destAxes_union (degree : Nat) (A C : Finset Nat) :
    (destAxes (destAxes degree A).length (renumbered degree A C)).filterMap
      (fun j => (destAxes degree A)[j]?) = destAxes degree (A ∪ C) := by
  have hleft : destAxes (destAxes degree A).length (renumbered degree A C)
      = (List.range (destAxes degree A).length).filter
          (fun j => !(destAxes degree A)[j]?.any (fun i => decide (i ∈ C))) := by
    apply List.filter_congr
    intro j hj
    have hj : j ∈ Finset.range (destAxes degree A).length := Finset.mem_range.mpr
      (List.mem_range.mp hj)
    have hmem : j ∈ renumbered degree A C
        ↔ (destAxes degree A)[j]?.any (fun i => decide (i ∈ C)) = true := by
      unfold renumbered
      rw [Finset.mem_filter]
      exact ⟨fun h => h.2, fun h => ⟨hj, h⟩⟩
    cases hany : (destAxes degree A)[j]?.any (fun i => decide (i ∈ C)) with
    | true => exact decide_eq_false (fun h => h (hmem.mpr hany))
    | false => exact decide_eq_true (fun h => by rw [hmem.mp h] at hany; cases hany)
  rw [hleft, filterMap_range_filter]
  unfold destAxes
  rw [List.filter_filter]
  apply List.filter_congr
  intro i _
  rw [← decide_not, ← Bool.decide_and, decide_eq_decide, Finset.mem_union, not_or]
  exact and_comm

theorem mem_destAxes {degree i : Nat} {A : Finset Nat} :
    i ∈ destAxes degree A ↔ i < degree ∧ i ∉ A := by
  unfold destAxes
  rw [List.mem_filter, List.mem_range, decide_eq_true_iff]

/-- A place among the axes left after both folds. -/
theorem getElem?_destAxes_union (degree : Nat) (A C : Finset Nat) (k : Nat) :
    (destAxes degree (A ∪ C))[k]?
      = (destAxes (destAxes degree A).length (renumbered degree A C))[k]?.bind
          (fun j => (destAxes degree A)[j]?) := by
  rw [← destAxes_union, getElem?_filterMap]
  intro j hj
  rw [List.getElem?_eq_getElem (mem_destAxes.mp hj).1]
  rfl

theorem length_destAxes_union (degree : Nat) (A C : Finset Nat) :
    (destAxes (destAxes degree A).length (renumbered degree A C)).length
      = (destAxes degree (A ∪ C)).length := by
  rw [← destAxes_union, List.length_filterMap_eq_countP, List.countP_eq_length.mpr]
  intro j hj
  rw [List.getElem?_eq_getElem (mem_destAxes.mp hj).1]
  rfl

/-- **Indices restrict to both folds through the indices in between.** -/
theorem restricts_union {degree : Nat} {A C : Finset Nat} {w v : List Bool}
    (hw : w.length = degree) :
    Restricts (destAxes degree (A ∪ C)) w v
      ↔ ∃ u, u.length = (destAxes degree A).length ∧ Restricts (destAxes degree A) w u
          ∧ Restricts (destAxes (destAxes degree A).length (renumbered degree A C)) u v := by
  constructor
  · intro h
    have hbetween (j i : Nat) (hj : (destAxes degree A)[j]? = some i) :
        w[i]? = ((destAxes degree A).map (fun i => w[i]?.getD false))[j]? := by
      have hi := (mem_destAxes.mp (List.mem_of_getElem? hj)).1
      rw [List.getElem?_map, hj, Option.map_some, List.getElem?_eq_getElem (hw ▸ hi)]
      rfl
    refine ⟨_, List.length_map _, hbetween, ?_⟩
    intro k j hk
    have hlt : j < (destAxes degree A).length := (mem_destAxes.mp (List.mem_of_getElem? hk)).1
    have hj := List.getElem?_eq_getElem hlt
    rw [← hbetween j _ hj]
    apply h k
    rw [getElem?_destAxes_union, hk]
    exact hj
  · intro h k i hk
    obtain ⟨u, _, hwu, huv⟩ := h
    rw [getElem?_destAxes_union] at hk
    obtain ⟨j, hkj, hji⟩ := Option.bind_eq_some_iff.mp hk
    rw [hwu j i hji, huv k j hkj]

/-- **Folding one set of axes after another** is folding their union. -/
theorem getFolded_getFolded (t : TruthTable) {A C : Finset Nat} (hA : ∀ k ∈ A, k < t.degree)
    (hC : ∀ k ∈ C, k < t.degree) :
    ∃ t₁ t₂, t.getFolded A = some t₁ ∧ t₁.getFolded (renumbered t.degree A C) = some t₂
      ∧ t.getFolded (A ∪ C) = some t₂ := by
  obtain ⟨t₁, hfold₁, hdeg₁, hget₁⟩ := t.getFolded_isHighest hA
  have hrenumbered : ∀ j ∈ renumbered t.degree A C, j < t₁.degree := by
    intro j hj
    rw [hdeg₁]
    exact Finset.mem_range.mp (Finset.mem_filter.mp hj).1
  -- the second fold is of the first one's table, with its axes renumbered
  obtain ⟨t₂, hfold₂, hdeg₂, hget₂⟩ := t₁.getFolded_isHighest hrenumbered
  rw [hdeg₁] at hdeg₂ hget₂
  refine ⟨t₁, t₂, hfold₁, hfold₂, ?_⟩
  apply getFolded_eq
  · intro k hk
    rcases Finset.mem_union.mp hk with hk | hk
    · exact hA k hk
    · exact hC k hk
  · rw [hdeg₂, length_destAxes_union]
  · intro v hv
    obtain ⟨c, hc, hhigh⟩ := hget₂ v hv
    refine ⟨c, hc, ?_, ?_⟩
    · -- the highest cell comes from one between, and that from one below
      obtain ⟨u, hu, huv, huc⟩ := hhigh.mem
      obtain ⟨c₁, hc₁, hhigh₁⟩ := hget₁ u hu
      obtain rfl := Option.some.inj (hc₁.symm.trans huc)
      obtain ⟨w, hw, hwu, hwc⟩ := hhigh₁.mem
      exact ⟨w, hw, (restricts_union hw).mpr ⟨u, hu.trans hdeg₁, hwu, huv⟩, hwc⟩
    · -- and no cell that restricts to it is higher
      intro d hd
      obtain ⟨w, hw, hwv, hwd⟩ := hd
      obtain ⟨u, hu, hwu, huv⟩ := (restricts_union hw).mp hwv
      obtain ⟨c₁, hc₁, hhigh₁⟩ := hget₁ u (hu.trans hdeg₁.symm)
      have hlow : d.value ≤ c₁.value := hhigh₁.le d ⟨w, hw, hwu, hwd⟩
      have hhigh₂ : c₁.value ≤ c.value := hhigh.le c₁ ⟨u, hu.trans hdeg₁.symm, huv, hc₁⟩
      exact Int.le_trans hlow hhigh₂

/-! ## §5. Folding an extension. -/

/-- The axes that `Extend` adds. -/
def newAxes (degree n : Nat) : Finset Nat := (Finset.range n).image (fun k => degree + k)

/-- **A fold of the new axes undoes their extension.** -/
theorem getFolded_extend (t : TruthTable) (n : Nat) :
    (extend n t).getFolded (newAxes t.degree n) = some t := by
  have hdegree := degree_extend n t
  apply getFolded_eq
  · intro k hk
    obtain ⟨j, hj, rfl⟩ := Finset.mem_image.mp hk
    rw [Finset.mem_range] at hj
    omega
  · unfold newAxes
    rw [hdegree, destAxes_added, List.length_range]
  · intro v hv
    unfold newAxes
    rw [hdegree, destAxes_added]
    -- any cell that projects to `v` has the old cell's value
    have hcell (w : List Bool) (hw : w.length = t.degree + n)
        (hres : Restricts (List.range t.degree) w v) : (extend n t).get w = t.get v := by
      obtain ⟨x, rfl⟩ := (restricts_range hv (by omega)).mp hres
      have hx : x.length = n := by
        rw [List.length_append] at hw
        omega
      rw [← hx, get_extend x t hv]
    obtain ⟨c, hc⟩ := t.get_isSome hv
    refine ⟨c, hc, ?_, ?_⟩
    · have hlen : (v ++ List.replicate n false).length = t.degree + n := by
        rw [List.length_append, List.length_replicate, hv]
      have hres : Restricts (List.range t.degree) (v ++ List.replicate n false) v :=
        (restricts_range hv (by omega)).mpr ⟨_, rfl⟩
      exact ⟨_, hlen.trans hdegree.symm, hres, (hcell _ hlen hres).trans hc⟩
    · intro d hd
      obtain ⟨w, hw, hres, hwd⟩ := hd
      rw [hcell w (hw.trans hdegree) hres, hc] at hwd
      obtain rfl := Option.some.inj hwd
      exact Int.le_refl _

end TruthTable

/-! ## §6. Tables with predicates. -/

namespace TruthTableWithPredicates

open TruthTable

variable {S A M : Type} [DecidableEq S]

/-- The predicates of the axes that a fold leaves. -/
theorem getElem?_predicates (predicates : List (EqualPredicateSet S A M)) (F : Finset Nat)
    (j : Nat) :
    ((destAxes predicates.length F).filterMap (predicates[·]?))[j]?
      = (destAxes predicates.length F)[j]?.bind (predicates[·]?) := by
  apply getElem?_filterMap
  intro i hi
  rw [List.getElem?_eq_getElem (mem_destAxes.mp hi).1]
  rfl

theorem length_predicates (predicates : List (EqualPredicateSet S A M)) (F : Finset Nat) :
    ((destAxes predicates.length F).filterMap (predicates[·]?)).length
      = (destAxes predicates.length F).length := by
  rw [List.length_filterMap_eq_countP, List.countP_eq_length]
  intro i hi
  rw [List.getElem?_eq_getElem (mem_destAxes.mp hi).1]
  rfl

/-- A fold of the table is one of the predicates as well. -/
theorem getFolded_of_table {ttwp : TruthTableWithPredicates S A M} {F : Finset Nat}
    {t : TruthTable} (h : ttwp.truthTable.getFolded F = some t)
    (hdeg : t.degree
      = ((destAxes ttwp.predicates.length F).filterMap (ttwp.predicates[·]?)).length) :
    ttwp.getFolded F = some ⟨_, t, hdeg⟩ := by
  unfold getFolded
  rw [h]
  exact dif_pos hdeg

/-- **A fold of the new axes undoes their extension**, predicates included. -/
theorem getFolded_extend (ttwp : TruthTableWithPredicates S A M)
    (newPredicates : List (EqualPredicateSet S A M)) :
    (ttwp.extend newPredicates).getFolded
      (newAxes ttwp.truthTable.degree newPredicates.length) = some ttwp := by
  obtain ⟨predicates, t, hdeg⟩ := ttwp
  have hpreds : (destAxes (predicates ++ newPredicates).length
      (newAxes t.degree newPredicates.length)).filterMap
        (fun i => (predicates ++ newPredicates)[i]?) = predicates := by
    unfold newAxes
    rw [List.length_append, hdeg, destAxes_added, filterMap_range_getElem]
  unfold getFolded
  show Option.bind ((TruthTable.extend newPredicates.length t).getFolded
    (newAxes t.degree newPredicates.length)) _ = _
  rw [TruthTable.getFolded_extend]
  show ofTable ((destAxes (predicates ++ newPredicates).length
      (newAxes t.degree newPredicates.length)).filterMap
        (fun i => (predicates ++ newPredicates)[i]?)) t = _
  rw [hpreds]
  exact dif_pos hdeg

/-- **Folding one set of axes after another** is folding their union, predicates
included. -/
theorem getFolded_getFolded (ttwp : TruthTableWithPredicates S A M) {F C : Finset Nat}
    (hF : ∀ k ∈ F, k < ttwp.truthTable.degree) (hC : ∀ k ∈ C, k < ttwp.truthTable.degree) :
    ∃ ttwp₁ ttwp₂, ttwp.getFolded F = some ttwp₁
      ∧ ttwp₁.getFolded (renumbered ttwp.truthTable.degree F C) = some ttwp₂
      ∧ ttwp.getFolded (F ∪ C) = some ttwp₂ := by
  obtain ⟨predicates, t, hdeg⟩ := ttwp
  obtain ⟨t₁, t₂, hfold₁, hfold₂, hunion⟩ := t.getFolded_getFolded hF hC
  -- the degrees are the numbers of predicates left
  have hdeg₁ : t₁.degree = (destAxes t.degree F).length := by
    obtain ⟨t', hfold, hdeg', _⟩ := t.get_getFolded hF
    rw [hfold₁] at hfold
    obtain rfl := Option.some.inj hfold
    exact hdeg'
  have hdeg₂ : t₂.degree = (destAxes t.degree (F ∪ C)).length := by
    have hFC : ∀ k ∈ F ∪ C, k < t.degree := by
      intro k hk
      exact (Finset.mem_union.mp hk).elim (hF k) (hC k)
    obtain ⟨t', hfold, hdeg', _⟩ := t.get_getFolded hFC
    rw [hunion] at hfold
    obtain rfl := Option.some.inj hfold
    exact hdeg'
  have hpred₁ : t₁.degree
      = ((destAxes predicates.length F).filterMap (predicates[·]?)).length := by
    rw [length_predicates, hdeg₁, hdeg]
  have hpred₂ : t₂.degree
      = ((destAxes predicates.length (F ∪ C)).filterMap (predicates[·]?)).length := by
    rw [length_predicates, hdeg₂, hdeg]
  -- the predicates that the second fold keeps, by their places before the first
  have hpreds : (destAxes ((destAxes predicates.length F).filterMap (predicates[·]?)).length
      (renumbered t.degree F C)).filterMap
        (((destAxes predicates.length F).filterMap (predicates[·]?))[·]?)
      = (destAxes predicates.length (F ∪ C)).filterMap (predicates[·]?) := by
    rw [length_predicates, ← destAxes_union, hdeg, List.filterMap_filterMap]
    congr 1
    funext j
    exact getElem?_predicates predicates F j
  refine ⟨⟨_, t₁, hpred₁⟩, ⟨_, t₂, hpred₂⟩, getFolded_of_table hfold₁ hpred₁, ?_,
    getFolded_of_table hunion hpred₂⟩
  unfold getFolded
  show Option.bind (t₁.getFolded (renumbered t.degree F C)) _ = _
  rw [hfold₂]
  show ofTable ((destAxes ((destAxes predicates.length F).filterMap (predicates[·]?)).length
      (renumbered t.degree F C)).filterMap
        (((destAxes predicates.length F).filterMap (predicates[·]?))[·]?)) t₂ = _
  rw [hpreds]
  exact dif_pos hpred₂

end TruthTableWithPredicates

/-! ## §7. The laws. -/

section

open TruthTable

/-- **Projection laws.**  A fold of the new axes undoes their extension; folds compose to
the fold of the union; a folded cell is the highest of those that project to it, where
`DONT_CARE` is below `FALSE` and `FALSE` below `TRUE`; and a slice reads as it was
written, with the cells outside it unchanged. -/
theorem projection_laws (S A M : Type) [DecidableEq S] :
    (∀ (t : TruthTable) (n : Nat), (t.extend n).getFolded (newAxes t.degree n) = some t)
    ∧ (∀ (ttwp : TruthTableWithPredicates S A M) (ps : List (EqualPredicateSet S A M)),
        (ttwp.extend ps).getFolded (newAxes ttwp.truthTable.degree ps.length) = some ttwp)
    ∧ (∀ (t : TruthTable) (F C : Finset Nat), (∀ k ∈ F, k < t.degree) →
        (∀ k ∈ C, k < t.degree) →
        ∃ t₁ t₂, t.getFolded F = some t₁ ∧ t₁.getFolded (renumbered t.degree F C) = some t₂
          ∧ t.getFolded (F ∪ C) = some t₂)
    ∧ (∀ (ttwp : TruthTableWithPredicates S A M) (F C : Finset Nat),
        (∀ k ∈ F, k < ttwp.truthTable.degree) → (∀ k ∈ C, k < ttwp.truthTable.degree) →
        ∃ ttwp₁ ttwp₂, ttwp.getFolded F = some ttwp₁
          ∧ ttwp₁.getFolded (renumbered ttwp.truthTable.degree F C) = some ttwp₂
          ∧ ttwp.getFolded (F ∪ C) = some ttwp₂)
    ∧ (∀ (t : TruthTable) (F : Finset Nat), (∀ k ∈ F, k < t.degree) →
        ∃ t', t.getFolded F = some t' ∧ t'.degree = (destAxes t.degree F).length
          ∧ ∀ v, v.length = t'.degree → ∃ c, t'.get v = some c
            ∧ IsHighest (t.Projects (destAxes t.degree F) v) c)
    ∧ (∀ (t : TruthTable) (slice : SliceSpec) (c : CellType),
        (∀ k ∈ slice.keys, k < t.degree) →
        ∃ t', t.setSlice slice c = some t' ∧ t'.degree = t.degree
          ∧ t'.getSlice slice = some (make (freeAxes t.degree slice).length c)
          ∧ ∀ w, w.length = t.degree → ¬ slice.Matches w → t'.get w = t.get w)
    ∧ (∀ (t newValues : TruthTable) (slice : SliceSpec), (∀ k ∈ slice.keys, k < t.degree) →
        slice.keys.card + newValues.degree = t.degree →
        ∃ t', t.setSliceTable slice newValues = some t' ∧ t'.degree = t.degree
          ∧ t'.getSlice slice = some newValues
          ∧ ∀ w, w.length = t.degree → ¬ slice.Matches w → t'.get w = t.get w) :=
  ⟨fun t n => t.getFolded_extend n, fun ttwp ps => ttwp.getFolded_extend ps,
    fun t _ _ hF hC => t.getFolded_getFolded hF hC,
    fun ttwp _ _ hF hC => ttwp.getFolded_getFolded hF hC,
    fun t _ hF => t.getFolded_isHighest hF,
    fun t _ c h => t.getSlice_setSlice h c,
    fun t _ _ h hdegree => t.getSlice_setSliceTable h hdegree⟩

/-- One axis: `FALSE` where it is false, `DONT_CARE` where it is true. -/
def falseThenDontCare : TruthTable := ⟨1, [.FALSE, .DONT_CARE], rfl⟩

/-- The laws at a table of three axes: two of them folded away, and a slice written. -/
theorem projection_laws_threeAxes :
    (∃ t₁ t₂, (falseThenDontCare.extend 2).getFolded {1} = some t₁
      ∧ t₁.getFolded (renumbered 3 {1} {2}) = some t₂
      ∧ (falseThenDontCare.extend 2).getFolded ({1} ∪ {2}) = some t₂)
    ∧ ∃ t', (falseThenDontCare.extend 2).setSliceTable (sliceSpec [(0, true), (2, false)])
          falseThenDontCare = some t' ∧ t'.degree = 3
        ∧ t'.getSlice (sliceSpec [(0, true), (2, false)]) = some falseThenDontCare
        ∧ ∀ w, w.length = 3 → ¬ SliceSpec.Matches (sliceSpec [(0, true), (2, false)]) w →
            t'.get w = (falseThenDontCare.extend 2).get w :=
  ⟨(projection_laws Unit Unit Unit).2.2.1 (falseThenDontCare.extend 2) {1} {2}
      (by decide) (by decide),
    (projection_laws Unit Unit Unit).2.2.2.2.2.2 (falseThenDontCare.extend 2) falseThenDontCare
      (sliceSpec [(0, true), (2, false)]) (by decide) (by decide)⟩

/-- The order that puts `DONT_CARE` between `FALSE` and `TRUE`. -/
def betweenRank : CellType → Nat
  | .FALSE => 0
  | .DONT_CARE => 1
  | .TRUE => 2

/-- In that order a folded cell is not the highest of those that project to it. -/
theorem fold_dontCare_under_false :
    ¬ ∀ (t t' : TruthTable) (F : Finset Nat), t.getFolded F = some t' →
      ∀ (v w : List Bool) (c d : CellType), t'.get v = some c → w.length = t.degree →
        Restricts (destAxes t.degree F) w v → t.get w = some d →
          betweenRank d ≤ betweenRank c := by
  intro h
  have hcell : (falseThenDontCare.getFolded {0}).bind (fun t' => t'.get []) = some .FALSE := by
    decide +kernel
  obtain ⟨t', hfold, hget⟩ := Option.bind_eq_some_iff.mp hcell
  have hle := h falseThenDontCare t' {0} hfold [] [true] .FALSE .DONT_CARE hget rfl
    (by intro j k hk; cases hk) rfl
  exact absurd hle (by decide)

end

end Inferno.SYM
