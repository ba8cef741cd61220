/-
  Inferno.SYM.TruthTable
  ──────────────────────
  `SYM::TruthTable`: a cell for each vector of truth values of the axes.

    • `CellType`, `TruthTable` — the cells, as many as there are vectors,
    • `SliceSpec`, `visit`     — fixed indices, and the loop over the free axes that
                                 the slice operations share,
    • `set`, `setSlice`, `extend`, `getFolded`,
    • `get_set`, `get_setSlice`, `get_extend`, `get_getFolded` — what each cell holds
                                 afterwards.
-/
import Inferno.Common.Assert
import Inferno.Common.LambdaLoops
import Inferno.Common.StdMap
import Mathlib.Data.List.Nodup

namespace Inferno.SYM

open Inferno.Common

/-! ## §1. Tables. -/

/-- `TruthTable::CellType`. -/
inductive CellType where
  | DONT_CARE
  | FALSE
  | TRUE
deriving DecidableEq

namespace CellType

/-- The enumerators' values: folding prioritises higher ones. -/
def value : CellType → Int
  | DONT_CARE => -1
  | FALSE => 0
  | TRUE => 1

/-- `*max_element` of the cells inserted into a `set<CellType>`. -/
def maxElement : List CellType → Option CellType
  | [] => none
  | c :: cs => some (cs.foldl (fun a b => if a.value < b.value then b else a) c)

end CellType

/-- **`TruthTable`**: `2^degree` cells. -/
structure TruthTable where
  degree : Nat
  cells : List CellType
  length_cells : cells.length = 2 ^ degree

/-- `SliceSpec`: a value for every fixed index; the free ones are the remaining ones. -/
abbrev SliceSpec := StdMap Nat Bool

/-- A `SliceSpec` from an initialiser list; a key that is there already stays. -/
def sliceSpec (ps : List (Nat × Bool)) : SliceSpec :=
  ps.foldl (fun m p => m.insertNew p.1 p.2) StdMap.empty

/-- A vector of indices that has the values of the slice. -/
def SliceSpec.Matches (slice : SliceSpec) (indices : List Bool) : Prop :=
  ∀ i ∈ slice.keys, indices[i]? = slice.lookup i

instance (slice : SliceSpec) (indices : List Bool) : Decidable (slice.Matches indices) := by
  unfold SliceSpec.Matches
  infer_instance

/-- `ZipToMap`. -/
def zipToMap (keys : List Nat) (values : List Bool) : Option SliceSpec := do
  ASSERT (keys.length = values.length)
  ASSERT keys.Nodup
  some ((keys.zip values).foldl (fun m p => m.set p.1 p.2) StdMap.empty)

/-- `ScatterInto`; `none` when a key is past the end. -/
def scatterInto (destVec : List Bool) (m : SliceSpec) : Option (List Bool) := do
  ASSERT (∀ k ∈ m.keys, k < destVec.length)
  some (destVec.mapIdx (fun i b => (m.lookup i).getD b))

namespace TruthTable

/-- `TruthTable( degree, initval )`. -/
def make (degree : Nat) (initval : CellType) : TruthTable :=
  ⟨degree, List.replicate (2 ^ degree) initval, List.length_replicate⟩

/-- `GetCellIndex`. -/
def getCellIndex (t : TruthTable) (fullIndices : List Bool) : Option Nat := do
  ASSERT (fullIndices.length = t.degree)
  some (bitsValue fullIndices)

/-- `Get`. -/
def get (t : TruthTable) (fullIndices : List Bool) : Option CellType := do
  let cindex ← t.getCellIndex fullIndices
  t.cells[cindex]?

/-- `Set`. -/
def set (t : TruthTable) (fullIndices : List Bool) (newValue : CellType) :
    Option TruthTable := do
  let cindex ← t.getCellIndex fullIndices
  ASSERT (cindex < t.cells.length)
  some ⟨t.degree, t.cells.set cindex newValue, by rw [List.length_set, t.length_cells]⟩

/-- The free axes of a slice. -/
def freeAxes (degree : Nat) (slice : SliceSpec) : List Nat :=
  (List.range degree).filter (fun i => decide (i ∉ slice.keys))

/-- The loop of the slice operations: the full indices for the values of the free axes
in turn.  A pass overwrites all the free axes of the last. -/
def visit (degree : Nat) (slice : SliceSpec) : Option (List (List Bool)) := do
  ASSERT (slice.keys.card ≤ degree)
  ASSERT ((freeAxes degree slice).length + slice.keys.card = degree)
  let fullIndices ← scatterInto (List.replicate degree false) slice
  (forPower (freeAxes degree slice).length indexRangeBool).mapM fun freeIndices => do
    let freeMap ← zipToMap (freeAxes degree slice) freeIndices
    scatterInto fullIndices freeMap

/-- `SetSlice( slice, new_value )`. -/
def setSlice (t : TruthTable) (slice : SliceSpec) (newValue : CellType) :
    Option TruthTable := do
  let visits ← visit t.degree slice
  visits.foldlM (fun t fullIndices => t.set fullIndices newValue) t

/-- One turn of the loop of `Extend`: the lower half is copied to the upper. -/
def extendAxis (t : TruthTable) : TruthTable :=
  ⟨t.degree + 1, t.cells ++ t.cells, by
    rw [List.length_append, t.length_cells, Nat.pow_succ, Nat.mul_two]⟩

/-- `Extend( new_degree )`, by the number of new axes. -/
def extend : Nat → TruthTable → TruthTable
  | 0, t => t
  | n + 1, t => extend n t.extendAxis

/-- One cell of `GetFolded`: the highest of those over the fold axes. -/
def foldedCell (t : TruthTable) (destAxes : List Nat) (destIndices : List Bool) :
    Option CellType := do
  let destMap ← zipToMap destAxes destIndices
  let visits ← visit t.degree destMap
  let cellsToFold ← visits.mapM t.get
  CellType.maxElement cellsToFold

/-- The axes that are left. -/
def destAxes (degree : Nat) (foldAxes : Finset Nat) : List Nat :=
  (List.range degree).filter (fun i => decide (i ∉ foldAxes))

/-- `GetFolded`. -/
def getFolded (t : TruthTable) (foldAxes : Finset Nat) : Option TruthTable := do
  ASSERT (foldAxes.card ≤ t.degree)
  let destAxes := destAxes t.degree foldAxes
  ASSERT (destAxes.length + foldAxes.card = t.degree)
  (forPower destAxes.length indexRangeBool).foldlM
    (fun dest destIndices => do
      let foldedCell ← t.foldedCell destAxes destIndices
      dest.set destIndices foldedCell)
    (make destAxes.length .FALSE)

/-! ## §2. Cells. -/

theorem get_eq (t : TruthTable) {v : List Bool} (hv : v.length = t.degree) :
    t.get v = t.cells[bitsValue v]? := by
  unfold get getCellIndex
  rw [ASSERT_pos hv]
  rfl

theorem get_isSome (t : TruthTable) {v : List Bool} (hv : v.length = t.degree) :
    ∃ c, t.get v = some c := by
  have hlt : bitsValue v < t.cells.length := by
    rw [t.length_cells, ← hv]
    exact bitsValue_lt v
  exact ⟨_, (t.get_eq hv).trans (List.getElem?_eq_getElem hlt)⟩

theorem get_make {degree : Nat} (c : CellType) {v : List Bool} (hv : v.length = degree) :
    (make degree c).get v = some c := by
  rw [get_eq _ hv]
  have hlt : bitsValue v < 2 ^ degree := by
    rw [← hv]
    exact bitsValue_lt v
  show (List.replicate (2 ^ degree) c)[bitsValue v]? = some c
  rw [List.getElem?_replicate, if_pos hlt]

/-- **`Set` changes one cell.** -/
theorem get_set (t : TruthTable) {v : List Bool} (hv : v.length = t.degree) (c : CellType) :
    ∃ t', t.set v c = some t' ∧ t'.degree = t.degree
      ∧ ∀ w, w.length = t.degree → t'.get w = if w = v then some c else t.get w := by
  have hlt : bitsValue v < t.cells.length := by
    rw [t.length_cells, ← hv]
    exact bitsValue_lt v
  refine ⟨⟨t.degree, t.cells.set (bitsValue v) c, by rw [List.length_set, t.length_cells]⟩,
    ?_, rfl, ?_⟩
  · unfold set getCellIndex
    rw [ASSERT_pos hv]
    show (ASSERT (bitsValue v < t.cells.length)).bind _ = _
    rw [ASSERT_pos hlt]
    rfl
  · intro w hw
    rw [t.get_eq hw]
    refine (get_eq ⟨t.degree, t.cells.set (bitsValue v) c, _⟩ hw).trans ?_
    show (t.cells.set (bitsValue v) c)[bitsValue w]? = _
    rw [List.getElem?_set]
    by_cases hwv : w = v
    · rw [if_pos (congrArg bitsValue hwv.symm), if_pos hlt, if_pos hwv]
    · rw [if_neg hwv, if_neg]
      intro hbits
      exact hwv (bitsValue_injective v (hw.trans hv.symm) hbits.symm)

/-- A loop that sets every cell of a list to a value of its own. -/
theorem foldlM_setCells (f : List Bool → Option CellType) (vs : List (List Bool)) :
    ∀ t : TruthTable, (∀ v ∈ vs, v.length = t.degree ∧ ∃ c, f v = some c) →
    ∃ t', vs.foldlM (fun t v => (f v).bind fun c => t.set v c) t = some t'
      ∧ t'.degree = t.degree
      ∧ ∀ w, w.length = t.degree → t'.get w = if w ∈ vs then f w else t.get w := by
  induction vs with
  | nil =>
      intro t _
      exact ⟨t, rfl, rfl, by simp⟩
  | cons v vs ih =>
      intro t hvs
      obtain ⟨hlen, c, hc⟩ := hvs v List.mem_cons_self
      obtain ⟨t₁, hset, hdeg, hget⟩ := t.get_set hlen c
      obtain ⟨t', hfold, hdeg', hget'⟩ := ih t₁ (by
        intro w hw
        rw [hdeg]
        exact hvs w (List.mem_cons_of_mem v hw))
      refine ⟨t', ?_, hdeg'.trans hdeg, ?_⟩
      · rw [List.foldlM_cons, hc]
        show (t.set v c).bind _ = _
        rw [hset]
        exact hfold
      · intro w hw
        rw [hget' w (hw.trans hdeg.symm), hget w hw]
        -- a cell that is set again later has the last value, which is the same
        by_cases hwvs : w ∈ vs
        · rw [if_pos hwvs, if_pos (List.mem_cons_of_mem v hwvs)]
        · rw [if_neg hwvs]
          by_cases hwv : w = v
          · rw [if_pos hwv, if_pos (hwv ▸ List.mem_cons_self), hwv, hc]
          · rw [if_neg hwv, if_neg (by
              rw [List.mem_cons, not_or]
              exact ⟨hwv, hwvs⟩)]

/-! ## §3. Slices. -/

theorem mem_freeAxes {degree i : Nat} {slice : SliceSpec} :
    i ∈ freeAxes degree slice ↔ i < degree ∧ i ∉ slice.keys := by
  unfold freeAxes
  rw [List.mem_filter, List.mem_range, decide_eq_true_iff]

theorem nodup_freeAxes (degree : Nat) (slice : SliceSpec) : (freeAxes degree slice).Nodup :=
  List.nodup_range.filter _

/-- The axes in and out of a set are all the axes. -/
theorem length_filter_notMem {degree : Nat} {axes : Finset Nat} (h : ∀ i ∈ axes, i < degree) :
    ((List.range degree).filter (fun i => decide (i ∉ axes))).length + axes.card = degree := by
  have hnodup := (List.nodup_range (n := degree)).filter (fun i => decide (i ∉ axes))
  have hcard : ((List.range degree).filter (fun i => decide (i ∉ axes))).length
      = (Finset.range degree \ axes).card := by
    rw [← List.toFinset_card_of_nodup hnodup]
    congr 1
    ext i
    simp
  rw [hcard, Finset.card_sdiff_add_card_eq_card, Finset.card_range]
  intro i hi
  exact Finset.mem_range.mpr (h i hi)

/-- A vector matches an entry more; one for a key that was there already says nothing. -/
theorem matches_insertNew (slice : SliceSpec) (i : Nat) (b : Bool) (w : List Bool) :
    SliceSpec.Matches (slice.insertNew i b) w
      ↔ slice.Matches w ∧ (i ∈ slice.keys ∨ w[i]? = some b) := by
  by_cases hi : i ∈ slice.keys
  · rw [StdMap.insertNew, if_pos hi]
    exact ⟨fun h => ⟨h, Or.inl hi⟩, fun h => h.1⟩
  · rw [StdMap.insertNew_of_notMem b hi]
    unfold SliceSpec.Matches
    rw [StdMap.keys_set, Finset.forall_mem_insert, StdMap.lookup_set, if_pos rfl]
    have hrest : (∀ x ∈ slice.keys, w[x]? = (StdMap.set slice i b).lookup x)
        ↔ ∀ x ∈ slice.keys, w[x]? = slice.lookup x := by
      apply forall₂_congr
      intro x hx
      have hne : x ≠ i := fun heq => hi (heq ▸ hx)
      rw [StdMap.lookup_set, if_neg hne]
    rw [hrest]
    constructor
    · exact fun h => ⟨h.2, Or.inr h.1⟩
    · exact fun h => ⟨h.2.resolve_left hi, h.1⟩

/-- A map made of two lists of one length: each key has its value. -/
theorem zipToMap_spec {keys : List Nat} {values : List Bool} (hlen : keys.length = values.length)
    (hnodup : keys.Nodup) :
    ∃ m, zipToMap keys values = some m ∧ (∀ k, k ∈ m.keys ↔ k ∈ keys)
      ∧ ∀ j k : Nat, keys[j]? = some k → m.lookup k = values[j]? := by
  have hfst : (keys.zip values).map Prod.fst = keys :=
    List.map_fst_zip (Nat.le_of_eq hlen)
  have hfold := StdMap.lookup_foldl_set (Prod.fst : Nat × Bool → Nat) Prod.snd
    (keys.zip values) StdMap.empty
  rw [hfst] at hfold
  refine ⟨(keys.zip values).foldl (fun m p => m.set p.1 p.2) StdMap.empty, ?_, ?_, ?_⟩
  · unfold zipToMap
    rw [ASSERT_pos hlen]
    show (ASSERT keys.Nodup).bind _ = _
    rw [ASSERT_pos hnodup]
    rfl
  · -- the keys are those of the first list
    intro k
    rw [StdMap.mem_keys]
    by_cases hk : k ∈ keys
    · obtain ⟨p, _, _, hlookup⟩ := (hfold k).2 hk
      simp [hlookup, hk]
    · simp [(hfold k).1 hk, hk]
  · intro j k hk
    obtain ⟨p, hp, hpk, hlookup⟩ := (hfold k).2 (List.mem_of_getElem? hk)
    rw [hlookup]
    obtain ⟨j', hj'⟩ := List.getElem?_of_mem hp
    have hzip := List.getElem?_zip_eq_some.mp hj'
    -- one place for each key
    have hjj : j' = j := by
      rw [hpk, ← hk] at hzip
      have hlt : j' < keys.length := by
        rw [hk] at hzip
        exact (List.getElem?_eq_some_iff.mp hzip.1).1
      exact (List.getElem?_inj hlt hnodup).mp hzip.1
    rw [← hjj, hzip.2]

theorem scatterInto_spec (destVec : List Bool) (m : SliceSpec)
    (h : ∀ k ∈ m.keys, k < destVec.length) :
    ∃ v, scatterInto destVec m = some v ∧ v.length = destVec.length
      ∧ ∀ i : Nat, i < destVec.length →
          v[i]? = if i ∈ m.keys then m.lookup i else destVec[i]? := by
  refine ⟨destVec.mapIdx (fun i b => (m.lookup i).getD b), ?_, List.length_mapIdx, ?_⟩
  · unfold scatterInto
    rw [ASSERT_pos h]
    rfl
  · intro i hi
    rw [List.getElem?_mapIdx, List.getElem?_eq_getElem hi]
    by_cases hk : i ∈ m.keys
    · obtain ⟨b, hb⟩ := StdMap.exists_of_mem_keys hk
      rw [if_pos hk, hb]
      rfl
    · rw [if_neg hk, StdMap.lookup_eq_none.mpr hk]
      rfl

/-- **One pass of a slice operation's loop**: the full indices are in the slice, and have
the pass's values at the free axes. -/
theorem pass_spec {degree : Nat} {slice : SliceSpec} (h : ∀ k ∈ slice.keys, k < degree)
    {base : List Bool} (hbase : scatterInto (List.replicate degree false) slice = some base)
    {f : List Bool} (hf : f.length = (freeAxes degree slice).length) :
    ∃ w, ((zipToMap (freeAxes degree slice) f).bind fun freeMap => scatterInto base freeMap)
        = some w
      ∧ w.length = degree ∧ slice.Matches w
      ∧ ∀ j k : Nat, (freeAxes degree slice)[j]? = some k → w[k]? = f[j]? := by
  -- the full indices start from the slice's values, and the free axes are filled in
  obtain ⟨base', hbase', hlenBase, hgetBase⟩ :=
    scatterInto_spec (List.replicate degree false) slice (by
      intro k hk
      rw [List.length_replicate]
      exact h k hk)
  obtain rfl := Option.some.inj (hbase'.symm.trans hbase)
  rw [List.length_replicate] at hlenBase hgetBase
  obtain ⟨m, hm, hkeys, hlookup⟩ := zipToMap_spec hf.symm (nodup_freeAxes degree slice)
  obtain ⟨w, hw, hlenW, hgetW⟩ := scatterInto_spec base' m (by
    intro k hk
    rw [hlenBase]
    exact (mem_freeAxes.mp ((hkeys k).mp hk)).1)
  rw [hlenBase] at hlenW hgetW
  refine ⟨w, ?_, hlenW, ?_, ?_⟩
  · rw [hm]
    exact hw
  · intro i hi
    -- a key of the slice is no free axis
    have hfree : i ∉ m.keys := by
      rw [hkeys]
      intro hmem
      exact (mem_freeAxes.mp hmem).2 hi
    rw [hgetW i (h i hi), if_neg hfree, hgetBase i (h i hi), if_pos hi]
  · intro j k hk
    have hmem : k ∈ freeAxes degree slice := List.mem_of_getElem? hk
    rw [hgetW k (mem_freeAxes.mp hmem).1, if_pos ((hkeys k).mpr hmem), hlookup j k hk]

/-- The values that a vector has at the free axes. -/
def atFree (degree : Nat) (slice : SliceSpec) (w : List Bool) : List Bool :=
  (freeAxes degree slice).map (fun i => w[i]?.getD false)

theorem length_atFree (degree : Nat) (slice : SliceSpec) (w : List Bool) :
    (atFree degree slice w).length = (freeAxes degree slice).length :=
  List.length_map _

/-- The free values and the slice say all of a vector. -/
theorem eq_of_atFree {degree : Nat} {slice : SliceSpec} {w w' f : List Bool}
    (hlen : w.length = degree) (hlen' : w'.length = degree) (hmatch : slice.Matches w)
    (hmatch' : slice.Matches w') (hf : atFree degree slice w = f)
    (hw' : ∀ j k : Nat, (freeAxes degree slice)[j]? = some k → w'[k]? = f[j]?) : w' = w := by
  apply List.ext_getElem?
  intro i
  by_cases hi : i < degree
  · by_cases hk : i ∈ slice.keys
    · rw [hmatch i hk, hmatch' i hk]
    · obtain ⟨j, hj⟩ := List.getElem?_of_mem (mem_freeAxes.mpr ⟨hi, hk⟩)
      rw [hw' j i hj, ← hf, atFree, List.getElem?_map, hj, Option.map_some,
        List.getElem?_eq_getElem (hlen ▸ hi)]
      rfl
  · rw [List.getElem?_eq_none (by omega), List.getElem?_eq_none (by omega)]

/-- **The loop of the slice operations visits the slice**, whichever fixed indices. -/
theorem visit_spec (degree : Nat) (slice : SliceSpec)
    (h : ∀ k ∈ slice.keys, k < degree) :
    ∃ visits, visit degree slice = some visits
      ∧ ∀ w, w ∈ visits ↔ w.length = degree ∧ slice.Matches w := by
  have hcard : (freeAxes degree slice).length + slice.keys.card = degree :=
    length_filter_notMem h
  -- the free axes are filled in the order of their numbers
  obtain ⟨base, hbase, _⟩ :=
    scatterInto_spec (List.replicate degree false) slice (by
      intro k hk
      rw [List.length_replicate]
      exact h k hk)
  have hpass (f : List Bool) (hf : f ∈ forPower (freeAxes degree slice).length indexRangeBool) :=
    pass_spec h hbase (mem_forPower_bool.mp hf)
  obtain ⟨visits, hvisits, hmem⟩ := exists_mapM _ _ (fun f hf => (hpass f hf).imp fun _ hw => hw.1)
  refine ⟨visits, ?_, ?_⟩
  · unfold visit
    rw [ASSERT_pos (by rw [← hcard]; exact Nat.le_add_left _ _)]
    show (ASSERT ((freeAxes degree slice).length + slice.keys.card = degree)).bind _ = _
    rw [ASSERT_pos hcard]
    show (scatterInto (List.replicate degree false) slice).bind _ = _
    rw [hbase]
    exact hvisits
  · -- each pass reaches an element of the slice
    intro w
    rw [hmem]
    constructor
    · intro hw
      obtain ⟨f, hf, hfw⟩ := hw
      obtain ⟨w', hw', hlen, hmatch, _⟩ := hpass f hf
      rw [hw'] at hfw
      obtain rfl := Option.some.inj hfw
      exact ⟨hlen, hmatch⟩
    · intro hw
      -- the values of `w` at the free axes reach `w`
      have hf : atFree degree slice w ∈ forPower (freeAxes degree slice).length indexRangeBool := by
        rw [mem_forPower_bool, length_atFree]
      obtain ⟨w', hw', hlen', hmatch', hfree⟩ := hpass _ hf
      refine ⟨_, hf, ?_⟩
      rw [hw', eq_of_atFree hw.1 hlen' hw.2 hmatch' rfl hfree]

/-- **`SetSlice`** changes the cells of the slice. -/
theorem get_setSlice (t : TruthTable) {slice : SliceSpec} (h : ∀ k ∈ slice.keys, k < t.degree)
    (c : CellType) :
    ∃ t', t.setSlice slice c = some t' ∧ t'.degree = t.degree
      ∧ ∀ w, w.length = t.degree → t'.get w = if slice.Matches w then some c else t.get w := by
  obtain ⟨visits, hvisits, hmem⟩ := visit_spec t.degree slice h
  obtain ⟨t', hfold, hdeg, hget⟩ := foldlM_setCells (fun _ => some c) visits t
    (fun v hv => ⟨((hmem v).mp hv).1, c, rfl⟩)
  refine ⟨t', ?_, hdeg, ?_⟩
  · unfold setSlice
    rw [hvisits]
    exact hfold
  · intro w hw
    rw [hget w hw]
    by_cases hmatch : slice.Matches w
    · rw [if_pos hmatch, if_pos ((hmem w).mpr ⟨hw, hmatch⟩)]
    · rw [if_neg hmatch, if_neg (fun hv => hmatch ((hmem w).mp hv).2)]

/-! ## §4. Extending and folding. -/

theorem degree_extend (n : Nat) : ∀ t : TruthTable, (extend n t).degree = t.degree + n := by
  induction n with
  | zero => exact fun _ => rfl
  | succ n ih =>
      intro t
      unfold extend
      rw [ih]
      show t.degree + 1 + n = t.degree + (n + 1)
      omega

/-- **`Extend`**: the cells do not depend on the new axes. -/
theorem get_extend (w : List Bool) : ∀ (t : TruthTable) {v : List Bool},
    v.length = t.degree → (extend w.length t).get (v ++ w) = t.get v := by
  induction w with
  | nil =>
      intro t v _
      rw [List.append_nil]
      rfl
  | cons b w ih =>
      intro t v hv
      have hv' : (v ++ [b]).length = t.extendAxis.degree := by
        rw [List.length_append, hv]
        rfl
      -- the new axis is the highest bit, and the cells are there twice
      have hstep : t.extendAxis.get (v ++ [b]) = t.get v := by
        have hlt : bitsValue v < t.cells.length := by
          rw [t.length_cells, ← hv]
          exact bitsValue_lt v
        rw [get_eq _ hv', t.get_eq hv]
        show (t.cells ++ t.cells)[bitsValue (v ++ [b])]? = t.cells[bitsValue v]?
        rw [bitsValue_append, hv, ← t.length_cells]
        cases b with
        | false =>
            show (t.cells ++ t.cells)[bitsValue v + t.cells.length * 0]? = _
            rw [Nat.mul_zero, Nat.add_zero, List.getElem?_append_left hlt]
        | true =>
            show (t.cells ++ t.cells)[bitsValue v + t.cells.length * 1]? = _
            rw [Nat.mul_one, List.getElem?_append_right (Nat.le_add_left _ _),
              Nat.add_sub_cancel]
      rw [← hstep, ← ih t.extendAxis hv', List.append_assoc]
      rfl

/-- The highest cell is one of the cells, and no cell is higher. -/
theorem maxElement_spec {cs : List CellType} (h : cs ≠ []) :
    ∃ c, CellType.maxElement cs = some c ∧ c ∈ cs ∧ ∀ d ∈ cs, d.value ≤ c.value := by
  have hfold (cs : List CellType) : ∀ c : CellType,
      (cs.foldl (fun a b => if a.value < b.value then b else a) c ∈ c :: cs)
      ∧ ∀ d ∈ c :: cs,
        d.value ≤ (cs.foldl (fun a b => if a.value < b.value then b else a) c).value := by
    -- an invariant of the loop
    induction cs with
    | nil => simp
    | cons b cs ih =>
        intro c
        rw [List.foldl_cons]
        obtain ⟨hmem, hmax⟩ := ih (if c.value < b.value then b else c)
        by_cases hlt : c.value < b.value
        · rw [if_pos hlt] at hmem hmax ⊢
          refine ⟨List.mem_cons_of_mem c hmem, ?_⟩
          intro d hd
          rcases List.mem_cons.mp hd with rfl | hd
          · exact Int.le_trans (Int.le_of_lt hlt) (hmax b List.mem_cons_self)
          · exact hmax d hd
        · rw [if_neg hlt] at hmem hmax ⊢
          refine ⟨?_, ?_⟩
          · rcases List.mem_cons.mp hmem with hmem | hmem
            · rw [hmem]
              exact List.mem_cons_self
            · exact List.mem_cons_of_mem c (List.mem_cons_of_mem b hmem)
          · intro d hd
            rcases List.mem_cons.mp hd with rfl | hd
            · exact hmax d List.mem_cons_self
            · rcases List.mem_cons.mp hd with rfl | hd
              · exact Int.le_trans (Int.not_lt.mp hlt) (hmax c List.mem_cons_self)
              · exact hmax d (List.mem_cons_of_mem c hd)
  cases cs with
  | nil => exact absurd rfl h
  | cons c cs => exact ⟨_, rfl, (hfold cs c).1, (hfold cs c).2⟩

/-- The indices `w` of the whole table are `v` at the axes that are left. -/
def Restricts (axes : List Nat) (w v : List Bool) : Prop :=
  ∀ j k : Nat, axes[j]? = some k → w[k]? = v[j]?

/-- **One folded cell**: the highest of the cells that restrict to it. -/
theorem foldedCell_spec (t : TruthTable) {axes : List Nat} {v : List Bool}
    (hlen : v.length = axes.length) (hnodup : axes.Nodup) (haxes : ∀ k ∈ axes, k < t.degree) :
    ∃ c, t.foldedCell axes v = some c
      ∧ (∃ w, w.length = t.degree ∧ Restricts axes w v ∧ t.get w = some c)
      ∧ ∀ w d, w.length = t.degree → Restricts axes w v → t.get w = some d →
          d.value ≤ c.value := by
  obtain ⟨m, hm, hkeys, hlookup⟩ := zipToMap_spec hlen.symm hnodup
  obtain ⟨visits, hvisits, hmem⟩ := visit_spec t.degree m (by
    intro k hk
    exact haxes k ((hkeys k).mp hk))
  -- the map fixes the axes that stay
  have hrestricts (w : List Bool) : SliceSpec.Matches m w ↔ Restricts axes w v := by
    constructor
    · intro hw j k hk
      rw [hw k ((hkeys k).mpr (List.mem_of_getElem? hk)), hlookup j k hk]
    · intro hw k hk
      obtain ⟨j, hj⟩ := List.getElem?_of_mem ((hkeys k).mp hk)
      rw [hw j k hj, hlookup j k hj]
  obtain ⟨cs, hcs, hmemCs⟩ := exists_mapM t.get visits (by
    intro w hw
    exact t.get_isSome ((hmem w).mp hw).1)
  -- the slice has a cell
  have hne : cs ≠ [] := by
    obtain ⟨w, hw, hlenW, hgetW⟩ :=
      scatterInto_spec (List.replicate t.degree false) m (by
        intro k hk
        rw [List.length_replicate]
        exact haxes k ((hkeys k).mp hk))
    rw [List.length_replicate] at hlenW hgetW
    have hvisit : w ∈ visits := by
      rw [hmem]
      refine ⟨hlenW, ?_⟩
      intro k hk
      rw [hgetW k (haxes k ((hkeys k).mp hk)), if_pos hk]
    obtain ⟨c, hc⟩ := t.get_isSome hlenW
    exact List.ne_nil_of_mem ((hmemCs c).mpr ⟨w, hvisit, hc⟩)
  obtain ⟨c, hc, hcmem, hmax⟩ := maxElement_spec hne
  refine ⟨c, ?_, ?_, ?_⟩
  · unfold foldedCell
    rw [hm]
    show (visit t.degree m).bind _ = _
    rw [hvisits]
    show (visits.mapM t.get).bind _ = _
    rw [hcs]
    exact hc
  · obtain ⟨w, hw, hget⟩ := (hmemCs c).mp hcmem
    exact ⟨w, ((hmem w).mp hw).1, (hrestricts w).mp ((hmem w).mp hw).2, hget⟩
  · intro w d hw hres hget
    exact hmax d ((hmemCs d).mpr ⟨w, (hmem w).mpr ⟨hw, (hrestricts w).mpr hres⟩, hget⟩)

/-- **`GetFolded`**: each cell is the highest of those that restrict to it. -/
theorem get_getFolded (t : TruthTable) {foldAxes : Finset Nat} (h : ∀ k ∈ foldAxes, k < t.degree) :
    ∃ t', t.getFolded foldAxes = some t' ∧ t'.degree = (destAxes t.degree foldAxes).length
      ∧ ∀ v, v.length = t'.degree → ∃ c, t'.get v = some c
        ∧ (∃ w, w.length = t.degree ∧ Restricts (destAxes t.degree foldAxes) w v
            ∧ t.get w = some c)
        ∧ ∀ w d, w.length = t.degree → Restricts (destAxes t.degree foldAxes) w v →
            t.get w = some d → d.value ≤ c.value := by
  -- the axes that stay are different axes of the table
  have hcard : (destAxes t.degree foldAxes).length + foldAxes.card = t.degree :=
    length_filter_notMem h
  have hnodup : (destAxes t.degree foldAxes).Nodup := List.nodup_range.filter _
  have haxes : ∀ k ∈ destAxes t.degree foldAxes, k < t.degree := by
    intro k hk
    exact List.mem_range.mp (List.mem_filter.mp hk).1
  have hcell (v : List Bool) (hv : v.length = (destAxes t.degree foldAxes).length) :=
    t.foldedCell_spec hv hnodup haxes
  obtain ⟨t', hfold, hdeg, hget⟩ := foldlM_setCells
    (t.foldedCell (destAxes t.degree foldAxes))
    (forPower (destAxes t.degree foldAxes).length indexRangeBool)
    (make (destAxes t.degree foldAxes).length .FALSE) (by
      intro v hv
      rw [mem_forPower_bool] at hv
      exact ⟨hv, (hcell v hv).imp fun _ hc => hc.1⟩)
  refine ⟨t', ?_, hdeg, ?_⟩
  · unfold getFolded
    rw [ASSERT_pos (by omega)]
    show (ASSERT ((destAxes t.degree foldAxes).length + foldAxes.card = t.degree)).bind _ = _
    rw [ASSERT_pos hcard]
    exact hfold
  · intro v hv
    have hv : v.length = (destAxes t.degree foldAxes).length := hv.trans hdeg
    obtain ⟨c, hc, hex, hmax⟩ := hcell v hv
    refine ⟨c, ?_, hex, hmax⟩
    rw [hget v hv, if_pos (mem_forPower_bool.mpr hv), hc]

end TruthTable

end Inferno.SYM
