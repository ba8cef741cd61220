/-
  Inferno.SYM.Karnaugh
  ────────────────────
  Karnaugh slices of a truth table.

    • `countInSlice`              — the cells of one value in a slice,
    • `tryFindBestKarnaughSlice`  — the best of the slices that have no cross of the table
                                    and bring in a tick that is not covered yet,
    • `tryFindBestKarnaughSlice_spec` — what it returns is such a slice, and it returns one
                                    while a tick of the table is not covered.
-/
import Inferno.SYM.TruthTable

namespace Inferno.SYM

open Inferno.Common

/-! ## §1. The search. -/

/-- `KarnaughClass`. -/
inductive KarnaughClass where
  | FREE
  | FALSE
  | TRUE
deriving DecidableEq

/-- `index_range_kc`: `FREE` first so that the biggest slices are tried first. -/
def indexRangeKc : List KarnaughClass := [.FREE, .TRUE, .FALSE]

/-- The index that a class fixes. -/
def KarnaughClass.index : KarnaughClass → Option Bool
  | FREE => none
  | FALSE => some false
  | TRUE => some true

/-- `candidate_slice`: a slice across the `FREE` axes, located by the other ones. -/
def candidateSlice (kClasses : List KarnaughClass) : SliceSpec :=
  kClasses.zipIdx.foldl (fun slice c =>
    match c.1.index with
    | none => slice
    | some b => slice.set c.2 b) StdMap.empty

/-- `best_slice`, `best_counts` and `best_new_count`. -/
structure BestSlice where
  slice : Option SliceSpec
  counts : KarnaughClass → Int
  newCount : Int

namespace TruthTable

/-- `CountInSlice`. -/
def countInSlice (t : TruthTable) (slice : SliceSpec) (targetValue : CellType) : Option Nat := do
  let visits ← visit t.degree slice
  visits.foldlM (fun count fullIndices => do
    let c ← t.get fullIndices
    some (if c = targetValue then count + 1 else count)) 0

/-- The DESIRABLE conditions: more new ticks covered, else a higher dimension, else more
ticks. -/
def isBetter (preferredClass : KarnaughClass) (newCount : Int) (counts : KarnaughClass → Int)
    (best : BestSlice) : Prop :=
  newCount > best.newCount
    ∨ (newCount = best.newCount ∧ counts .FREE > best.counts .FREE)
    ∨ (newCount = best.newCount ∧ counts .FREE = best.counts .FREE
      ∧ counts preferredClass > best.counts preferredClass)

instance (preferredClass : KarnaughClass) (newCount : Int) (counts : KarnaughClass → Int)
    (best : BestSlice) : Decidable (isBetter preferredClass newCount counts best) := by
  unfold isBetter
  infer_instance

/-- One candidate, with the NECESSARY conditions: no crosses in the table, and a target
cell that is new. -/
def tryCandidate (t soFar : TruthTable) (targetValue avoidValue : CellType)
    (preferredClass : KarnaughClass) (best : BestSlice) (kClasses : List KarnaughClass) :
    Option BestSlice := do
  let slice := candidateSlice kClasses
  let counts : KarnaughClass → Int := fun c => kClasses.count c
  let newCount ← soFar.countInSlice slice targetValue
  let crosses ← t.countInSlice slice avoidValue
  if (crosses = 0 ∧ newCount > 0) ∧ isBetter preferredClass newCount counts best then
    some ⟨some slice, counts, newCount⟩
  else some best

/-- **`TryFindBestKarnaughSlice`**; the inner `none` is `nullptr`. -/
def tryFindBestKarnaughSlice (t : TruthTable) (targetValue : CellType) (preferredIndex : Bool)
    (soFar : TruthTable) : Option (Option SliceSpec) := do
  let avoidValue : CellType := if targetValue = .TRUE then .FALSE else .TRUE
  let preferredClass : KarnaughClass := if preferredIndex then .TRUE else .FALSE
  let best ← (forPower t.degree indexRangeKc).foldlM
    (tryCandidate t soFar targetValue avoidValue preferredClass) ⟨none, fun _ => -1, -1⟩
  some best.slice

/-! ## §2. Counting. -/

variable {t soFar : TruthTable} {slice : SliceSpec} {targetValue avoidValue : CellType}
  {preferredClass : KarnaughClass}

/-- The count is positive iff a cell of the slice has the value. -/
theorem countInSlice_spec (t : TruthTable) {slice : SliceSpec}
    (h : ∀ k ∈ slice.keys, k < t.degree) (targetValue : CellType) :
    ∃ n, t.countInSlice slice targetValue = some n
      ∧ (0 < n ↔ ∃ w, w.length = t.degree ∧ slice.Matches w ∧ t.get w = some targetValue) := by
  obtain ⟨visits, hvisits, hmem⟩ := visit_spec t.degree slice h
  -- the loop counts up at the cells that have the value
  have hfold : ∀ (vs : List (List Bool)) (count : Nat), (∀ v ∈ vs, v.length = t.degree) →
      ∃ n, vs.foldlM (fun count fullIndices => do
          let c ← t.get fullIndices
          some (if c = targetValue then count + 1 else count)) count = some n
        ∧ (0 < n ↔ 0 < count ∨ ∃ v ∈ vs, t.get v = some targetValue) := by
    intro vs
    induction vs with
    | nil => exact fun count _ => ⟨count, rfl, by simp⟩
    | cons v vs ih =>
        intro count hvs
        obtain ⟨c, hc⟩ := t.get_isSome (hvs v List.mem_cons_self)
        obtain ⟨n, hn, hpos⟩ := ih (if c = targetValue then count + 1 else count)
          (fun w hw => hvs w (List.mem_cons_of_mem v hw))
        refine ⟨n, ?_, ?_⟩
        · rw [List.foldlM_cons, hc]
          exact hn
        · rw [hpos, List.exists_mem_cons_iff, hc, Option.some.injEq]
          by_cases hcv : c = targetValue
          · simp [hcv]
          · simp [hcv]
  obtain ⟨n, hn, hpos⟩ := hfold visits 0 (fun v hv => ((hmem v).mp hv).1)
  refine ⟨n, ?_, ?_⟩
  · unfold countInSlice
    rw [hvisits]
    exact hn
  · rw [hpos]
    simp only [Nat.lt_irrefl, false_or, hmem]
    constructor
    · intro hw
      obtain ⟨w, hw, hget⟩ := hw
      exact ⟨w, hw.1, hw.2, hget⟩
    · intro hw
      obtain ⟨w, hlen, hmatch, hget⟩ := hw
      exact ⟨w, ⟨hlen, hmatch⟩, hget⟩

/-! ## §3. Candidates. -/

theorem lookup_foldl_candidate (kClasses : List KarnaughClass) :
    ∀ (n : Nat) (m : SliceSpec) (i : Nat),
      ((kClasses.zipIdx n).foldl (fun slice c =>
        match c.1.index with
        | none => slice
        | some b => slice.set c.2 b) m).lookup i
      = if n ≤ i then ((kClasses[i - n]?).bind KarnaughClass.index).or (m.lookup i)
        else m.lookup i := by
  induction kClasses with
  | nil => intro n m i; simp
  | cons c kClasses ih =>
      intro n m i
      rw [List.zipIdx_cons, List.foldl_cons, ih]
      have hstep : (match c.index with | none => m | some b => m.set n b).lookup i
          = if i = n then c.index.or (m.lookup i) else m.lookup i := by
        cases hc : c.index with
        | none => simp
        | some b => simp [StdMap.lookup_set]
      dsimp only
      rw [hstep]
      rcases Nat.lt_trichotomy i n with hlt | rfl | hgt
      · rw [if_neg (by omega), if_neg (by omega), if_neg (by omega)]
      · rw [if_neg (by omega), if_pos rfl, if_pos (le_refl i), Nat.sub_self]
        rfl
      · rw [if_pos (by omega), if_neg (by omega), if_pos (by omega)]
        have hsub : i - n = (i - (n + 1)) + 1 := by omega
        rw [hsub, List.getElem?_cons_succ]

/-- The candidate fixes the axes that are not free. -/
theorem lookup_candidateSlice (kClasses : List KarnaughClass) (i : Nat) :
    (candidateSlice kClasses).lookup i = (kClasses[i]?).bind KarnaughClass.index := by
  unfold candidateSlice
  rw [lookup_foldl_candidate, if_pos (Nat.zero_le i), Nat.sub_zero]
  simp

theorem candidateSlice_keys {kClasses : List KarnaughClass} {i : Nat}
    (h : i ∈ (candidateSlice kClasses).keys) : i < kClasses.length := by
  obtain ⟨b, hb⟩ := StdMap.exists_of_mem_keys h
  rw [lookup_candidateSlice] at hb
  obtain ⟨c, hc, _⟩ := Option.bind_eq_some_iff.mp hb
  exact (List.getElem?_eq_some_iff.mp hc).1

/-- The classes of a single cell. -/
def classesOf (w : List Bool) : List KarnaughClass :=
  w.map fun b => if b then .TRUE else .FALSE

/-- Its slice is that cell. -/
theorem matches_classesOf {w v : List Bool} (hlen : v.length = w.length) :
    SliceSpec.Matches (candidateSlice (classesOf w)) v ↔ v = w := by
  have hlookup : ∀ i, (candidateSlice (classesOf w)).lookup i = w[i]? := by
    intro i
    rw [lookup_candidateSlice]
    unfold classesOf
    rw [List.getElem?_map]
    cases w[i]? with
    | none => rfl
    | some b => cases b <;> rfl
  constructor
  · intro h
    refine List.ext_getElem? ?_
    intro i
    by_cases hi : i < w.length
    · have hkey : i ∈ (candidateSlice (classesOf w)).keys := by
        rw [StdMap.mem_keys, hlookup, List.getElem?_eq_getElem hi]
        rfl
      rw [h i hkey, hlookup]
    · rw [List.getElem?_eq_none (by omega), List.getElem?_eq_none (by omega)]
  · rintro rfl i _
    rw [hlookup]

theorem mem_forPower_kc {degree : Nat} {kClasses : List KarnaughClass} :
    kClasses ∈ forPower degree indexRangeKc ↔ kClasses.length = degree := by
  rw [mem_forPower (by decide)]
  constructor
  · exact fun h => h.1
  · intro h
    refine ⟨h, ?_⟩
    intro c _
    cases c <;> decide

/-! ## §4. The best slice. -/

/-- **A slice that improves**: no cross of the table, and a new tick. -/
structure Improves (t soFar : TruthTable) (targetValue avoidValue : CellType)
    (slice : SliceSpec) : Prop where
  keys : ∀ k ∈ slice.keys, k < t.degree
  no_cross : ∀ w, w.length = t.degree → slice.Matches w → t.get w ≠ some avoidValue
  new_tick : ∃ w, w.length = t.degree ∧ slice.Matches w ∧ soFar.get w = some targetValue

/-- **What the search knows** after some candidates. -/
structure Searched (t soFar : TruthTable) (targetValue avoidValue : CellType)
    (tried : List (List KarnaughClass)) (best : BestSlice) : Prop where
  sound : ∀ slice, best.slice = some slice → Improves t soFar targetValue avoidValue slice
  initial : best.slice = none → best.newCount = -1
  complete : ∀ kClasses ∈ tried,
    Improves t soFar targetValue avoidValue (candidateSlice kClasses) → best.slice ≠ none

/-- **One candidate.** -/
theorem tryCandidate_spec (preferredClass : KarnaughClass) (hdeg : soFar.degree = t.degree)
    {tried : List (List KarnaughClass)}
    {best : BestSlice} {kClasses : List KarnaughClass} (hlen : kClasses.length = t.degree)
    (h : Searched t soFar targetValue avoidValue tried best) :
    ∃ best', tryCandidate t soFar targetValue avoidValue preferredClass best kClasses = some best'
      ∧ Searched t soFar targetValue avoidValue (tried ++ [kClasses]) best' := by
  have hkeys : ∀ k ∈ (candidateSlice kClasses).keys, k < t.degree :=
    fun k hk => hlen ▸ candidateSlice_keys hk
  obtain ⟨newCount, hnew, hnewPos⟩ := soFar.countInSlice_spec (hdeg.symm ▸ hkeys) targetValue
  obtain ⟨crosses, hcross, hcrossPos⟩ := t.countInSlice_spec hkeys avoidValue
  rw [hdeg] at hnewPos
  -- the counts are those of crosses and of new ticks
  have himproves : Improves t soFar targetValue avoidValue (candidateSlice kClasses)
      ↔ crosses = 0 ∧ newCount > 0 := by
    constructor
    · intro himp
      refine ⟨Nat.eq_zero_of_not_pos ?_, hnewPos.mpr himp.new_tick⟩
      intro hpos
      obtain ⟨w, hw, hmatch, hget⟩ := hcrossPos.mp hpos
      exact himp.no_cross w hw hmatch hget
    · intro hc
      refine ⟨hkeys, ?_, hnewPos.mp hc.2⟩
      intro w hw hmatch hget
      have hpos := hcrossPos.mpr ⟨w, hw, hmatch, hget⟩
      omega
  unfold tryCandidate
  dsimp only
  rw [hnew, hcross]
  dsimp only [Option.bind_eq_bind, Option.bind_some]
  split
  next hbetter =>
    -- the candidate becomes the best: it improves
    refine ⟨_, rfl, ⟨?_, ?_, ?_⟩⟩
    · intro slice hslice
      rw [← Option.some.inj hslice]
      exact himproves.mpr hbetter.1
    · intro hnone
      exact absurd hnone (by simp)
    · intro ks _ _
      simp
  -- it does not: the best found so far stays
  next hno =>
    refine ⟨best, rfl, ⟨h.sound, h.initial, ?_⟩⟩
    intro ks hks himp hnone
    rcases List.mem_append.mp hks with hks | hks
    · exact h.complete ks hks himp hnone
    · -- the first candidate that improves is better than none
      obtain rfl := List.mem_singleton.mp hks
      have hc := himproves.mp himp
      refine hno ⟨hc, .inl ?_⟩
      rw [h.initial hnone]
      omega

/-- All of them. -/
theorem foldlM_tryCandidate (targetValue avoidValue : CellType) (preferredClass : KarnaughClass)
    (hdeg : soFar.degree = t.degree) (candidates : List (List KarnaughClass)) :
    ∀ (tried : List (List KarnaughClass))
      (best : BestSlice), (∀ ks ∈ candidates, ks.length = t.degree) →
      Searched t soFar targetValue avoidValue tried best →
      ∃ best', candidates.foldlM
          (tryCandidate t soFar targetValue avoidValue preferredClass) best = some best'
        ∧ Searched t soFar targetValue avoidValue (tried ++ candidates) best' := by
  induction candidates with
  | nil =>
      intro tried best _ h
      exact ⟨best, rfl, by rw [List.append_nil]; exact h⟩
  | cons ks candidates ih =>
      intro tried best hlen h
      obtain ⟨best₁, hbest₁, h₁⟩ := tryCandidate_spec preferredClass hdeg
        (hlen ks List.mem_cons_self) h
      obtain ⟨best', hbest', h'⟩ := ih (tried ++ [ks]) best₁
        (fun k hk => hlen k (List.mem_cons_of_mem ks hk)) h₁
      refine ⟨best', ?_, ?_⟩
      · rw [List.foldlM_cons, hbest₁]
        exact hbest'
      · rw [List.append_assoc] at h'
        exact h'

/-- **The search returns a slice that improves**, or there is none to be found: no target
cell that is left is anything but a cross of the table. -/
theorem tryFindBestKarnaughSlice_spec (hdeg : soFar.degree = t.degree) (targetValue : CellType)
    (preferredIndex : Bool) :
    ∃ best, t.tryFindBestKarnaughSlice targetValue preferredIndex soFar = some best
      ∧ (∀ slice, best = some slice → Improves t soFar targetValue
          (if targetValue = .TRUE then .FALSE else .TRUE) slice)
      ∧ (best = none → ∀ w, w.length = t.degree → soFar.get w = some targetValue →
          t.get w = some (if targetValue = .TRUE then .FALSE else .TRUE)) := by
  obtain ⟨best, hbest, h⟩ := foldlM_tryCandidate targetValue
    (if targetValue = .TRUE then .FALSE else .TRUE)
    (if preferredIndex then .TRUE else .FALSE) hdeg
    (forPower t.degree indexRangeKc) [] ⟨none, fun _ => -1, -1⟩
    (fun ks hks => mem_forPower_kc.mp hks) ⟨by simp, fun _ => rfl, by simp⟩
  refine ⟨best.slice, ?_, h.sound, ?_⟩
  · unfold tryFindBestKarnaughSlice
    dsimp only
    rw [hbest]
    rfl
  · intro hnone w hw hget
    by_contra hcross
    -- the slice of that one cell would do
    refine h.complete (classesOf w) ?_ ⟨?_, ?_, ?_⟩ hnone
    · rw [List.nil_append, mem_forPower_kc]
      unfold classesOf
      rw [List.length_map, hw]
    · intro k hk
      have hlt := candidateSlice_keys hk
      unfold classesOf at hlt
      rw [List.length_map, hw] at hlt
      exact hlt
    · intro v hv hmatch
      rw [(matches_classesOf (hv.trans hw.symm)).mp hmatch]
      exact hcross
    · exact ⟨w, hw, (matches_classesOf rfl).mpr rfl, hget⟩

end TruthTable

end Inferno.SYM
