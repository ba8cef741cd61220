/-
  Inferno.Lib.Runs
  ────────────────
  The runs of a Boolean sequence, recorded as half-open ranges by a single pass that
  opens a range where the sequence rises and closes it where the sequence falls.

    • `InRanges`, `Separated` — membership, and increasing with a gap between any two,
    • `rangesStep`            — what the pass does at one position,
    • `RunsUpTo`              — the ranges are the runs of the first `m` positions,
    • `RunsProgress`          — the pass's own state, the last range possibly open,
    • one step keeps `RunsProgress`; where the sequence is down it is `RunsUpTo`.
-/
import Mathlib.Data.List.Basic
import Mathlib.Data.Option.Basic

namespace Inferno.Lib

/-! ## §1. Ranges. -/

/-- `x` lies in one of the half-open ranges. -/
def InRanges (rs : List (Int × Int)) (x : Int) : Prop :=
  ∃ r ∈ rs, r.1 ≤ x ∧ x < r.2

instance (rs : List (Int × Int)) (x : Int) : Decidable (InRanges rs x) := by
  unfold InRanges
  infer_instance

/-- **Increasing, disjoint, non-adjacent, none empty.** -/
def Separated (rs : List (Int × Int)) : Prop :=
  (∀ r ∈ rs, r.1 < r.2) ∧ rs.Pairwise (fun r s => r.2 < s.1)

theorem separated_nil : Separated [] :=
  ⟨fun _ hr => absurd hr List.not_mem_nil, List.Pairwise.nil⟩

theorem separated_snoc {rs : List (Int × Int)} {a b : Int} (h : Separated rs)
    (hgap : ∀ r ∈ rs, r.2 < a) (hab : a < b) : Separated (rs ++ [(a, b)]) := by
  constructor
  · intro r hr
    rcases List.mem_append.mp hr with hr | hr
    · exact h.1 r hr
    · rw [List.mem_singleton.mp hr]
      exact hab
  · rw [List.pairwise_append]
    refine ⟨h.2, List.pairwise_singleton _ _, ?_⟩
    intro r hr s hs
    rw [List.mem_singleton.mp hs]
    exact hgap r hr

theorem inRanges_snoc {rs : List (Int × Int)} {a b x : Int} :
    InRanges (rs ++ [(a, b)]) x ↔ InRanges rs x ∨ (a ≤ x ∧ x < b) := by
  simp [InRanges, or_and_right, exists_or]

/-! ## §2. The pass. -/

/-- Set the end of the last range; `none` if there is no range. -/
def closeLast (i : Int) (rs : List (Int × Int)) : Option (List (Int × Int)) :=
  match rs.getLast? with
  | none => none
  | some (a, _) => some (rs.dropLast ++ [(a, i)])

theorem closeLast_snoc (i a b : Int) (rs : List (Int × Int)) :
    closeLast i (rs ++ [(a, b)]) = some (rs ++ [(a, i)]) := by
  unfold closeLast
  rw [List.getLast?_concat, List.dropLast_concat]

/-- What the pass does at position `i`, from the values at `i - 1` and at `i`: a new
range has the end `-1` until it is closed. -/
def rangesStep (prev current : Bool) (i : Int) (rs : List (Int × Int)) :
    Option (List (Int × Int)) :=
  if current && !prev then some (rs ++ [(i, -1)])
  else if prev && !current then closeLast i rs
  else some rs

/-- The value before position `m`; down before the first. -/
def valueBefore (f : Nat → Bool) : Nat → Bool
  | 0 => false
  | m + 1 => f m

/-! ## §3. Its invariant. -/

/-- The ranges are the runs of `f` below `m`. -/
structure RunsUpTo (f : Nat → Bool) (m : Nat) (rs : List (Int × Int)) : Prop where
  separated : Separated rs
  bounded : ∀ r ∈ rs, 0 ≤ r.1 ∧ r.2 ≤ m
  exact_runs : ∀ i < m, f i = true ↔ InRanges rs i

/-- **The state of the pass before position `m`**: either every range is closed and
the sequence is down, or the last range is open and the sequence has been up since it
was opened. -/
inductive RunsProgress (f : Nat → Bool) (m : Nat) : List (Int × Int) → Prop where
  | between {rs : List (Int × Int)} (runs : RunsUpTo f m rs) (gap : ∀ r ∈ rs, r.2 < m)
      (down : valueBefore f m = false) : RunsProgress f m rs
  | inside {rs : List (Int × Int)} {a : Nat} (runs : RunsUpTo f a rs)
      (gap : ∀ r ∈ rs, r.2 < a) (opened : a < m) (up : ∀ i, a ≤ i → i < m → f i = true) :
      RunsProgress f m (rs ++ [((a : Int), -1)])

theorem runsUpTo_zero (f : Nat → Bool) : RunsUpTo f 0 [] where
  separated := separated_nil
  bounded := fun _ hr => absurd hr List.not_mem_nil
  exact_runs := fun _ hi => absurd hi (Nat.not_lt_zero _)

theorem runsProgress_zero (f : Nat → Bool) : RunsProgress f 0 [] :=
  .between (runsUpTo_zero f) (fun _ hr => absurd hr List.not_mem_nil) rfl

/-- A position where the sequence is down extends the runs as they are. -/
theorem RunsUpTo.succ_of_down {f : Nat → Bool} {m : Nat} {rs : List (Int × Int)}
    (h : RunsUpTo f m rs) (hm : f m = false) : RunsUpTo f (m + 1) rs where
  separated := h.separated
  bounded r hr := by
    have := h.bounded r hr
    omega
  exact_runs i hi := by
    by_cases him : i < m
    · exact h.exact_runs i him
    · obtain rfl : i = m := by omega
      rw [hm]
      constructor
      · intro hf
        exact absurd hf (by simp)
      · intro hin
        obtain ⟨r, hr, _, hlt⟩ := hin
        have := (h.bounded r hr).2
        omega

/-- Closing the range that was open from `a` on gives the runs below `m`. -/
theorem RunsUpTo.close {f : Nat → Bool} {a m : Nat} {rs : List (Int × Int)}
    (h : RunsUpTo f a rs) (hgap : ∀ r ∈ rs, r.2 < a) (ham : a < m)
    (hup : ∀ i, a ≤ i → i < m → f i = true) : RunsUpTo f m (rs ++ [((a : Int), (m : Int))]) where
  separated := separated_snoc h.separated hgap (by omega)
  bounded r hr := by
    rcases List.mem_append.mp hr with hr | hr
    · have := h.bounded r hr
      omega
    · rw [List.mem_singleton.mp hr]
      constructor <;> simp
  exact_runs i hi := by
    rw [inRanges_snoc]
    by_cases hia : i < a
    · rw [h.exact_runs i hia]
      constructor
      · exact fun hin => Or.inl hin
      · intro hin
        rcases hin with hin | ⟨hai, _⟩
        · exact hin
        · omega
    · have hf : f i = true := hup i (by omega) hi
      constructor
      · intro _
        exact Or.inr (by omega)
      · intro _
        exact hf

/-- **The step rule.** -/
theorem RunsProgress.step {f : Nat → Bool} {m : Nat} {rs : List (Int × Int)}
    (h : RunsProgress f m rs) :
    ∃ rs', rangesStep (valueBefore f m) (f m) m rs = some rs' ∧ RunsProgress f (m + 1) rs' := by
  cases h with
  -- outside a run: one begins where the function is true
  | between runs gap down =>
      rw [down]
      cases hf : f m with
      | false =>
          refine ⟨rs, rfl, .between (runs.succ_of_down hf) ?_ hf⟩
          intro r hr
          have := gap r hr
          omega
      | true =>
          refine ⟨rs ++ [((m : Int), -1)], rfl, .inside runs gap (by omega) ?_⟩
          intro i hi hlt
          obtain rfl : i = m := by omega
          exact hf
  -- inside a run: it ends where the function is false
  | @inside rs a runs gap opened up =>
      have hprev : valueBefore f m = true := by
        cases m with
        | zero => omega
        | succ k => exact up k (by omega) (by omega)
      rw [hprev]
      cases hf : f m with
      | false =>
          have hruns := runs.close gap opened up
          refine ⟨rs ++ [((a : Int), (m : Int))], ?_, .between (hruns.succ_of_down hf) ?_ hf⟩
          · exact closeLast_snoc m a (-1) rs
          · intro r hr
            have := (hruns.bounded r hr).2
            omega
      | true =>
          refine ⟨rs ++ [((a : Int), -1)], rfl, .inside runs gap (by omega) ?_⟩
          intro i hi hlt
          by_cases him : i < m
          · exact up i hi him
          · obtain rfl : i = m := by omega
            exact hf

/-- A pass that ends where the sequence is down has recorded its runs. -/
theorem RunsProgress.runs_of_down {f : Nat → Bool} {m : Nat} {rs : List (Int × Int)}
    (h : RunsProgress f m rs) (hdown : valueBefore f m = false) : RunsUpTo f m rs := by
  cases h with
  | between runs gap down => exact runs
  | @inside rs a runs gap opened up =>
      exfalso
      cases m with
      | zero => omega
      | succ k =>
          have hk : f k = true := up k (by omega) (by omega)
          have hk' : f k = false := hdown
          rw [hk] at hk'
          exact Bool.noConfusion hk'

/-- No range is recorded exactly when the sequence was never up. -/
theorem RunsUpTo.eq_nil_iff {f : Nat → Bool} {m : Nat} {rs : List (Int × Int)}
    (h : RunsUpTo f m rs) : rs = [] ↔ ∀ i < m, f i = false := by
  constructor
  · intro hrs i hi
    rw [Bool.eq_false_iff]
    intro hf
    obtain ⟨r, hr, _⟩ := (h.exact_runs i hi).mp hf
    rw [hrs] at hr
    exact List.not_mem_nil hr
  · intro hf
    rw [List.eq_nil_iff_forall_not_mem]
    intro r hr
    have hb := h.bounded r hr
    have hlt := h.separated.1 r hr
    have hup := (h.exact_runs r.1.toNat (by omega)).mpr ⟨r, hr, by omega, by omega⟩
    rw [hf _ (by omega)] at hup
    exact Bool.noConfusion hup

end Inferno.Lib
