/-
  Inferno.Lib.Wildcard
  ────────────────────
  Wildcard patterns over lists, and the local constraints that decide them.

    • `Matches`     — the language of a pattern: a letter takes one element, a star
                      (`none`) takes a run of zero or more,
    • `Constraints` — what a pattern says of each letter and of each two letters that
                      follow each other, with or without stars between them,
    • `constraints_iff_matches` — over a list whose places the constraints describe,
                      they hold exactly of the matches, for every non-empty pattern.
-/
import Mathlib.Data.List.Basic
import Mathlib.Tactic.Linarith

namespace Inferno.Lib.Wildcard

variable {P X : Type*}

/-! ## §1. The language. -/

/-- `xs` is, in order, the value of each letter and a run for each star. -/
inductive Matches (a : P → X) : List (Option P) → List X → Prop
  | nil : Matches a [] []
  | letter {ps : List (Option P)} {xs : List X} (p : P) :
      Matches a ps xs → Matches a (some p :: ps) (a p :: xs)
  | star {ps : List (Option P)} {xs : List X} (run : List X) :
      Matches a ps xs → Matches a (none :: ps) (run ++ xs)

variable {a : P → X} {ps : List (Option P)} {xs : List X}

theorem matches_nil : Matches a [] xs ↔ xs = [] := by
  constructor
  · intro h
    cases h
    rfl
  · intro h
    rw [h]
    exact Matches.nil

theorem matches_letter {p : P} {k : Nat} :
    Matches a (some p :: ps) (xs.drop k) ↔ xs[k]? = some (a p) ∧ Matches a ps (xs.drop (k + 1)) := by
  constructor
  · intro h
    generalize hd : xs.drop k = ys at h
    cases h with
    | @letter _ zs _ h =>
        have hk : xs[k]? = some (a p) := by
          rw [← Nat.add_zero k, ← List.getElem?_drop, hd]
          rfl
        have htail : xs.drop (k + 1) = zs := by
          rw [← List.tail_drop, hd]
          rfl
        exact ⟨hk, htail ▸ h⟩
  · intro h
    obtain ⟨hlt, hk⟩ := List.getElem?_eq_some_iff.mp h.1
    rw [List.drop_eq_getElem_cons hlt, hk]
    exact Matches.letter p h.2

theorem matches_star {k : Nat} (hk : k ≤ xs.length) :
    Matches a (none :: ps) (xs.drop k)
      ↔ ∃ j, k ≤ j ∧ j ≤ xs.length ∧ Matches a ps (xs.drop j) := by
  constructor
  · intro h
    generalize hd : xs.drop k = ys at h
    cases h with
    | @star _ zs run h =>
        have hlen : run.length + zs.length = xs.length - k := by
          rw [← List.length_append, ← hd, List.length_drop]
        refine ⟨k + run.length, by omega, by omega, ?_⟩
        have hdrop : xs.drop (k + run.length) = zs := by
          rw [← List.drop_drop, hd, List.drop_left]
        exact hdrop ▸ h
  · intro h
    obtain ⟨j, hkj, hj, h⟩ := h
    have hsplit : xs.drop k = (xs.drop k).take (j - k) ++ xs.drop j := by
      have hdrop : xs.drop j = (xs.drop k).drop (j - k) := by
        rw [List.drop_drop]
        congr 1
        omega
      rw [hdrop, List.take_append_drop]
    rw [hsplit]
    exact Matches.star _ h

/-- The value of a letter is an element. -/
theorem Matches.mem (h : Matches a ps xs) : ∀ p, some p ∈ ps → a p ∈ xs := by
  induction h with
  | nil => intro p hp; cases hp
  | letter q _ ih =>
      intro p hp
      rcases List.mem_cons.mp hp with heq | hp
      · rw [Option.some.inj heq]
        exact List.mem_cons_self
      · exact List.mem_cons_of_mem _ (ih p hp)
  | star run _ ih =>
      intro p hp
      exact List.mem_append_right _ (ih p (by simpa using hp))

/-- A match reads the letters only. -/
theorem Matches.congr {b : P → X} (h : Matches a ps xs) :
    (∀ p, some p ∈ ps → a p = b p) → Matches b ps xs := by
  induction h with
  | nil => intro _; exact Matches.nil
  | letter q _ ih =>
      intro hab
      rw [hab q List.mem_cons_self]
      exact Matches.letter q (ih (fun p hp => hab p (List.mem_cons_of_mem _ hp)))
  | star run _ ih =>
      intro hab
      exact Matches.star run (ih (fun p hp => hab p (List.mem_cons_of_mem _ hp)))

/-! ## §2. Local constraints. -/

/-- The constraints of a pattern: `prev` is the letter before, and `gap` is whether a
star has come since. -/
def Constraints (In Front Back : P → Prop) (Adjacent Gapped : P → P → Prop) :
    Option P → Bool → List (Option P) → Prop
  | prev, gap, [] => gap = false → ∀ p ∈ prev, Back p
  | prev, _, none :: ps => Constraints In Front Back Adjacent Gapped prev true ps
  | prev, gap, some q :: ps =>
      In q ∧ (prev = none → gap = false → Front q)
        ∧ (∀ p ∈ prev, if gap then Gapped p q else Adjacent p q)
        ∧ Constraints In Front Back Adjacent Gapped (some q) false ps

/-- The constraints say where in `xs` the letters of an alphabet are. -/
structure Describes (a : P → X) (xs : List X) (Letter In Front Back : P → Prop)
    (Adjacent Gapped : P → P → Prop) : Prop where
  isIn : ∀ p, Letter p → (In p ↔ a p ∈ xs)
  front : ∀ p (i : Nat), Letter p → xs[i]? = some (a p) → (Front p ↔ i = 0)
  back : ∀ p (i : Nat), Letter p → xs[i]? = some (a p) → (Back p ↔ i + 1 = xs.length)
  adjacent : ∀ p q (i j : Nat), Letter p → Letter q → xs[i]? = some (a p) →
    xs[j]? = some (a q) → (Adjacent p q ↔ j = i + 1)
  gapped : ∀ p q (i j : Nat), Letter p → Letter q → xs[i]? = some (a p) →
    xs[j]? = some (a q) → (Gapped p q ↔ i < j)

variable {Letter In Front Back : P → Prop} {Adjacent Gapped : P → P → Prop}

/-- The constraints hold when all that they could say of the letters does. -/
theorem constraints_of_letters (isIn : ∀ p, Letter p → In p) (front : ∀ p, Letter p → Front p)
    (back : ∀ p, Letter p → Back p) (adjacent : ∀ p q, Letter p → Letter q → Adjacent p q)
    (gapped : ∀ p q, Letter p → Letter q → Gapped p q) :
    ∀ (ps : List (Option P)) (prev : Option P) (gap : Bool), (∀ p, some p ∈ ps → Letter p) →
      (∀ p ∈ prev, Letter p) → Constraints In Front Back Adjacent Gapped prev gap ps := by
  intro ps
  induction ps with
  | nil =>
      intro prev gap _ hprev _ p hp
      exact back p (hprev p hp)
  | cons e ps ih =>
      intro prev gap hletters hprev
      have hrest : ∀ p, some p ∈ ps → Letter p :=
        fun p hp => hletters p (List.mem_cons_of_mem e hp)
      cases e with
      | none => exact ih prev true hrest hprev
      | some q =>
          have hq : Letter q := hletters q List.mem_cons_self
          refine ⟨isIn q hq, fun _ _ => front q hq, fun p hp => ?_, ?_⟩
          · cases gap with
            | false => exact adjacent p q (hprev p hp) hq
            | true => exact gapped p q (hprev p hp) hq
          · exact ih (some q) false hrest (by simpa using hq)

/-- Every letter is constrained. -/
theorem Constraints.isIn : ∀ {ps : List (Option P)} {prev : Option P} {gap : Bool},
    Constraints In Front Back Adjacent Gapped prev gap ps → ∀ p, some p ∈ ps → In p := by
  intro ps
  induction ps with
  | nil => intro prev gap _ p hp; cases hp
  | cons e ps ih =>
      intro prev gap h p hp
      cases e with
      | none => exact ih h p (by simpa using hp)
      | some q =>
          rcases List.mem_cons.mp hp with heq | hp
          · rw [Option.some.inj heq]
            exact h.1
          · exact ih h.2.2.2 p hp

/-- The next letter: its place is the next one, or past a gap. -/
theorem Describes.next (hd : Describes a xs Letter In Front Back Adjacent Gapped)
    {prev : Option P} {gap : Bool} {k : Nat}
    (hprev : ∀ p ∈ prev, Letter p ∧ 0 < k ∧ xs[k - 1]? = some (a p))
    (hnone : prev = none → k = 0) {q : P} (hq : Letter q) {j : Nat} (hj : xs[j]? = some (a q)) :
    ((prev = none → gap = false → Front q) ∧ ∀ p ∈ prev, if gap then Gapped p q else Adjacent p q)
      ↔ if gap then k ≤ j else j = k := by
  cases prev with
  | none =>
      have hk := hnone rfl
      cases gap with
      | false => simp [hd.front q j hq hj, hk]
      | true => simp [hk]
  | some p =>
      obtain ⟨hletter, hpos, hp⟩ := hprev p rfl
      cases gap with
      | false =>
          have hadj := hd.adjacent p q (k - 1) j hletter hq hp hj
          simp only [reduceCtorEq, false_imp_iff, true_and, Option.mem_some_iff, forall_eq',
            Bool.false_eq_true, if_false, hadj]
          omega
      | true =>
          have hgap := hd.gapped p q (k - 1) j hletter hq hp hj
          simp only [reduceCtorEq, false_imp_iff, true_and, Option.mem_some_iff, forall_eq',
            if_true, hgap]
          omega

/-- From place `k` on: without a gap the rest of the pattern matches the rest of the
list, with one it matches what is left after a run. -/
theorem Describes.iff_matches_drop (hd : Describes a xs Letter In Front Back Adjacent Gapped) :
    ∀ (ps : List (Option P)) (prev : Option P) (gap : Bool) (k : Nat),
      (∀ p, some p ∈ ps → Letter p) → k ≤ xs.length →
      (∀ p ∈ prev, Letter p ∧ 0 < k ∧ xs[k - 1]? = some (a p)) → (prev = none → k = 0) →
      (prev = none → gap = false → ps ≠ []) →
      (Constraints In Front Back Adjacent Gapped prev gap ps
        ↔ if gap then ∃ j, k ≤ j ∧ j ≤ xs.length ∧ Matches a ps (xs.drop j)
          else Matches a ps (xs.drop k)) := by
  intro ps
  -- on the pattern; what came before is in `prev` and `gap`, and the place reached is `k`
  induction ps with
  | nil =>
      intro prev gap k _ hk hprev _ hne
      cases gap with
      | true =>
          simp only [Constraints, reduceCtorEq, false_imp_iff, if_true, true_iff]
          exact ⟨xs.length, hk, le_rfl, by rw [List.drop_length]; exact Matches.nil⟩
      | false =>
          cases prev with
          | none => exact absurd rfl (hne rfl rfl)
          -- no gap at the end: the last letter is the last of the list
          | some p =>
              obtain ⟨hletter, hpos, hp⟩ := hprev p rfl
              have hback := hd.back p (k - 1) hletter hp
              simp only [Constraints, forall_const, Option.mem_some_iff, forall_eq', hback,
                Bool.false_eq_true, if_false, matches_nil, List.drop_eq_nil_iff]
              omega
  | cons e ps ih =>
      intro prev gap k hletters hk hprev hnone _
      have hrestLetters : ∀ p, some p ∈ ps → Letter p :=
        fun p hp => hletters p (List.mem_cons_of_mem e hp)
      cases e with
      | none =>
          -- a star only opens the gap
          show Constraints In Front Back Adjacent Gapped prev true ps ↔ _
          rw [ih prev true k hrestLetters hk hprev hnone (by simp)]
          -- a second star adds nothing to the first
          cases gap with
          | false => rw [if_pos rfl, if_neg (by simp), matches_star hk]
          | true =>
              rw [if_pos rfl, if_pos rfl]
              constructor
              · intro h
                obtain ⟨j, hkj, hj, h⟩ := h
                exact ⟨j, hkj, hj, (matches_star hj).mpr ⟨j, le_rfl, hj, h⟩⟩
              · intro h
                obtain ⟨i, hki, hi, h⟩ := h
                obtain ⟨j, hij, hj, h⟩ := (matches_star hi).mp h
                exact ⟨j, hki.trans hij, hj, h⟩
      | some q =>
          -- the place of `q`, and what the rest says from there
          have hq : Letter q := hletters q List.mem_cons_self
          have hstep : Constraints In Front Back Adjacent Gapped prev gap (some q :: ps)
              ↔ ∃ j, (if gap then k ≤ j else j = k) ∧ xs[j]? = some (a q)
                  ∧ Matches a ps (xs.drop (j + 1)) := by
            -- the rest starts one place after `q`, without a gap
            have hrest : ∀ {j : Nat}, xs[j]? = some (a q) →
                (Constraints In Front Back Adjacent Gapped (some q) false ps
                  ↔ Matches a ps (xs.drop (j + 1))) := by
              intro j hj
              have hlt := (List.getElem?_eq_some_iff.mp hj).1
              have hih := ih (some q) false (j + 1) hrestLetters hlt (by simpa using ⟨hq, hj⟩)
                (by simp) (by simp)
              simpa using hih
            unfold Constraints
            rw [hd.isIn q hq, List.mem_iff_getElem?]
            constructor
            · intro h
              obtain ⟨⟨j, hj⟩, hfront, hpair, htail⟩ := h
              exact ⟨j, (hd.next hprev hnone hq hj).mp ⟨hfront, hpair⟩, hj, (hrest hj).mp htail⟩
            · intro h
              obtain ⟨j, hplace, hj, h⟩ := h
              obtain ⟨hfront, hpair⟩ := (hd.next hprev hnone hq hj).mpr hplace
              exact ⟨⟨j, hj⟩, hfront, hpair, (hrest hj).mpr h⟩
          rw [hstep]
          -- without a gap `q` is the very next, with one it is any later place
          cases gap with
          | false =>
              simp only [Bool.false_eq_true, if_false, exists_eq_left, matches_letter]
          | true =>
              simp only [if_true, matches_letter]
              constructor
              · intro h
                obtain ⟨j, hkj, hj, h⟩ := h
                exact ⟨j, hkj, (List.getElem?_eq_some_iff.mp hj).1.le, hj, h⟩
              · intro h
                obtain ⟨j, hkj, _, hj, h⟩ := h
                exact ⟨j, hkj, hj, h⟩

/-- **The local constraints decide the match**, for every pattern with an element. -/
theorem Describes.constraints_iff_matches (hd : Describes a xs Letter In Front Back Adjacent Gapped)
    (hletters : ∀ p, some p ∈ ps → Letter p) (hne : ps ≠ []) :
    Constraints In Front Back Adjacent Gapped none false ps ↔ Matches a ps xs := by
  have h := hd.iff_matches_drop ps none false 0 hletters (Nat.zero_le _) (by simp)
    (fun _ => rfl) (fun _ _ => hne)
  simpa using h

end Inferno.Lib.Wildcard
