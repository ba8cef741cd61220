/-
  Inferno.Lib.Odometer
  ────────────────────
  A program that asks for choices, run again and again under an odometer.

    • `Cursor`, `Span`   — a place in a container, and the places a choice may take,
    • `Script`           — a program that emits events and asks for cursors; what it
                           asks for may depend on what it was given,
    • `outcomes`         — what it emits, over all choices, the last varying fastest,
    • `increment`        — the odometer: the last choice that can move moves, and those
                           after it are forgotten,
    • `remaining_step`   — one run emits the first outcome still owed, and one increment
                           leaves the others.
-/
import Mathlib.Data.List.Basic
import Mathlib.Data.List.Range
import Mathlib.Data.List.Nodup

namespace Inferno.Lib.Odometer

variable {T E : Type}

/-! ## §1. Spans. -/

/-- A place in a container. -/
structure Cursor (T : Type) where
  container : T
  pos : Nat
deriving DecidableEq

/-- The places from `begin` up to `stop`, and `stop` itself when inclusive. -/
structure Span (T : Type) where
  begin : Cursor T
  stop : Cursor T
  inclusive : Bool
deriving DecidableEq

namespace Span

/-- The first position that is not a choice. -/
def limit (s : Span T) : Nat :=
  if s.inclusive then s.stop.pos + 1 else s.stop.pos

/-- Both ends are in one container, and there is a choice. -/
structure Proper (s : Span T) : Prop where
  container : s.stop.container = s.begin.container
  nonempty : s.begin.pos < s.limit

/-- `c` is one of the choices. -/
structure Holds (s : Span T) (c : Cursor T) : Prop where
  container : c.container = s.begin.container
  ge : s.begin.pos ≤ c.pos
  lt : c.pos < s.limit

/-- The choices from position `p` on. -/
def cursorsFrom (s : Span T) (p : Nat) : List (Cursor T) :=
  (List.range' p (s.limit - p)).map (fun q => ⟨s.begin.container, q⟩)

/-- All the choices. -/
def cursors (s : Span T) : List (Cursor T) :=
  s.cursorsFrom s.begin.pos

/-- The choice after `c`. -/
def next (s : Span T) (c : Cursor T) : Option (Cursor T) :=
  if c.pos + 1 < s.limit then some ⟨c.container, c.pos + 1⟩ else none

variable {s : Span T} {c : Cursor T}

theorem mem_cursors : c ∈ s.cursors ↔ s.Holds c := by
  unfold cursors cursorsFrom
  rw [List.mem_map]
  constructor
  · intro h
    obtain ⟨q, hq, rfl⟩ := h
    rw [List.mem_range'_1] at hq
    exact ⟨rfl, hq.1, by show q < s.limit; omega⟩
  · intro h
    refine ⟨c.pos, ?_, ?_⟩
    · have hge := h.ge
      have hlt := h.lt
      rw [List.mem_range'_1]
      omega
    · rw [← h.container]

theorem cursors_nodup (s : Span T) : s.cursors.Nodup := by
  unfold cursors cursorsFrom
  have hinj : Function.Injective (fun q => (⟨s.begin.container, q⟩ : Cursor T)) :=
    fun p q h => congrArg Cursor.pos h
  exact List.Nodup.map hinj List.nodup_range'

theorem Proper.holds_begin (h : s.Proper) : s.Holds s.begin :=
  ⟨rfl, Nat.le_refl _, h.nonempty⟩

theorem cursorsFrom_cons (h : s.Holds c) : s.cursorsFrom c.pos = c :: s.cursorsFrom (c.pos + 1) := by
  have hlt := h.lt
  have hcount : s.limit - c.pos = (s.limit - (c.pos + 1)) + 1 := by omega
  have hc : (⟨s.begin.container, c.pos⟩ : Cursor T) = c := by rw [← h.container]
  unfold cursorsFrom
  rw [hcount, List.range'_succ, List.map_cons, hc]

theorem next_holds {c' : Cursor T} (h : s.Holds c) (hn : s.next c = some c') : s.Holds c' := by
  unfold next at hn
  split at hn
  next hlt =>
    cases hn
    exact ⟨h.container, Nat.le_succ_of_le h.ge, hlt⟩
  next => cases hn

/-- The choices after `c` are those from the next on. -/
theorem cursorsFrom_next (h : s.Holds c) :
    s.cursorsFrom (c.pos + 1) = match s.next c with
      | none => []
      | some c' => c' :: s.cursorsFrom (c'.pos + 1) := by
  cases hn : s.next c with
  | none =>
      unfold next at hn
      split at hn
      next => cases hn
      next hge =>
        unfold cursorsFrom
        rw [Nat.sub_eq_zero_of_le (by omega)]
        rfl
  | some c' =>
      have hc' := next_holds h hn
      unfold next at hn
      split at hn
      next =>
        cases hn
        exact cursorsFrom_cons hc'
      next => cases hn

end Span

/-! ## §2. Scripts. -/

/-- A program that emits events and asks for cursors in spans. -/
inductive Script (T E : Type) where
  | stop
  | fail
  | emit (e : E) (next : Script T E)
  | choose (span : Span T) (next : Cursor T → Script T E)

/-- A choice that may not have been made yet, which is then the first. -/
def chosen (span : Span T) (c : Option (Cursor T)) : Cursor T :=
  c.getD span.begin

/-- One place of the odometer: what was asked, and the choice made for it. -/
structure Digit (T : Type) where
  span : Span T
  choice : Option (Cursor T)

/-- The cursor of a digit. -/
def Digit.cursor (d : Digit T) : Cursor T :=
  chosen d.span d.choice

namespace Script

/-- What the script emits, over all choices. -/
def outcomes : Script T E → List (List E)
  | stop => [[]]
  | fail => []
  | emit e next => next.outcomes.map (e :: ·)
  | choose span next => span.cursors.flatMap (fun c => (next c).outcomes)

/-- It asks for exactly `n` cursors, in proper spans that satisfy `Ok`, and does not
fail. -/
inductive Valid (Ok : Span T → Prop) : Script T E → Nat → Prop
  | stop : Valid Ok stop 0
  | emit {e : E} {next : Script T E} {n : Nat} : Valid Ok next n → Valid Ok (emit e next) n
  | choose {span : Span T} {next : Cursor T → Script T E} {n : Nat} :
      span.Proper → Ok span → (∀ c, span.Holds c → Valid Ok (next c) n) →
      Valid Ok (choose span next) (n + 1)

/-- Emit events, one after another. -/
def emitAll (es : List E) (k : Script T E) : Script T E :=
  es.foldr emit k

theorem outcomes_emitAll (es : List E) (k : Script T E) :
    (emitAll es k).outcomes = k.outcomes.map (es ++ ·) := by
  induction es with
  | nil => simp [emitAll]
  | cons e es ih =>
      show (emitAll es k).outcomes.map (e :: ·) = _
      rw [ih, List.map_map]
      rfl

theorem valid_emitAll {Ok : Span T → Prop} {k : Script T E} {n : Nat} (h : Valid Ok k n)
    (es : List E) : Valid Ok (emitAll es k) n := by
  induction es with
  | nil => exact h
  | cons e es ih => exact Valid.emit ih

/-- What a run emits, under the choices `cs`. -/
def events : Script T E → List (Option (Cursor T)) → List E
  | emit e next, cs => e :: next.events cs
  | choose span next, c :: cs => (next (chosen span c)).events cs
  | _, _ => []

/-- The digits a run sets, under the choices `cs`. -/
def digits : Script T E → List (Option (Cursor T)) → List (Digit T)
  | emit _ next, cs => next.digits cs
  | choose span next, c :: cs => ⟨span, c⟩ :: (next (chosen span c)).digits cs
  | _, _ => []

/-- The outcomes from that of the choices `cs` on. -/
def remaining : Script T E → List (Option (Cursor T)) → List (List E)
  | stop, _ => [[]]
  | fail, _ => []
  | emit e next, cs => (next.remaining cs).map (e :: ·)
  | choose _ _, [] => []
  | choose span next, c :: cs =>
      (next (chosen span c)).remaining cs
        ++ (span.cursorsFrom ((chosen span c).pos + 1)).flatMap (fun c => (next c).outcomes)

/-- **The choices are good for a run**: each is one of those asked for, and one that has
been made was made for what is asked now, which `spans` remembers. -/
def Fits : Script T E → List (Option (Cursor T)) → List (Span T) → Prop
  | emit _ next, cs, spans => next.Fits cs spans
  | choose span next, c :: cs, old :: spans =>
      span.Holds (chosen span c) ∧ (c.isSome → old = span)
        ∧ (next (chosen span c)).Fits cs spans
  | choose _ _, _, _ => False
  | _, cs, spans => cs = [] ∧ spans = []

end Script

/-! ## §3. The odometer. -/

/-- The choices after these; `none` when there are no more. -/
def increment : List (Digit T) → Option (List (Option (Cursor T)))
  | [] => none
  | d :: ds =>
      match increment ds with
      | some cs => some (d.choice :: cs)
      | none => (d.span.next d.cursor).map (fun c => some c :: ds.map (fun _ => none))

/-- The odometer starts from the last digit. -/
theorem increment_append_singleton (ds : List (Digit T)) (d : Digit T) :
    increment (ds ++ [d]) = match d.span.next d.cursor with
      | some c => some (ds.map Digit.choice ++ [some c])
      | none => (increment ds).map (· ++ [none]) := by
  induction ds with
  | nil =>
      cases hn : d.span.next d.cursor <;> simp [increment, hn]
  | cons e ds ih =>
      rw [List.cons_append, increment, ih]
      cases hn : d.span.next d.cursor with
      | some c => rfl
      | none =>
          cases hi : increment ds with
          | some cs => simp [increment, hi]
          | none =>
              cases he : e.span.next e.cursor <;> simp [increment, hi, he]

/-- A digit that cannot move passes the carry on. -/
theorem increment_append {pads : List (Digit T)}
    (hpads : ∀ d ∈ pads, d.span.next d.cursor = none) (ds : List (Digit T)) :
    increment (ds ++ pads) = (increment ds).map (· ++ pads.map (fun _ => none)) := by
  induction pads using List.reverseRecOn with
  | nil => simp
  | append_singleton pads d ih =>
      have hd : d.span.next d.cursor = none := hpads d (by simp)
      rw [← List.append_assoc, increment_append_singleton, hd,
        ih (fun e he => hpads e (by simp [he]))]
      cases increment ds <;> simp

namespace Script

variable {Ok : Span T → Prop} {s : Script T E} {n : Nat}

theorem digits_length (hv : s.Valid Ok n) : ∀ {cs : List (Option (Cursor T))} {spans : List (Span T)},
    s.Fits cs spans → (s.digits cs).length = n := by
  induction hv with
  | stop => intro cs spans _; rfl
  | emit _ ih => intro cs spans h; exact ih h
  | @choose span next n _ _ _ ih =>
      intro cs spans h
      cases cs with
      | nil => exact absurd h (by simp [Fits])
      | cons c cs =>
          cases spans with
          | nil => exact absurd h (by simp [Fits])
          | cons old spans =>
              show ((next (chosen span c)).digits cs).length + 1 = n + 1
              rw [ih _ h.1 h.2.2]

/-- The digits have the choices. -/
theorem digits_choices : ∀ {s : Script T E} {cs : List (Option (Cursor T))} {spans : List (Span T)},
    s.Fits cs spans → (s.digits cs).map Digit.choice = cs
  | stop, _, _, h => h.1.symm
  | fail, _, _, h => h.1.symm
  | emit _ next, _, _, h => digits_choices (s := next) h
  | choose span next, [], _, h => absurd h (by simp [Fits])
  | choose span next, _ :: _, [], h => absurd h (by simp [Fits])
  | choose span next, c :: cs, old :: spans, h => by
      show c :: ((next (chosen span c)).digits cs).map Digit.choice = c :: cs
      rw [digits_choices h.2.2]

/-- The digits are choices in the spans the script may ask for. -/
theorem digits_holds (hv : s.Valid Ok n) :
    ∀ {cs : List (Option (Cursor T))} {spans : List (Span T)}, s.Fits cs spans →
      ∀ d ∈ s.digits cs, d.span.Proper ∧ Ok d.span ∧ d.span.Holds d.cursor := by
  induction hv with
  | stop => intro cs spans _ d hd; cases hd
  | emit _ ih => intro cs spans h d hd; exact ih h d hd
  | @choose span next n hp hok _ ih =>
      intro cs spans h d hd
      cases cs with
      | nil => cases hd
      | cons c cs =>
          cases spans with
          | nil => exact absurd h (by simp [Fits])
          | cons old spans =>
              rcases List.mem_cons.mp hd with hd | hd
              · subst hd
                exact ⟨hp, hok, h.1⟩
              · exact ih _ h.1 h.2.2 d hd

/-- Before any choice is made, anything fits. -/
theorem fits_fresh (hv : s.Valid Ok n) :
    ∀ {spans : List (Span T)}, spans.length = n → s.Fits (List.replicate n none) spans := by
  induction hv with
  | stop => intro spans h; exact ⟨rfl, List.eq_nil_of_length_eq_zero h⟩
  | emit _ ih => intro spans h; exact ih h
  | @choose span next n hp _ _ ih =>
      intro spans h
      cases spans with
      | nil => cases h
      | cons old spans =>
          rw [List.replicate_succ]
          exact ⟨hp.holds_begin, by simp, ih _ hp.holds_begin (Nat.succ.inj h)⟩

/-- Before any choice is made, every outcome is owed. -/
theorem remaining_fresh (hv : s.Valid Ok n) : s.remaining (List.replicate n none) = s.outcomes := by
  induction hv with
  | stop => rfl
  | emit _ ih => rw [remaining, ih, outcomes]
  | @choose span next n hp _ _ ih =>
      rw [List.replicate_succ, remaining]
      show (next span.begin).remaining _ ++ (span.cursorsFrom (span.begin.pos + 1)).flatMap _ = _
      rw [ih _ hp.holds_begin, outcomes]
      unfold Span.cursors
      rw [Span.cursorsFrom_cons hp.holds_begin, List.flatMap_cons]

/-- **One run and one increment**: the run emits the first outcome owed; when the
odometer moves on, its choices fit what the run asked for and owe the other outcomes,
and when it does not, there are none. -/
theorem remaining_step (hv : s.Valid Ok n) :
    ∀ {cs : List (Option (Cursor T))} {spans : List (Span T)}, s.Fits cs spans →
      match increment (s.digits cs) with
      | none => s.remaining cs = [s.events cs]
      | some cs' => s.remaining cs = s.events cs :: s.remaining cs'
          ∧ s.Fits cs' ((s.digits cs).map Digit.span) := by
  -- on the script; at a choice the digits after it are the faster ones
  induction hv with
  | stop => intro cs spans h; rfl
  | emit _ ih =>
      intro cs spans h
      have hnext := ih h
      unfold digits remaining events Fits
      revert hnext
      cases increment (Script.digits _ cs) with
      | none => intro hnext; simp [hnext]
      | some cs' => intro hnext; simp [hnext.1, hnext.2]
  | @choose span next n hp hok hvn ih =>
      intro cs spans h
      cases cs with
      | nil => exact absurd h (by simp [Fits])
      | cons c cs =>
          cases spans with
          | nil => exact absurd h (by simp [Fits])
          | cons old spans =>
              obtain ⟨hholds, hold, hfits⟩ := h
              -- what the increment does with the digits after this one
              have hnext := ih _ hholds hfits
              have hlen := digits_length (hvn _ hholds) hfits
              have hdigits : (choose span next).digits (c :: cs)
                  = ⟨span, c⟩ :: (next (chosen span c)).digits cs := rfl
              rw [hdigits]
              cases hinc : increment ((next (chosen span c)).digits cs) with
              | some cs' =>
                  -- a later choice moves
                  rw [hinc] at hnext
                  have hincr : increment (⟨span, c⟩ :: (next (chosen span c)).digits cs)
                      = some (c :: cs') := by
                    rw [increment, hinc]
                  rw [hincr]
                  refine ⟨?_, hholds, fun _ => rfl, hnext.2⟩
                  rw [remaining, remaining, hnext.1]
                  rfl
              | none =>
                  rw [hinc] at hnext
                  have hafter := Span.cursorsFrom_next hholds
                  cases hmove : span.next (chosen span c) with
                  | none =>
                      -- nor does this one: there is nothing after
                      have hincr : increment (⟨span, c⟩ :: (next (chosen span c)).digits cs)
                          = none := by
                        rw [increment, hinc]
                        show (span.next (chosen span c)).map _ = none
                        rw [hmove]
                        rfl
                      rw [hincr]
                      rw [hmove] at hafter
                      show remaining _ _ = _
                      rw [remaining, hnext, hafter]
                      rfl
                  | some c' =>
                      -- this one moves, and those after it start again
                      have hholds' := Span.next_holds hholds hmove
                      have hincr : increment (⟨span, c⟩ :: (next (chosen span c)).digits cs)
                          = some (some c' :: List.replicate n none) := by
                        rw [increment, hinc]
                        show (span.next (chosen span c)).map _ = _
                        rw [hmove, Option.map_some, List.map_const', hlen]
                      rw [hincr]
                      rw [hmove] at hafter
                      refine ⟨?_, hholds', fun _ => rfl, ?_⟩
                      · rw [remaining, hnext, hafter, remaining]
                        show _ = _ :: ((next c').remaining _ ++ _)
                        rw [remaining_fresh (hvn _ hholds')]
                        rfl
                      · exact fits_fresh (hvn _ hholds') (by rw [List.length_map, hlen])

/-- The outcome of the choices is the first owed. -/
theorem remaining_eq_events (hv : s.Valid Ok n) {cs : List (Option (Cursor T))}
    {spans : List (Span T)} (h : s.Fits cs spans) :
    ∃ rest, s.remaining cs = s.events cs :: rest := by
  have hstep := remaining_step hv h
  cases hi : increment (s.digits cs) with
  | none => rw [hi] at hstep; exact ⟨[], hstep⟩
  | some cs' => rw [hi] at hstep; exact ⟨_, hstep.1⟩

end Script

end Inferno.Lib.Odometer
