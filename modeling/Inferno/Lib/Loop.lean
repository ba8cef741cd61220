/-
  Inferno.Lib.Loop
  ────────────────
  A `while(true)` loop that emits output, and the rule for proving what a
  whole run emits.

    • `Turn`      — what one pass through the body did: its output, and the
                    next state unless the body broke out of the loop,
    • `loop`      — the fuelled loop; `none` is a failed assertion in the
                    body or fuel that ran out,
    • `Emits`     — the obligation on ONE turn: it keeps the relation to a
                    ghost state, lowers the ghost's rank, and splits the output
                    still owed into what it emits now and what is owed next,
    • `loop_emits` — the run rule: from any related state, every fuel above the
                    rank returns, and returns exactly the output owed.
-/
import Mathlib.Data.List.Basic

namespace Inferno.Lib

/-! ## §1. The loop. -/

/-- One pass through a loop body: the output, and the next state or `none`
when the body executed a `break`. -/
structure Turn (S E : Type*) where
  out : List E
  next : Option S

/-- `while(true) body`, with explicit fuel. -/
def loop {S E : Type*} (body : S → Option (Turn S E)) : Nat → S → Option (List E)
  | 0, _ => none
  | fuel + 1, s =>
      (body s).bind fun t =>
        match t.next with
        | none => some t.out
        | some s' => (loop body fuel s').map (t.out ++ ·)

section Rule

variable {S G E A : Type*} (body : S → Option (Turn S E))

theorem loop_break {s : S} {t : Turn S E} (fuel : Nat) (hb : body s = some t)
    (hn : t.next = none) : loop body (fuel + 1) s = some t.out := by
  simp [loop, hb, hn]

theorem loop_continue {s s' : S} {t : Turn S E} {ev : List E} (fuel : Nat)
    (hb : body s = some t) (hn : t.next = some s') (hr : loop body fuel s' = some ev) :
    loop body (fuel + 1) s = some (t.out ++ ev) := by
  simp [loop, hb, hn, hr]

/-! ## §2. The run rule. -/

/-- **What one turn owes.**  `Rel s g` relates the state to a ghost `g` that
carries the argument: a `rank` that every turn lowers, and `owed g`, the
(selected) output a run from here still has to produce.  `Ok` is a property of
every event emitted. -/
def Emits (Rel : S → G → Prop) (rank : G → Nat) (sel : E → Option A) (owed : G → List A)
    (Ok : E → Prop) : Prop :=
  ∀ s g, Rel s g → ∃ t, body s = some t ∧ (∀ e ∈ t.out, Ok e) ∧
    match t.next with
    | none => owed g = t.out.filterMap sel
    | some s' => ∃ g', Rel s' g' ∧ rank g' < rank g ∧ owed g = t.out.filterMap sel ++ owed g'

/-- **The run rule.**  Every fuel above the rank gives the same run, which emits
exactly what the initial state owed. -/
theorem loop_emits {Rel : S → G → Prop} {rank : G → Nat} {sel : E → Option A}
    {owed : G → List A} {Ok : E → Prop} (h : Emits body Rel rank sel owed Ok) :
    ∀ (n : Nat) (s : S) (g : G), rank g < n → Rel s g →
      ∃ ev, (∀ fuel, n ≤ fuel → loop body fuel s = some ev)
        ∧ ev.filterMap sel = owed g ∧ ∀ e ∈ ev, Ok e := by
  intro n
  induction n with
  | zero => intro s g hr; exact absurd hr (Nat.not_lt_zero _)
  | succ n ih =>
      intro s g hr hs
      obtain ⟨t, hb, hok, hnext⟩ := h s g hs
      -- the turn breaks out, or the rank goes down
      cases hn : t.next with
      | none =>
          rw [hn] at hnext
          refine ⟨t.out, ?_, hnext.symm, hok⟩
          intro fuel hf
          obtain ⟨f, rfl⟩ : ∃ f, fuel = f + 1 := ⟨fuel - 1, by omega⟩
          exact loop_break body f hb hn
      | some s' =>
          rw [hn] at hnext
          obtain ⟨g', hs', hlt, how⟩ := hnext
          obtain ⟨ev, hev, hsel, hevok⟩ := ih s' g' (by omega) hs'
          refine ⟨t.out ++ ev, ?_, ?_, ?_⟩
          · intro fuel hf
            obtain ⟨f, rfl⟩ : ∃ f, fuel = f + 1 := ⟨fuel - 1, by omega⟩
            exact loop_continue body f hb hn (hev f (by omega))
          · rw [List.filterMap_append, hsel, how]
          · intro e he
            rcases List.mem_append.mp he with he | he
            · exact hok e he
            · exact hevok e he

/-- **What the last turn emits.**  A turn either breaks out with an output of the kind
`Q`, or lowers the rank; so a run returns, and ends in such an output. -/
theorem loop_breaks (Rel : S → G → Prop) (rank : G → Nat) (Q : List E → Prop)
    (h : ∀ s g, Rel s g → ∃ t, body s = some t ∧
      match t.next with
      | none => Q t.out
      | some s' => ∃ g', Rel s' g' ∧ rank g' < rank g) :
    ∀ (n : Nat) (s : S) (g : G), rank g < n → Rel s g →
      ∃ pre out, (∀ fuel, n ≤ fuel → loop body fuel s = some (pre ++ out)) ∧ Q out := by
  intro n
  induction n with
  | zero => intro s g hr; exact absurd hr (Nat.not_lt_zero _)
  | succ n ih =>
      intro s g hr hs
      obtain ⟨t, hb, hnext⟩ := h s g hs
      -- the same split: the last turn is where `Q` comes from
      cases hn : t.next with
      | none =>
          rw [hn] at hnext
          refine ⟨[], t.out, ?_, hnext⟩
          intro fuel hf
          obtain ⟨f, rfl⟩ : ∃ f, fuel = f + 1 := ⟨fuel - 1, by omega⟩
          exact loop_break body f hb hn
      | some s' =>
          rw [hn] at hnext
          obtain ⟨g', hs', hlt⟩ := hnext
          obtain ⟨pre, out, hev, hQ⟩ := ih s' g' (by omega) hs'
          refine ⟨t.out ++ pre, out, ?_, hQ⟩
          intro fuel hf
          obtain ⟨f, rfl⟩ : ∃ f, fuel = f + 1 := ⟨fuel - 1, by omega⟩
          rw [List.append_assoc]
          exact loop_continue body f hb hn (hev f (by omega))

end Rule

end Inferno.Lib
