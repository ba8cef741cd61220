/-
  Inferno.Helpers.Walk
  ────────────────────
  `helpers/walk.cpp`: the depth-first walk of a tree, as an iterator with a stack of
  iterators over the children of the nodes it is inside of.

    • `WalkIterator`     — the stack, the end flag, and what the filters remember,
    • `bypassEndOfChildren`, `advanceOver`, `advanceInto`, `doNodeFilter` — the steps, with
                           their assertions as `none`,
    • `walk`             — from `begin()` to the end, with each place it stops at,
    • `uniqueWalk`, `parentWalk`,
    • `Scan`             — a part of a walk, with the places it stops at,
    • `scan_element`     — from an element the walk goes through what is below it, and on to
                           what comes after,
    • `walk_eq`          — and so it stops at what a recursive walk hands out.
-/
import Inferno.Common.Assert
import Inferno.Helpers.Flatten
import Inferno.Lib.FilteredPreorder
import Inferno.Lib.Height
import Mathlib.Data.Finset.Insert

namespace Inferno.Helpers

open Inferno.Common
open Inferno.Lib

/-! ## §1. The iterator. -/

/-- `StateEntry`: a node that the walk is inside of, and which child it is at. -/
structure StateEntry (N : Type) where
  node : N
  iterator : FlattenIterator

/-- `Filter::IsMatch`, on a node.  A filter may remember what it was asked. -/
abbrev Filter (N σ : Type) := σ → N → Bool × σ

/-- The filters that a walk is constructed with; `none` is a null pointer. -/
structure Filters (N σ : Type) where
  outFilter : Option (Filter N σ)
  recurseFilter : Option (Filter N σ)

/-- `Walk_iterator`, with what the filters remember.  The top of the stack is the head of
the list. -/
structure WalkIterator (N σ : Type) where
  root : Option N
  state : List (StateEntry N)
  done : Bool
  memory : σ

section

variable {N σ : Type} (itemise : N → List (Member N)) (F : Filters N σ)

/-- The children of a node. -/
def childPtrs (n : N) : List (Option N) := flatten (itemise n)

/-- `out_filter` on an element: with none it is accepted, and a NULL one is not passed. -/
def outAccepts (s : σ) : Option N → Bool × σ
  | none => (F.outFilter.isNone, s)
  | some n =>
      match F.outFilter with
      | none => (true, s)
      | some isMatch => isMatch s n

/-- `recurse_filter` on an element. -/
def recurseAccepts (s : σ) : Option N → Bool × σ
  | none => (false, s)
  | some n =>
      match F.recurseFilter with
      | none => (true, s)
      | some isMatch => isMatch s n

namespace StateEntry

/-- The iterator is at the end of the node's children. -/
def atEnd (e : StateEntry N) : Bool := e.iterator.isAtEnd (itemise e.node)

/-- `++iterator`. -/
def next (e : StateEntry N) : Option (StateEntry N) := do
  let iterator ← e.iterator.increment (itemise e.node)
  some { e with iterator := iterator }

end StateEntry

namespace WalkIterator

/-- `IsAtEndOfChildren`. -/
def isAtEndOfChildren (w : WalkIterator N σ) : Option Bool := do
  ASSERT (w.done = false)
  match w.state with
  | [] => some false
  | e :: _ => some (e.atEnd itemise)

/-- The loop of `BypassEndOfChildren`, on the stack: it pops what is at its end, and goes
on in what is under it.  The flag is `done`. -/
def bypass (e : StateEntry N) : List (StateEntry N) → Option (List (StateEntry N) × Bool)
  | [] => if e.atEnd itemise then some ([], true) else some ([e], false)
  | f :: rest =>
      if e.atEnd itemise then do
        let f ← f.next itemise
        bypass f rest
      else some (e :: f :: rest, false)

/-- `BypassEndOfChildren`. -/
def bypassEndOfChildren (w : WalkIterator N σ) : Option (WalkIterator N σ) := do
  ASSERT (w.done = false)
  match w.state with
  | [] => some w
  | e :: rest => do
      let (state, done) ← bypass itemise e rest
      some { w with state := state, done := done }

/-- `operator*`. -/
def deref (w : WalkIterator N σ) : Option (Option N) := do
  ASSERT (w.done = false)
  let atEnd ← w.isAtEndOfChildren itemise
  ASSERT (atEnd = false)
  match w.state with
  | [] => some w.root
  | e :: _ => e.iterator.deref (itemise e.node)

/-- `Push`. -/
def push (w : WalkIterator N σ) (n : N) : WalkIterator N σ :=
  { w with state := ⟨n, FlattenIterator.start (itemise n)⟩ :: w.state }

/-- `AdvanceOver`. -/
def advanceOver (w : WalkIterator N σ) : Option (WalkIterator N σ) := do
  ASSERT (w.done = false)
  let atEnd ← w.isAtEndOfChildren itemise
  ASSERT (atEnd = false)
  match w.state with
  | [] => some { w with done := true }
  | e :: rest => do
      let e ← e.next itemise
      bypassEndOfChildren itemise { w with state := e :: rest }

/-- `AdvanceInto`. -/
def advanceInto (w : WalkIterator N σ) : Option (WalkIterator N σ) := do
  ASSERT (w.done = false)
  let atEnd ← w.isAtEndOfChildren itemise
  ASSERT (atEnd = false)
  let element ← w.deref itemise
  let (recurse, memory) := recurseAccepts F w.memory element
  match element, recurse with
  | some n, true => bypassEndOfChildren itemise (push itemise { w with memory := memory } n)
  | _, _ => advanceOver itemise { w with memory := memory }

/-- `DoNodeFilter`.  The number bounds the turns of the loop. -/
def doNodeFilter : Nat → WalkIterator N σ → Option (WalkIterator N σ)
  | 0, _ => none
  | turns + 1, w =>
      if w.done then some w
      else do
        let element ← w.deref itemise
        let (ok, memory) := outAccepts F w.memory element
        if ok then some { w with memory := memory }
        else do
          let w ← advanceInto itemise F { w with memory := memory }
          doNodeFilter turns w

/-- The constructor. -/
def start (turns : Nat) (root : Option N) (memory : σ) : Option (WalkIterator N σ) :=
  doNodeFilter itemise F turns ⟨root, [], false, memory⟩

/-- `operator++`. -/
def increment (turns : Nat) (w : WalkIterator N σ) : Option (WalkIterator N σ) := do
  let w ← advanceInto itemise F w
  doNodeFilter itemise F turns w

/-- `GetCurrentPath`: for each node that the walk is inside of, the number of the child it
is at, from the root on. -/
def currentPath (state : List (StateEntry N)) : List (N × Nat) :=
  (state.map fun e => (e.node, e.iterator.index (itemise e.node))).reverse

/-- A loop over the walk, from where it is: the places it stops at, and the elements. -/
def collect (turns : Nat) : Nat → WalkIterator N σ → Option (List (List (N × Nat) × Option N))
  | 0, _ => none
  | steps + 1, w =>
      if w.done then some []
      else do
        let element ← w.deref itemise
        let next ← increment itemise F turns w
        let rest ← collect turns steps next
        some ((currentPath itemise w.state, element) :: rest)

end WalkIterator

/-- A loop over a `Walk`, from `begin()` to `end()`.  The number bounds the turns of each
loop. -/
def walk (turns : Nat) (root : Option N) (memory : σ) :
    Option (List (List (N × Nat) × Option N)) := do
  let w ← WalkIterator.start itemise F turns root memory
  w.collect itemise F turns turns

end

section

variable {N : Type} [DecidableEq N] (itemise : N → List (Member N))

/-- `UniqueFilter`, which remembers the nodes it has seen. -/
def uniqueFilter : Filter N (Finset N) := fun seen n =>
  if n ∈ seen then (false, seen) else (true, insert n seen)

/-- `UniqueWalk`. -/
def uniqueWalk (turns : Nat) (root : Option N) : Option (List (List (N × Nat) × Option N)) :=
  walk itemise ⟨some uniqueFilter, none⟩ turns root ∅

/-- `ParentWalk`. -/
def parentWalk (turns : Nat) (root : Option N) : Option (List (List (N × Nat) × Option N)) :=
  walk itemise ⟨none, some uniqueFilter⟩ turns root ∅

end

/-! ## §2. The steps on the stack. -/

section

variable {N σ : Type} (itemise : N → List (Member N)) (F : Filters N σ)

/-- The entry stands at a child of its node. -/
def OnChild (e : StateEntry N) : Prop :=
  ∃ i, e.iterator.StandsAt (itemise e.node) i ∧ i < (childPtrs itemise e.node).length

/-- `AdvanceOver`, on the stack. -/
def overStack : List (StateEntry N) → Option (List (StateEntry N) × Bool)
  | [] => some ([], true)
  | e :: rest => do
      let e ← e.next itemise
      WalkIterator.bypass itemise e rest

/-- The element that the walk is at. -/
def elementAt (root : Option N) : List (StateEntry N) → Option (Option N)
  | [] => some root
  | e :: _ => e.iterator.deref (itemise e.node)

variable {itemise F}

theorem atEnd_eq_false {e : StateEntry N} (h : OnChild itemise e) : e.atEnd itemise = false := by
  obtain ⟨i, hstands, hlt⟩ := h
  rw [← Bool.not_eq_true]
  intro hend
  have hle := (FlattenIterator.isAtEnd_iff hstands).mp hend
  unfold childPtrs at hlt
  omega

/-- The loop stops at an entry that is not at its end, and otherwise goes over what it is
inside of. -/
theorem bypass_eq (e : StateEntry N) (rest : List (StateEntry N)) :
    WalkIterator.bypass itemise e rest
      = if e.atEnd itemise then overStack itemise rest else some (e :: rest, false) := by
  cases rest with
  | nil => rfl
  | cons f rest => rfl

theorem advanceOver_eq {root : Option N} {state : List (StateEntry N)} {s : σ}
    (h : ∀ e ∈ state, OnChild itemise e) :
    WalkIterator.advanceOver itemise ⟨root, state, false, s⟩
      = (overStack itemise state).map fun popped => ⟨root, popped.1, popped.2, s⟩ := by
  cases state with
  | nil => rfl
  | cons e rest =>
      have hend := atEnd_eq_false (h e List.mem_cons_self)
      unfold WalkIterator.advanceOver WalkIterator.isAtEndOfChildren overStack
      simp only [ASSERT_pos, hend, Option.bind_eq_bind, Option.bind_some]
      cases hnext : e.next itemise with
      | none => rfl
      | some e' =>
          unfold WalkIterator.bypassEndOfChildren
          simp only [ASSERT_pos, Option.bind_eq_bind, Option.bind_some]
          cases WalkIterator.bypass itemise e' rest <;> rfl

theorem deref_eq {root : Option N} {state : List (StateEntry N)} {s : σ}
    (h : ∀ e ∈ state, OnChild itemise e) :
    WalkIterator.deref itemise ⟨root, state, false, s⟩ = elementAt itemise root state := by
  cases state with
  | nil => rfl
  | cons e rest =>
      have hend := atEnd_eq_false (h e List.mem_cons_self)
      unfold WalkIterator.deref WalkIterator.isAtEndOfChildren elementAt
      simp only [ASSERT_pos, hend, Option.bind_eq_bind, Option.bind_some]

theorem isAtEndOfChildren_eq {root : Option N} {state : List (StateEntry N)} {s : σ}
    (h : ∀ e ∈ state, OnChild itemise e) :
    WalkIterator.isAtEndOfChildren itemise ⟨root, state, false, s⟩ = some false := by
  cases state with
  | nil => rfl
  | cons e rest =>
      have hend := atEnd_eq_false (h e List.mem_cons_self)
      unfold WalkIterator.isAtEndOfChildren
      simp only [ASSERT_pos, hend, Option.bind_eq_bind, Option.bind_some]

/-- `AdvanceInto` goes over an element that it does not recurse into. -/
theorem advanceInto_over {root : Option N} {state : List (StateEntry N)} {s : σ}
    {element : Option N} (h : ∀ e ∈ state, OnChild itemise e)
    (helement : elementAt itemise root state = some element)
    (hrecurse : (recurseAccepts F s element).1 = false) :
    WalkIterator.advanceInto itemise F ⟨root, state, false, s⟩
      = (overStack itemise state).map
          fun popped => ⟨root, popped.1, popped.2, (recurseAccepts F s element).2⟩ := by
  unfold WalkIterator.advanceInto
  rw [isAtEndOfChildren_eq h]
  simp only [deref_eq h, helement, ASSERT_pos, hrecurse, Option.bind_eq_bind, Option.bind_some]
  cases element <;> exact advanceOver_eq h

/-- And otherwise goes in, to the first child if there is one. -/
theorem advanceInto_into {root : Option N} {state : List (StateEntry N)} {s : σ}
    {n : N} (h : ∀ e ∈ state, OnChild itemise e)
    (helement : elementAt itemise root state = some (some n))
    (hrecurse : (recurseAccepts F s (some n)).1 = true) :
    WalkIterator.advanceInto itemise F ⟨root, state, false, s⟩
      = (WalkIterator.bypass itemise ⟨n, FlattenIterator.start (itemise n)⟩ state).map
          fun popped => ⟨root, popped.1, popped.2, (recurseAccepts F s (some n)).2⟩ := by
  unfold WalkIterator.advanceInto
  rw [isAtEndOfChildren_eq h]
  simp only [deref_eq h, helement, ASSERT_pos, hrecurse, Option.bind_eq_bind, Option.bind_some]
  unfold WalkIterator.push WalkIterator.bypassEndOfChildren
  simp only [ASSERT_pos, Option.bind_eq_bind, Option.bind_some]
  cases WalkIterator.bypass itemise ⟨n, FlattenIterator.start (itemise n)⟩ state <;> rfl

/-! ## §3. Parts of a walk. -/

/-- The walk goes from one place to another, and the out filter accepts these elements on
the way. -/
inductive Scan (itemise : N → List (Member N)) (F : Filters N σ) :
    WalkIterator N σ → List (List (N × Nat) × Option N) → WalkIterator N σ → Prop where
  | refl (w : WalkIterator N σ) : Scan itemise F w [] w
  | step {root : Option N} {state : List (StateEntry N)} {s : σ} {w₁ w₂ : WalkIterator N σ}
      {element : Option N} {found : List (List (N × Nat) × Option N)}
      (hderef : ∀ s : σ, WalkIterator.deref itemise ⟨root, state, false, s⟩ = some element)
      (hadvance : WalkIterator.advanceInto itemise F
        ⟨root, state, false, (outAccepts F s element).2⟩ = some w₁)
      (hrest : Scan itemise F w₁ found w₂) :
      Scan itemise F ⟨root, state, false, s⟩
        ((if (outAccepts F s element).1
          then [(WalkIterator.currentPath itemise state, element)] else []) ++ found) w₂

theorem Scan.trans {w₁ w₂ w₃ : WalkIterator N σ} {found found' : List (List (N × Nat) × Option N)}
    (h : Scan itemise F w₁ found w₂) (h' : Scan itemise F w₂ found' w₃) :
    Scan itemise F w₁ (found ++ found') w₃ := by
  induction h with
  | refl w => exact h'
  | step hderef hadvance _ ih =>
      rw [List.append_assoc]
      exact .step hderef hadvance (ih h')

/-- **Part of a walk to the end is the loop over it**, for any high enough bounds: the two
loops come to their ends, and assert nothing. -/
theorem Scan.collect {w w' : WalkIterator N σ} {found : List (List (N × Nat) × Option N)}
    (h : Scan itemise F w found w') (hend : w'.done = true) :
    ∃ bound, ∀ first ≥ bound, ∀ turns ≥ bound, ∀ steps ≥ bound,
      (WalkIterator.doNodeFilter itemise F first w).bind
        (fun w => w.collect itemise F turns steps) = some found := by
  induction h with
  | refl w =>
      refine ⟨1, ?_⟩
      intro first hfirst turns _ steps hsteps
      obtain ⟨first, rfl⟩ := Nat.exists_eq_add_of_le' hfirst
      obtain ⟨steps, rfl⟩ := Nat.exists_eq_add_of_le' hsteps
      simp [WalkIterator.doNodeFilter, WalkIterator.collect, hend]
  | @step root state s w₁ w₂ element found hderef hadvance _ ih =>
      obtain ⟨bound, hbound⟩ := ih hend
      refine ⟨bound + 1, ?_⟩
      intro first hfirst turns hturns steps hsteps
      obtain ⟨first, rfl⟩ : ∃ k, first = k + 1 := ⟨first - 1, by omega⟩
      obtain ⟨steps, rfl⟩ : ∃ k, steps = k + 1 := ⟨steps - 1, by omega⟩
      cases hok : (outAccepts F s element).1 with
      | true =>
          -- the walk stops here, and goes on when it is incremented
          have hstop : WalkIterator.doNodeFilter itemise F (first + 1) ⟨root, state, false, s⟩
              = some ⟨root, state, false, (outAccepts F s element).2⟩ := by
            simp [WalkIterator.doNodeFilter, hderef, hok]
          have hnext := hbound turns (by omega) turns (by omega) steps (by omega)
          obtain ⟨next, hfilter, hcollect⟩ := Option.bind_eq_some_iff.mp hnext
          have hincrement : WalkIterator.increment itemise F turns
              ⟨root, state, false, (outAccepts F s element).2⟩ = some next := by
            simp [WalkIterator.increment, hadvance, hfilter]
          rw [hstop]
          simp [WalkIterator.collect, hderef, hincrement, hcollect]
      | false =>
          have hgo : WalkIterator.doNodeFilter itemise F (first + 1) ⟨root, state, false, s⟩
              = WalkIterator.doNodeFilter itemise F first w₁ := by
            simp [WalkIterator.doNodeFilter, hderef, hok, hadvance]
          rw [hgo]
          exact hbound first (by omega) turns (by omega) (steps + 1) (by omega)

/-! ## §4. From an element over all that is below it. -/

/-- What the walk finds below `path`. -/
def under (path : List (N × Nat)) (found : List (List (N × Nat) × Option N)) :
    List (List (N × Nat) × Option N) :=
  found.map fun f => (path ++ f.1, f.2)

/-- The children of an element, each with the step to it. -/
def steps (itemise : N → List (Member N)) : Option N → List ((N × Nat) × Option N)
  | none => []
  | some n => (childPtrs itemise n).zipIdx.map fun c => ((n, c.2), c.1)

/-- The recursive walk. -/
def recursiveWalk (itemise : N → List (Member N)) (F : Filters N σ) (depth : Nat) (s : σ)
    (element : Option N) : List (List (N × Nat) × Option N) × σ :=
  filteredPreorder (steps itemise) (outAccepts F) (recurseAccepts F) depth s element

theorem recursiveWalk_over {s : σ} {element : Option N}
    (hrecurse : (recurseAccepts F (outAccepts F s element).2 element).1 = false) (depth : Nat) :
    recursiveWalk itemise F (depth + 1) s element
      = ((if (outAccepts F s element).1 then [([], element)] else []) ++ [],
        (recurseAccepts F (outAccepts F s element).2 element).2) := by
  unfold recursiveWalk
  rw [filteredPreorder]
  simp only [hrecurse, Bool.false_eq_true, if_false]

theorem recursiveWalk_into {s : σ} {element : Option N}
    (hrecurse : (recurseAccepts F (outAccepts F s element).2 element).1 = true) (depth : Nat) :
    recursiveWalk itemise F (depth + 1) s element
      = ((if (outAccepts F s element).1 then [([], element)] else [])
          ++ (inTurn (recursiveWalk itemise F depth)
            (recurseAccepts F (outAccepts F s element).2 element).2 (steps itemise element)).1,
        (inTurn (recursiveWalk itemise F depth)
          (recurseAccepts F (outAccepts F s element).2 element).2 (steps itemise element)).2) := by
  unfold recursiveWalk
  rw [filteredPreorder]
  simp only [hrecurse, if_true]

theorem under_append (path : List (N × Nat)) (found found' : List (List (N × Nat) × Option N)) :
    under path (found ++ found') = under path found ++ under path found' :=
  List.map_append

theorem under_here (path : List (N × Nat)) (ok : Bool) (element : Option N) :
    under path (if ok then [([], element)] else []) = if ok then [(path, element)] else [] := by
  cases ok <;> simp [under]

theorem currentPath_cons (e : StateEntry N) (state : List (StateEntry N)) :
    WalkIterator.currentPath itemise (e :: state)
      = WalkIterator.currentPath itemise state
          ++ [(e.node, e.iterator.index (itemise e.node))] := by
  unfold WalkIterator.currentPath
  rw [List.map_cons, List.reverse_cons]

/-- The children of a node that the walk is inside of, from the number `i` on. -/
theorem scan_children {depth : Nat} {root : Option N} {state : List (StateEntry N)} {n : N}
    {popped : List (StateEntry N) × Bool}
    (hover : overStack itemise state = some popped)
    (hchild : ∀ it i child s, it.StandsAt (itemise n) i → (childPtrs itemise n)[i]? = some child →
      ∃ popped', overStack itemise (⟨n, it⟩ :: state) = some popped'
        ∧ Scan itemise F ⟨root, ⟨n, it⟩ :: state, false, s⟩
            (under (WalkIterator.currentPath itemise (⟨n, it⟩ :: state))
              (recursiveWalk itemise F depth s child).1)
            ⟨root, popped'.1, popped'.2, (recursiveWalk itemise F depth s child).2⟩)
    (left : Nat) : ∀ (it : FlattenIterator) (i : Nat) (s : σ), it.StandsAt (itemise n) i →
      i + left = (childPtrs itemise n).length →
      ∃ into, WalkIterator.bypass itemise ⟨n, it⟩ state = some into
        ∧ Scan itemise F ⟨root, into.1, into.2, s⟩
            (under (WalkIterator.currentPath itemise state)
              (inTurn (recursiveWalk itemise F depth) s ((steps itemise (some n)).drop i)).1)
            ⟨root, popped.1, popped.2,
              (inTurn (recursiveWalk itemise F depth) s ((steps itemise (some n)).drop i)).2⟩ := by
  have hlen : (steps itemise (some n)).length = (childPtrs itemise n).length := by
    simp [steps]
  induction left with
  | zero =>
      intro it i s hstands hi
      -- no child is left: the iterator is at its end and the stack is popped
      have hend : (⟨n, it⟩ : StateEntry N).atEnd itemise = true :=
        (FlattenIterator.isAtEnd_iff hstands).mpr (by unfold childPtrs at hi; omega)
      have hdrop : (steps itemise (some n)).drop i = [] :=
        List.drop_eq_nil_of_le (by omega)
      refine ⟨popped, ?_, ?_⟩
      · rw [bypass_eq, hend, if_pos rfl, hover]
      · rw [hdrop]
        exact .refl _
  | succ left ih =>
      intro it i s hstands hi
      have hlt : i < (childPtrs itemise n).length := by omega
      -- on a child: its walk, and then the walk of the others
      have hon : OnChild itemise ⟨n, it⟩ := ⟨i, hstands, hlt⟩
      have hget := List.getElem?_eq_getElem hlt
      obtain ⟨popped', hover', hscan⟩ := hchild it i _ s hstands hget
      obtain ⟨it', hnext, hstands'⟩ := FlattenIterator.standsAt_increment hstands hlt
      obtain ⟨into, hinto, hrest⟩ :=
        ih it' (i + 1) (recursiveWalk itemise F depth s _).2 hstands' (by omega)
      -- where the child's walk ends is where the next one starts
      have hsame : popped' = into := by
        have hboth : overStack itemise (⟨n, it⟩ :: state) = some into := by
          unfold overStack StateEntry.next
          simp only [hnext, Option.bind_eq_bind, Option.bind_some, hinto]
        exact Option.some.inj (hover'.symm.trans hboth)
      have hdrop : (steps itemise (some n)).drop i
          = ((n, i), (childPtrs itemise n)[i]) :: (steps itemise (some n)).drop (i + 1) := by
        rw [List.drop_eq_getElem_cons (by omega)]
        simp [steps]
      refine ⟨(⟨n, it⟩ :: state, false), ?_, ?_⟩
      · rw [bypass_eq, atEnd_eq_false hon]
        rfl
      · subst hsame
        -- the places below the child are those of the walk, under this step
        have hpath : WalkIterator.currentPath itemise (⟨n, it⟩ :: state)
            = WalkIterator.currentPath itemise state ++ [(n, it.index (itemise n))] :=
          currentPath_cons ⟨n, it⟩ state
        have hall := hscan.trans hrest
        rw [hpath, hstands.index_eq] at hall
        rw [hdrop, inTurn_cons]
        convert hall using 1
        unfold under
        rw [List.map_append, List.map_map]
        congr 1
        refine List.map_congr_left fun f _ => ?_
        simp

/-- Going over asserts nothing. -/
theorem exists_overStack {state : List (StateEntry N)} (h : ∀ e ∈ state, OnChild itemise e) :
    ∃ popped, overStack itemise state = some popped := by
  induction state with
  | nil => exact ⟨([], true), rfl⟩
  | cons e rest ih =>
      obtain ⟨popped, hover⟩ := ih fun f hf => h f (List.mem_cons_of_mem e hf)
      obtain ⟨i, hstands, hlt⟩ := h e List.mem_cons_self
      obtain ⟨it', hnext, _⟩ := FlattenIterator.standsAt_increment hstands hlt
      unfold overStack StateEntry.next
      simp only [hnext, Option.bind_eq_bind, Option.bind_some, bypass_eq, hover]
      split
      · exact ⟨popped, rfl⟩
      · exact ⟨_, rfl⟩

/-- An element that the walk does not go below. -/
theorem scan_over {root : Option N} {state : List (StateEntry N)} {s : σ} {element : Option N}
    (hstate : ∀ e ∈ state, OnChild itemise e)
    (helement : elementAt itemise root state = some element) {popped : List (StateEntry N) × Bool}
    (hover : overStack itemise state = some popped)
    (hrecurse : (recurseAccepts F (outAccepts F s element).2 element).1 = false) (depth : Nat) :
    Scan itemise F ⟨root, state, false, s⟩
      (under (WalkIterator.currentPath itemise state)
        (recursiveWalk itemise F (depth + 1) s element).1)
      ⟨root, popped.1, popped.2, (recursiveWalk itemise F (depth + 1) s element).2⟩ := by
  have hadvance := advanceInto_over hstate helement hrecurse
  rw [hover] at hadvance
  have hstep := Scan.step (s := s) (fun s => (deref_eq hstate).trans helement) hadvance (.refl _)
  rw [recursiveWalk_over hrecurse, under_append, under_here]
  exact hstep

/-- **From an element the walk goes over what is below it**, handing out what the recursive
walk does, to where `AdvanceOver` would go. -/
theorem scan_element {height : N → Nat}
    (hheight : ∀ n, ∀ m, some m ∈ childPtrs itemise n → height m < height n) (depth : Nat) :
    ∀ (root : Option N) (state : List (StateEntry N)) (s : σ) (element : Option N),
      (∀ e ∈ state, OnChild itemise e) → elementAt itemise root state = some element →
      (∀ n, element = some n → height n < depth) →
      ∃ popped, overStack itemise state = some popped
        ∧ Scan itemise F ⟨root, state, false, s⟩
            (under (WalkIterator.currentPath itemise state)
              (recursiveWalk itemise F (depth + 1) s element).1)
            ⟨root, popped.1, popped.2, (recursiveWalk itemise F (depth + 1) s element).2⟩ := by
  induction depth with
  | zero =>
      intro root state s element hstate helement hlow
      -- no node is this low: the element is NULL, and the walk passes over it
      obtain ⟨popped, hover⟩ := exists_overStack hstate
      cases element with
      | none => exact ⟨popped, hover, scan_over hstate helement hover rfl 0⟩
      | some n => exact absurd (hlow n rfl) (Nat.not_lt_zero _)
  | succ depth ih =>
      intro root state s element hstate helement hlow
      obtain ⟨popped, hover⟩ := exists_overStack hstate
      refine ⟨popped, hover, ?_⟩
      cases hrecurse : (recurseAccepts F (outAccepts F s element).2 element).1 with
      -- the filter keeps the walk out
      | false => exact scan_over hstate helement hover hrecurse (depth + 1)
      | true =>
          cases element with
          | none => cases hrecurse
          | some n =>
              -- each child is walked by the induction hypothesis, for it is lower
              have hchild : ∀ it i child s, it.StandsAt (itemise n) i →
                  (childPtrs itemise n)[i]? = some child →
                  ∃ popped', overStack itemise (⟨n, it⟩ :: state) = some popped'
                    ∧ Scan itemise F ⟨root, ⟨n, it⟩ :: state, false, s⟩
                        (under (WalkIterator.currentPath itemise (⟨n, it⟩ :: state))
                          (recursiveWalk itemise F (depth + 1) s child).1)
                        ⟨root, popped'.1, popped'.2,
                          (recursiveWalk itemise F (depth + 1) s child).2⟩ := by
                intro it i child s hstands hget
                have hlt := (List.getElem?_eq_some_iff.mp hget).1
                refine ih root (⟨n, it⟩ :: state) s child ?_ ?_ ?_
                · intro e he
                  rcases List.mem_cons.mp he with rfl | he
                  · exact ⟨i, hstands, hlt⟩
                  · exact hstate e he
                · exact (FlattenIterator.deref_eq hstands hlt).trans hget
                · rintro m rfl
                  have hm := hheight n m (List.mem_of_getElem? hget)
                  have hn := hlow n rfl
                  omega
              obtain ⟨into, hinto, hscan⟩ := scan_children hover hchild _
                (FlattenIterator.start (itemise n)) 0
                (recurseAccepts F (outAccepts F s (some n)).2 (some n)).2
                FlattenIterator.standsAt_start (Nat.zero_add _)
              -- one step into the node, and then its children in turn
              have hadvance := advanceInto_into hstate helement hrecurse
              rw [hinto] at hadvance
              have hstep := Scan.step (s := s) (fun s => (deref_eq hstate).trans helement)
                hadvance hscan
              rw [recursiveWalk_into hrecurse, under_append, under_here]
              exact hstep

/-- Heights for the nodes of an acyclic tree. -/
theorem exists_childHeight (hacyclic : WellFounded fun m n => some m ∈ childPtrs itemise n) :
    ∃ height : N → Nat, ∀ n, ∀ m, some m ∈ childPtrs itemise n → height m < height n := by
  have hmem : ∀ m n, m ∈ (childPtrs itemise n).filterMap id ↔ some m ∈ childPtrs itemise n := by
    intro m n
    simp [List.mem_filterMap]
  have hwf : WellFounded fun m n => m ∈ (childPtrs itemise n).filterMap id := by
    simpa only [hmem] using hacyclic
  obtain ⟨height, hheight⟩ := exists_height hwf
  exact ⟨height, fun n m hm => hheight n m ((hmem m n).mpr hm)⟩

/-- **The walk stops at what the recursive walk hands out**, whatever its filters are, and
comes to its end without an assertion. -/
theorem walk_eq (hacyclic : WellFounded fun m n => some m ∈ childPtrs itemise n) (root : Option N)
    (memory : σ) :
    ∃ bound, ∀ turns ≥ bound, ∀ depth ≥ bound,
      walk itemise F turns root memory = some (recursiveWalk itemise F depth memory root).1 := by
  obtain ⟨height, hheight⟩ := exists_childHeight hacyclic
  -- deep enough for all that is below the root
  let deep := match root with
    | none => 0
    | some n => height n + 1
  have hdeep : ∀ n, root = some n → height n < deep := by
    rintro n rfl
    exact Nat.lt_succ_self _
  have hscan : ∀ depth ≥ deep, ∃ w : WalkIterator N σ, w.done = true
      ∧ Scan itemise F ⟨root, [], false, memory⟩
          (recursiveWalk itemise F (depth + 1) memory root).1 w := by
    intro depth hdepth
    obtain ⟨popped, hover, hscan⟩ := scan_element (F := F) hheight depth root [] memory root
      (by simp) rfl (fun n hn => lt_of_lt_of_le (hdeep n hn) hdepth)
    cases hover
    refine ⟨_, ?_, by simpa [under, WalkIterator.currentPath] using hscan⟩
    rfl
  have hwalk : ∀ depth ≥ deep, ∃ bound, ∀ turns ≥ bound,
      walk itemise F turns root memory
        = some (recursiveWalk itemise F (depth + 1) memory root).1 := by
    intro depth hdepth
    obtain ⟨w, hdone, hscan⟩ := hscan depth hdepth
    obtain ⟨bound, hbound⟩ := hscan.collect hdone
    exact ⟨bound, fun turns hturns => hbound turns hturns turns hturns turns hturns⟩
  obtain ⟨bound, hbound⟩ := hwalk deep le_rfl
  refine ⟨max bound (deep + 1), ?_⟩
  intro turns hturns depth hdepth
  obtain ⟨depth, rfl⟩ : ∃ k, depth = k + 1 := ⟨depth - 1, by omega⟩
  obtain ⟨bound', hbound'⟩ := hwalk depth (by omega)
  -- a walk long enough for both depths is the same walk
  have hboth := (hbound (max turns bound') (by omega)).symm.trans
    (hbound' (max turns bound') (by omega))
  rw [hbound turns (by omega), hboth]

end

end Inferno.Helpers
