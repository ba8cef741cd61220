/-
  Inferno.Agents.SubContainers
  ────────────────────────────
  The containers a star is given: a range of a container of the input, with some of
  its elements left out.

    • `SubSequenceRange`    — what is between two iterators of a sequence,
    • `SubCollectionRange`  — a collection and the set of its excluded elements,
    • `normaliseForward`, `increment`, `walk`
                            — the exclusion iterator, and a range-for with it,
    • `elements_eq_filter`  — a range-for visits the elements not excluded, in order.
-/
import Inferno.DB.XTreeDatabase

namespace Inferno.Agents

open Inferno.DB

variable {L N : Type}

/-! ## §1. Ranges. -/

/-- `SubSequenceRange`: the parent node, and what is between `my_begin` and `my_end`. -/
structure SubSequenceRange (L N : Type) where
  parentX : N
  elements : List L
deriving DecidableEq

/-- `SubCollectionRange`, a `SubContainerRangeExclusions`.  An excluded element is the
address of a `TreePtr`. -/
structure SubCollectionRange (L N : Type) where
  parentX : N
  range : List L
  exclusions : Finset (XLink L)

namespace SubCollectionRange

variable [DecidableEq L]

/-! ## §2. The exclusion iterator. -/

/-- `IsExcluded`.  An iterator is what is left of the range from it on; `my_end` is
not excluded. -/
def isExcluded (r : SubCollectionRange L N) : List L → Bool
  | [] => false
  | x :: _ => decide (XLink.link x ∈ r.exclusions)

/-- `NormaliseForward`. -/
def normaliseForward (r : SubCollectionRange L N) : List L → List L
  | [] => []
  | x :: rest => if r.isExcluded (x :: rest) then r.normaliseForward rest else x :: rest

/-- `begin`: `my_exclusive_begin`. -/
def begin (r : SubCollectionRange L N) : List L :=
  r.normaliseForward r.range

/-- `operator++`; at the end it is undefined. -/
def increment (r : SubCollectionRange L N) : List L → Option (List L)
  | [] => none
  | _ :: rest => some (r.normaliseForward rest)

theorem normaliseForward_length_le (r : SubCollectionRange L N) (pib : List L) :
    (r.normaliseForward pib).length ≤ pib.length := by
  induction pib with
  | nil => exact Nat.le_refl _
  | cons x rest ih =>
      unfold normaliseForward
      split
      next => exact Nat.le_succ_of_le ih
      next => exact Nat.le_refl _

theorem increment_length_lt {r : SubCollectionRange L N} {pib next : List L}
    (h : r.increment pib = some next) : next.length < pib.length := by
  cases pib with
  | nil => cases h
  | cons x rest =>
      cases h
      have hle := r.normaliseForward_length_le rest
      show _ < rest.length + 1
      omega

/-- A range-for from an iterator to `end`. -/
def walk (r : SubCollectionRange L N) (pib : List L) : List L :=
  match pib.head?, _h : r.increment pib with
  | some x, some next => x :: r.walk next
  | _, _ => []
termination_by pib.length
decreasing_by exact increment_length_lt _h

/-- What a range-for over the sub-collection visits. -/
def elements (r : SubCollectionRange L N) : List L :=
  r.walk r.begin

/-! ## §3. What is visited. -/

@[simp] theorem walk_nil (r : SubCollectionRange L N) : r.walk [] = [] := by
  rw [walk]
  rfl

@[simp] theorem walk_cons (r : SubCollectionRange L N) (x : L) (rest : List L) :
    r.walk (x :: rest) = x :: r.walk (r.normaliseForward rest) := by
  rw [walk]
  rfl

theorem walk_normaliseForward (r : SubCollectionRange L N) (pib : List L) :
    r.walk (r.normaliseForward pib) = pib.filter (fun x => XLink.link x ∉ r.exclusions) := by
  induction pib with
  | nil => simp [normaliseForward]
  | cons x rest ih =>
      unfold normaliseForward
      by_cases hx : XLink.link x ∈ r.exclusions
      · simp [isExcluded, hx, ih]
      · simp [isExcluded, hx, ih]

/-- **A range-for visits exactly the elements that are not excluded**, in order. -/
theorem elements_eq_filter (r : SubCollectionRange L N) :
    r.elements = r.range.filter (fun x => XLink.link x ∉ r.exclusions) :=
  r.walk_normaliseForward r.range

end SubCollectionRange

end Inferno.Agents
