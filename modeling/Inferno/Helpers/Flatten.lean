/-
  Inferno.Helpers.Flatten
  ───────────────────────
  `helpers/flatten.cpp`: the children of a node one after another, the elements of its
  containers among them.

    • `Member`            — an item of a node, a `TreePtr` or a container of them,
    • `FlattenIterator`   — the place: a member, and an element if it is a container,
    • `begin`, `deref`, `increment` — the operations, with their assertions as `none`,
    • `StandsAt`          — the iterator stands at the child with a number,
    • `standsAt_begin`, `standsAt_increment`, `deref_eq` — what the operations do to it.
-/
import Mathlib.Data.List.Basic

namespace Inferno.Helpers

/-! ## §1. The iterator. -/

/-- `Itemiser::Element`: a singular child, or a sequence or collection of them.  `none` is
a NULL pointer. -/
inductive Member (N : Type) where
  | singular (ptr : Option N)
  | container (ptrs : List (Option N))
  deriving DecidableEq, Repr

/-- The pointers of a member. -/
def Member.ptrs {N : Type} : Member N → List (Option N)
  | .singular ptr => [ptr]
  | .container ptrs => ptrs

/-- `FlattenNode_iterator`.  `cit` is left as it was on a singular member. -/
structure FlattenIterator where
  mit : Nat
  cit : Nat
  deriving DecidableEq, Repr

namespace FlattenIterator

variable {N : Type} (members : List (Member N)) (it : FlattenIterator)

/-- `IsAtEnd`. -/
def isAtEnd : Bool := it.mit == members.length

/-- `NormaliseNewMember` and `BypassEndOfContainer`, which call each other, on the members
from `mit` on. -/
def normaliseNewMember : List (Member N) → FlattenIterator → FlattenIterator
  | [], it => it
  | .singular _ :: _, it => it
  | .container [] :: rest, it => normaliseNewMember rest ⟨it.mit + 1, 0⟩
  | .container (_ :: _) :: _, it => ⟨it.mit, 0⟩

/-- `BypassEndOfContainer`. -/
def bypassEndOfContainer : Option FlattenIterator :=
  match members[it.mit]? with
  | some (.container ptrs) =>
      if it.cit = ptrs.length then
        some (normaliseNewMember (members.drop (it.mit + 1)) ⟨it.mit + 1, it.cit⟩)
      else some it
  | _ => none

/-- The iterator's constructor. -/
def start : FlattenIterator := normaliseNewMember members ⟨0, 0⟩

/-- `operator++`. -/
def increment : Option FlattenIterator :=
  match members[it.mit]? with
  | some (.container _) => bypassEndOfContainer members ⟨it.mit, it.cit + 1⟩
  | some (.singular _) =>
      some (normaliseNewMember (members.drop (it.mit + 1)) ⟨it.mit + 1, it.cit⟩)
  | none => none

/-- `operator*`. -/
def deref : Option (Option N) :=
  match members[it.mit]? with
  | some (.container ptrs) => ptrs[it.cit]?
  | some (.singular ptr) => some ptr
  | none => none

end FlattenIterator

/-! ## §2. What it stands for. -/

/-- The children of a node, one after another. -/
def flatten {N : Type} (members : List (Member N)) : List (Option N) := members.flatMap Member.ptrs

namespace FlattenIterator

variable {N : Type} (members : List (Member N))

/-- How many children come before those of the member `mit`. -/
def before (mit : Nat) : Nat := (flatten (members.take mit)).length

/-- How far into its member the iterator is. -/
def within (it : FlattenIterator) : Nat :=
  match members[it.mit]? with
  | some (.container _) => it.cit
  | _ => 0

/-- The number of the child that the iterator is at. -/
def index (it : FlattenIterator) : Nat := before members it.mit + within members it

/-- The iterator is at an element, or at the end. -/
def Normal (it : FlattenIterator) : Prop :=
  match members[it.mit]? with
  | some (.container ptrs) => it.cit < ptrs.length
  | some (.singular _) => True
  | none => it.mit = members.length

/-- The iterator stands at the child `i`. -/
structure StandsAt (it : FlattenIterator) (i : Nat) : Prop where
  normal : Normal members it
  index_eq : index members it = i

variable {members}

theorem before_succ {mit : Nat} {m : Member N} (h : members[mit]? = some m) :
    before members (mit + 1) = before members mit + m.ptrs.length := by
  unfold before flatten
  rw [List.take_add_one, h]
  simp

theorem flatten_eq {mit : Nat} {m : Member N} (h : members[mit]? = some m) :
    flatten members
      = flatten (members.take mit) ++ (m.ptrs ++ flatten (members.drop (mit + 1))) := by
  obtain ⟨hlt, hget⟩ := List.getElem?_eq_some_iff.mp h
  have hsplit := List.take_append_drop mit members
  rw [List.drop_eq_getElem_cons hlt, hget] at hsplit
  conv_lhs => rw [← hsplit]
  unfold flatten
  rw [List.flatMap_append, List.flatMap_cons]

/-- Past the empty containers, the iterator stands at what comes next. -/
theorem standsAt_normalise (rest : List (Member N)) (it : FlattenIterator)
    (hrest : rest = members.drop it.mit) (hle : it.mit ≤ members.length) :
    StandsAt members (normaliseNewMember rest it) (before members it.mit) := by
  induction rest generalizing it with
  | nil =>
      -- the end, a child, or an empty container to go past
      have hmit : it.mit = members.length := by
        have hlen := List.length_drop (i := it.mit) (l := members)
        rw [← hrest, List.length_nil] at hlen
        omega
      have hget : members[it.mit]? = none := by
        rw [hmit]
        exact List.getElem?_eq_none (Nat.le_refl _)
      unfold normaliseNewMember
      exact ⟨by simp [Normal, hmit], by simp [index, within, hget]⟩
  | cons m rest ih =>
      have hget : members[it.mit]? = some m := by
        have h := congrArg (fun l => l[0]?) hrest
        simpa using h.symm
      have hlt : it.mit < members.length := (List.getElem?_eq_some_iff.mp hget).1
      have hdrop : rest = members.drop (it.mit + 1) := by
        have h := congrArg List.tail hrest
        simpa using h
      match m with
      | .singular ptr =>
          unfold normaliseNewMember
          exact ⟨by simp [Normal, hget], by simp [index, within, hget]⟩
      | .container [] =>
          unfold normaliseNewMember
          have hnext := ih ⟨it.mit + 1, 0⟩ hdrop hlt
          rw [show before members (it.mit + 1) = before members it.mit from before_succ hget]
            at hnext
          exact hnext
      | .container (ptr :: ptrs) =>
          unfold normaliseNewMember
          exact ⟨by simp [Normal, hget], by simp [index, within, hget]⟩

/-- The iterator starts at the first child. -/
theorem standsAt_start : StandsAt members (start members) 0 :=
  standsAt_normalise members ⟨0, 0⟩ rfl (Nat.zero_le _)

variable {it : FlattenIterator} {i : Nat}

/-- The iterator is at its end where there are no more children. -/
theorem isAtEnd_iff (h : StandsAt members it i) :
    isAtEnd members it = true ↔ (flatten members).length ≤ i := by
  obtain ⟨hnormal, rfl⟩ := h
  unfold isAtEnd
  rw [beq_iff_eq]
  unfold Normal at hnormal
  cases hget : members[it.mit]? with
  | none =>
      rw [hget] at hnormal
      -- no member is left, so all are before it
      have hall : before members it.mit = (flatten members).length := by
        unfold before
        rw [hnormal, List.take_length]
      have hindex : index members it = (flatten members).length := by
        rw [← hall]
        simp [index, within, hget]
      exact ⟨fun _ => Nat.le_of_eq hindex.symm, fun _ => hnormal⟩
  | some m =>
      -- in a member: before it are those of the members that come before, and some are left
      have hlt : it.mit < members.length := (List.getElem?_eq_some_iff.mp hget).1
      have hlen := congrArg List.length (flatten_eq hget)
      rw [List.length_append, List.length_append] at hlen
      change (flatten members).length = before members it.mit + _ at hlen
      rw [hget] at hnormal
      unfold index within
      rw [hget]
      cases m with
      | singular ptr =>
          simp only [Member.ptrs, List.length_singleton] at hlen ⊢
          omega
      | container ptrs =>
          simp only [Member.ptrs] at hlen ⊢
          have hcit : it.cit < ptrs.length := hnormal
          omega

/-- What the iterator points to. -/
theorem deref_eq (h : StandsAt members it i) (hi : i < (flatten members).length) :
    deref members it = (flatten members)[i]? := by
  have hend : isAtEnd members it ≠ true := fun hend => by
    have hle := (isAtEnd_iff h).mp hend
    omega
  obtain ⟨hnormal, rfl⟩ := h
  unfold Normal at hnormal
  unfold deref index within
  cases hget : members[it.mit]? with
  | none =>
      rw [hget] at hnormal
      exact absurd (by unfold isAtEnd; exact beq_iff_eq.mpr hnormal) hend
  | some m =>
      rw [hget] at hnormal
      rw [flatten_eq hget, List.getElem?_append_right (by unfold before; omega)]
      cases m with
      | singular ptr => simp [before, Member.ptrs]
      | container ptrs =>
          have hcit : it.cit < ptrs.length := hnormal
          simp [before, Member.ptrs, List.getElem?_append_left hcit]

/-- **`operator++` goes to the next child**, and asserts nothing before the end. -/
theorem standsAt_increment (h : StandsAt members it i) (hi : i < (flatten members).length) :
    ∃ it', increment members it = some it' ∧ StandsAt members it' (i + 1) := by
  have hend : isAtEnd members it ≠ true := fun hend => by
    have hle := (isAtEnd_iff h).mp hend
    omega
  obtain ⟨hnormal, rfl⟩ := h
  unfold Normal at hnormal
  unfold increment
  cases hget : members[it.mit]? with
  | none =>
      rw [hget] at hnormal
      exact absurd (by unfold isAtEnd; exact beq_iff_eq.mpr hnormal) hend
  | some m =>
      have hlt : it.mit < members.length := (List.getElem?_eq_some_iff.mp hget).1
      -- the place after this member, past members that have no children
      have hnext : ∀ cit, StandsAt members
          (normaliseNewMember (members.drop (it.mit + 1)) ⟨it.mit + 1, cit⟩)
          (before members it.mit + m.ptrs.length) := by
        intro cit
        rw [← before_succ hget]
        exact standsAt_normalise _ ⟨it.mit + 1, cit⟩ rfl hlt
      rw [hget] at hnormal
      cases m with
      | singular ptr =>
          refine ⟨_, rfl, ?_⟩
          have hindex : index members it = before members it.mit := by
            simp [index, within, hget]
          rw [hindex]
          exact hnext it.cit
      | container ptrs =>
          have hcit : it.cit < ptrs.length := hnormal
          have hindex : index members it = before members it.mit + it.cit := by
            simp [index, within, hget]
          show ∃ it', bypassEndOfContainer members ⟨it.mit, it.cit + 1⟩ = some it' ∧ _
          unfold bypassEndOfContainer
          rw [hindex]
          by_cases hlast : it.cit + 1 = ptrs.length
          · -- the last element: on to the next member
            simp only [hget, if_pos hlast]
            refine ⟨_, rfl, ?_⟩
            rw [Nat.add_assoc, hlast]
            exact hnext ptrs.length
          · -- an element before the last: the iterator stays in this member
            simp only [hget, if_neg hlast]
            refine ⟨_, rfl, ?_, ?_⟩
            · show Normal members ⟨it.mit, it.cit + 1⟩
              simp only [Normal, hget]
              omega
            · simp only [index, within, hget]
              omega

end FlattenIterator

end Inferno.Helpers
