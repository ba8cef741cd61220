/-
  Inferno.SYM.Derivation
  ──────────────────────
  What the truth table solver derives from two predicates.

    • `Relationship`, `Transitivity` — `GetRelationshipWith` and
                                       `GetTransitivityWith` of each class,
    • `orderKey`                     — predicates that `Expression::Relation` holds equal
                                       have one key,
    • `trySubstitute`                — one operand over another, at its first place,
    • `tryDeriveRelationship`, `tryDerivePredicate` — both return for unequal predicates.
-/
import Inferno.Common.Assert
import Inferno.SYM.PredicateOperator
import Mathlib.Data.Finset.Card

namespace Inferno.SYM

open Inferno.Common

/-! ## §1. Tables of the classes. -/

/-- `Relationship`. -/
inductive Relationship where
  | NONE
  | CONTRADICTS
  | IMPLIES
deriving DecidableEq

/-- `Transitivity`. -/
inductive Transitivity where
  | NONE
  | FORWARD
  | REVERSE
  | BIDIRECTIONAL
deriving DecidableEq

namespace PredicateKind

variable {A M : Type}

/-- `IsCommutative`. -/
def isCommutative : PredicateKind A M → Bool
  | isEqual => true
  | isAllDiff => true
  | isSimpleCompareEquivalent => true
  | _ => false

/-- `IsCanSubstituteFrom`. -/
def isCanSubstituteFrom : PredicateKind A M → Bool
  | isEqual => true
  | _ => false

/-- `GetRelationshipWith`.  `isSubcategory a b` is `a->IsSubcategory( *b )` of two
archetype nodes. -/
def getRelationshipWith (isSubcategory : A → A → Bool) :
    PredicateKind A M → PredicateKind A M → Relationship
  | isEqual, isGreaterOrEqual => .IMPLIES
  | isEqual, isLessOrEqual => .IMPLIES
  | isEqual, isSimpleCompareEquivalent => .IMPLIES
  | isGreater, isGreaterOrEqual => .IMPLIES
  | isGreater, isEqual => .CONTRADICTS
  | isGreater, isLess => .CONTRADICTS
  | isGreater, isLessOrEqual => .CONTRADICTS
  | isLess, isLessOrEqual => .IMPLIES
  | isLess, isEqual => .CONTRADICTS
  | isLess, isGreater => .CONTRADICTS
  | isLess, isGreaterOrEqual => .CONTRADICTS
  | isGreaterOrEqual, isLess => .CONTRADICTS
  | isLessOrEqual, isGreater => .CONTRADICTS
  | isAllDiff, isEqual => .CONTRADICTS
  | isInCategory archetypeNode, isInCategory otherArchetypeNode =>
      -- the subcategory implies the supercategory
      if isSubcategory otherArchetypeNode archetypeNode then .IMPLIES else .NONE
  | _, _ => .NONE

/-- `GetTransitivityWith`. -/
def getTransitivityWith : PredicateKind A M → PredicateKind A M → Transitivity
  | isGreater, isGreaterOrEqual => .FORWARD
  | isGreater, isGreater => .FORWARD
  | isGreater, isLessOrEqual => .REVERSE
  | isGreater, isLess => .REVERSE
  | isLess, isLessOrEqual => .FORWARD
  | isLess, isLess => .FORWARD
  | isLess, isGreaterOrEqual => .REVERSE
  | isLess, isGreater => .REVERSE
  | isGreaterOrEqual, isGreaterOrEqual => .FORWARD
  | isGreaterOrEqual, isLessOrEqual => .REVERSE
  | isLessOrEqual, isLessOrEqual => .FORWARD
  | isLessOrEqual, isGreaterOrEqual => .REVERSE
  | isSimpleCompareEquivalent, isSimpleCompareEquivalent => .BIDIRECTIONAL
  | _, _ => .NONE

/-- A class that announces a transitivity, or that substitutes, has two operands. -/
theorem arity_of_isCanSubstituteFrom {kind : PredicateKind A M} {n : Nat}
    (h : kind.isCanSubstituteFrom = true) (harity : kind.Arity n) : n = 2 := by
  cases kind <;> first | exact harity | exact absurd h (by simp [isCanSubstituteFrom])

theorem arity_of_getTransitivityWith {kind other : PredicateKind A M}
    (h : kind.getTransitivityWith other ≠ .NONE) :
    (∀ n, kind.Arity n → n = 2) ∧ ∀ n, other.Arity n → n = 2 := by
  cases kind <;> cases other <;>
    first
      | exact ⟨fun _ hn => hn, fun _ hn => hn⟩
      | exact absurd rfl h

end PredicateKind

/-! ## §2. Equality and substitution. -/

/-- The operands, as `OrderCompare3WayChildren` compares them. -/
inductive OperandKey (S : Type) where
  | inOrder (operands : List S)
  | unordered (operands : Finset S)
deriving DecidableEq

namespace PredicateOperator

variable {S A M : Type} [DecidableEq S]

/-- **What `Expression::Relation` compares**: `OrderCompare3Way` of two predicates is 0
iff they have one key. -/
def orderKey (p : PredicateOperator S A M) : PredicateKind A M × OperandKey S :=
  (p.kind, if p.kind.isCommutative then .unordered p.operands.toFinset
    else .inOrder p.operands)

/-- `*s = with` at the first operand that equals `existing`. -/
def substituteFirst (existing «with» : S) : List S → Option (List S)
  | [] => none
  | s :: sop => if existing = s then some («with» :: sop)
      else (substituteFirst existing «with» sop).map (s :: ·)

theorem length_substituteFirst {existing «with» : S} {sop sop' : List S}
    (h : substituteFirst existing «with» sop = some sop') : sop'.length = sop.length := by
  induction sop generalizing sop' with
  | nil => exact absurd h (by simp [substituteFirst])
  | cons s sop ih =>
      unfold substituteFirst at h
      by_cases hs : existing = s
      · rw [if_pos hs] at h
        rw [← Option.some.inj h]
        rfl
      · rw [if_neg hs] at h
        obtain ⟨rest, hrest, rfl⟩ := Option.map_eq_some_iff.mp h
        rw [List.length_cons, List.length_cons, ih hrest]

/-- It succeeds when there is such an operand. -/
theorem substituteFirst_isSome {existing : S} («with» : S) {sop : List S} (h : existing ∈ sop) :
    ∃ sop', substituteFirst existing «with» sop = some sop' := by
  induction sop with
  | nil => exact absurd h (by simp)
  | cons s sop ih =>
      unfold substituteFirst
      by_cases hs : existing = s
      · rw [if_pos hs]
        exact ⟨_, rfl⟩
      · rw [if_neg hs]
        obtain ⟨sop', hsop'⟩ := ih ((List.mem_cons.mp h).resolve_left hs)
        exact ⟨s :: sop', by rw [hsop']; rfl⟩

/-- `TrySubstitute`. -/
def trySubstitute (p : PredicateOperator S A M) (existing «with» : S) :
    Option (PredicateOperator S A M) :=
  match h : substituteFirst existing «with» p.operands with
  | some operands => some ⟨p.kind, operands, by rw [length_substituteFirst h]; exact p.arity⟩
  | none => none

theorem trySubstitute_isSome (p : PredicateOperator S A M) (existing «with» : S)
    (h : existing ∈ p.operands) : ∃ pk, p.trySubstitute existing «with» = some pk := by
  obtain ⟨operands, hoperands⟩ := substituteFirst_isSome «with» h
  unfold trySubstitute
  split
  · exact ⟨_, rfl⟩
  next hnone => exact absurd (hnone.symm.trans hoperands) (by simp)

end PredicateOperator

/-! ## §3. Derivations. -/

section

/-- `ToPair`. -/
def toPair {S : Type} : List S → Option (S × S)
  | [a, b] => some (a, b)
  | _ => none

theorem toPair_eq {S : Type} {l : List S} (h : l.length = 2) :
    ∃ a b, l = [a, b] ∧ toPair l = some (a, b) := by
  match l, h with
  | [a, b], _ => exact ⟨a, b, rfl, rfl⟩

variable {S A M : Type} [DecidableEq S] [DecidableEq A] [DecidableEq M]

/-- `TryDeriveRelationship`. -/
def tryDeriveRelationship (isSubcategory : A → A → Bool) (pi pj : PredicateOperator S A M) :
    Option Relationship := do
  ASSERT (pi.orderKey ≠ pj.orderKey)
  if pi.kind.isCommutative || pj.kind.isCommutative then
    let setOpsI := pi.operands.toFinset
    let setOpsJ := pj.operands.toFinset
    let setOpsCommon := setOpsI ∩ setOpsJ
    if setOpsCommon.card < min setOpsI.card setOpsJ.card then some .NONE
    else some (pi.kind.getRelationshipWith isSubcategory pj.kind)
  else if pi.operands ≠ pj.operands then some .NONE
  else some (pi.kind.getRelationshipWith isSubcategory pj.kind)

/-- `TryDerivePredicate`; the inner `none` is `nullptr`.  `Substitute` is
`TrySubstitute`, asserted to succeed. -/
def tryDerivePredicate (pi pj : PredicateOperator S A M) :
    Option (Option (PredicateOperator S A M)) := do
  ASSERT (pi.orderKey ≠ pj.orderKey)
  if pi.kind.isCanSubstituteFrom then
    let opsI ← toPair pi.operands
    -- both ways round
    match pj.trySubstitute opsI.1 opsI.2 with
    | some pk => some (some pk)
    | none => some (pj.trySubstitute opsI.2 opsI.1)
  else
    let tij := pi.kind.getTransitivityWith pj.kind
    if tij = .NONE then some none
    else
      let opsI ← toPair pi.operands
      let opsJ ← toPair pj.operands
      if (tij = .FORWARD ∨ tij = .BIDIRECTIONAL) ∧ opsI.2 = opsJ.1 then
        (pi.trySubstitute opsI.2 opsJ.2).map some -- textbook case
      else if (tij = .FORWARD ∨ tij = .BIDIRECTIONAL) ∧ opsI.1 = opsJ.2 then
        (pi.trySubstitute opsI.1 opsJ.1).map some
      -- the second predicate commuted
      else if (tij = .REVERSE ∨ tij = .BIDIRECTIONAL) ∧ opsI.2 = opsJ.2 then
        (pi.trySubstitute opsI.2 opsJ.1).map some
      else if (tij = .REVERSE ∨ tij = .BIDIRECTIONAL) ∧ opsI.1 = opsJ.1 then
        (pi.trySubstitute opsI.1 opsJ.2).map some
      else some none

theorem tryDeriveRelationship_isSome (isSubcategory : A → A → Bool)
    {pi pj : PredicateOperator S A M} (h : pi.orderKey ≠ pj.orderKey) :
    ∃ rij, tryDeriveRelationship isSubcategory pi pj = some rij := by
  unfold tryDeriveRelationship
  rw [ASSERT_pos h]
  show ∃ rij, (if (pi.kind.isCommutative || pj.kind.isCommutative) = true then _ else _)
    = some rij
  split
  · split <;> exact ⟨_, rfl⟩
  · split <;> exact ⟨_, rfl⟩

/-- **No assertion of `TryDerivePredicate` fails** on unequal predicates. -/
theorem tryDerivePredicate_isSome {pi pj : PredicateOperator S A M}
    (h : pi.orderKey ≠ pj.orderKey) : ∃ pk, tryDerivePredicate pi pj = some pk := by
  unfold tryDerivePredicate
  rw [ASSERT_pos h]
  show ∃ pk, (if pi.kind.isCanSubstituteFrom = true then _ else _) = some pk
  by_cases hsub : pi.kind.isCanSubstituteFrom = true
  · rw [if_pos hsub]
    obtain ⟨a, b, _, hpair⟩ := toPair_eq
      (PredicateKind.arity_of_isCanSubstituteFrom hsub pi.arity)
    rw [hpair]
    show ∃ pk, (match pj.trySubstitute a b with
      | some pk => some (some pk)
      | none => some (pj.trySubstitute b a)) = some pk
    split <;> exact ⟨_, rfl⟩
  · -- no substitution: by the transitivity of the two classes
    rw [if_neg hsub]
    by_cases htij : pi.kind.getTransitivityWith pj.kind = .NONE
    · rw [if_pos htij]
      exact ⟨_, rfl⟩
    · rw [if_neg htij]
      have harity := PredicateKind.arity_of_getTransitivityWith htij
      obtain ⟨a, b, hi, hpairI⟩ := toPair_eq (harity.1 _ pi.arity)
      obtain ⟨c, d, _, hpairJ⟩ := toPair_eq (harity.2 _ pj.arity)
      rw [hpairI, hpairJ]
      dsimp only [Option.bind_eq_bind, Option.bind_some]
      -- an operand of the first predicate can be replaced in it
      have ha := fun x => pi.trySubstitute_isSome a x (by simp [hi])
      have hb := fun x => pi.trySubstitute_isSome b x (by simp [hi])
      split
      · obtain ⟨pk, hpk⟩ := hb d
        exact ⟨some pk, by rw [hpk]; rfl⟩
      split
      · obtain ⟨pk, hpk⟩ := ha c
        exact ⟨some pk, by rw [hpk]; rfl⟩
      split
      · obtain ⟨pk, hpk⟩ := hb c
        exact ⟨some pk, by rw [hpk]; rfl⟩
      split
      · obtain ⟨pk, hpk⟩ := ha d
        exact ⟨some pk, by rw [hpk]; rfl⟩
      · exact ⟨none, rfl⟩

end

end Inferno.SYM
