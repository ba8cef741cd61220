/-
  Inferno.Lib.ComparatorRel
  ─────────────────────────
  Comparisons of related values: where a relation keeps the answers, lists that are
  related element by element compare alike.

    • `Respects`            — related values compare alike,
    • `listCompare_rel`     — the lists, by their first difference,
    • `multisetOf_rel`      — their walks as multisets are related again,
    • `multisetCompare_rel` — and compare alike.
-/
import Inferno.Lib.Comparator

namespace Inferno.Lib

variable {X Y : Type*} {R : X → Y → Prop} {cmp : X → X → Int} {cmp' : Y → Y → Int}

/-- **Related values compare alike.** -/
def Respects (R : X → Y → Prop) (cmp : X → X → Int) (cmp' : Y → Y → Int) : Prop :=
  ∀ x x', R x x' → ∀ y y', R y y' → cmp x y = cmp' x' y'

variable (h : Respects R cmp cmp') {l r : List X} {l' r' : List Y}

include h

theorem firstDifference_rel (hl : List.Forall₂ R l l') : ∀ {r : List X} {r' : List Y},
    List.Forall₂ R r r' → firstDifference cmp l r = firstDifference cmp' l' r' := by
  induction hl with
  | nil => exact fun _ => rfl
  | cons hx hl ih =>
      intro r r' hr
      cases hr with
      | nil => rfl
      | cons hy hr =>
          rw [firstDifference, firstDifference, h _ _ hx _ _ hy, ih hr]

theorem listCompare_rel (hl : List.Forall₂ R l l') (hr : List.Forall₂ R r r') :
    listCompare cmp l r = listCompare cmp' l' r' := by
  unfold listCompare
  rw [hl.length_eq, hr.length_eq, firstDifference_rel h hl hr]

theorem insertUpper_rel {x : X} {x' : Y} (hx : R x x') (hl : List.Forall₂ R l l') :
    List.Forall₂ R (insertUpper cmp x l) (insertUpper cmp' x' l') := by
  induction hl with
  | nil => exact List.Forall₂.cons hx List.Forall₂.nil
  | cons hy hl ih =>
      unfold insertUpper
      rw [h _ _ hx _ _ hy]
      split
      · exact List.Forall₂.cons hx (List.Forall₂.cons hy hl)
      · exact List.Forall₂.cons hy ih

/-- **Related lists are walked alike** as multisets. -/
theorem multisetOf_rel (hl : List.Forall₂ R l l') :
    List.Forall₂ R (multisetOf cmp l) (multisetOf cmp' l') := by
  have hfold : ∀ {ordering : List X} {ordering' : List Y}, List.Forall₂ R ordering ordering' →
      List.Forall₂ R (l.foldl (fun ordering x => insertUpper cmp x ordering) ordering)
        (l'.foldl (fun ordering x => insertUpper cmp' x ordering) ordering') := by
    induction hl with
    | nil => exact fun hordering => hordering
    | cons hx hl ih => exact fun hordering => ih (insertUpper_rel h hx hordering)
  exact hfold List.Forall₂.nil

theorem lexicographicalLess_rel (hl : List.Forall₂ R l l') : ∀ {r : List X} {r' : List Y},
    List.Forall₂ R r r' → lexicographicalLess cmp l r = lexicographicalLess cmp' l' r' := by
  induction hl with
  | nil =>
      intro r r' hr
      cases hr <;> rfl
  | cons hx hl ih =>
      intro r r' hr
      cases hr with
      | nil => rfl
      | cons hy hr =>
          rw [lexicographicalLess, lexicographicalLess, h _ _ hx _ _ hy, h _ _ hy _ _ hx, ih hr]

/-- **Related lists compare alike** as multisets. -/
theorem multisetCompare_rel (hl : List.Forall₂ R l l') (hr : List.Forall₂ R r r') :
    multisetCompare cmp l r = multisetCompare cmp' l' r' := by
  have hwl := multisetOf_rel h hl
  have hwr := multisetOf_rel h hr
  unfold multisetCompare lexicographicalCompare
  rw [hl.length_eq, hr.length_eq, lexicographicalLess_rel h hwl hwr,
    lexicographicalLess_rel h hwr hwl]

omit h

/-! ## A list against itself. -/

theorem listCompare_self (hrefl : ∀ x, cmp x x = 0) (l : List X) : listCompare cmp l l = 0 := by
  rw [listCompare_eq_zero]
  exact List.forall₂_same.mpr (fun x _ => hrefl x)

theorem multisetCompare_self (cmp : X → X → Int) (l : List X) : multisetCompare cmp l l = 0 := by
  unfold multisetCompare lexicographicalCompare
  rw [Int.sub_self, Int.sub_self]
  rfl

/-- Two multisets tie both ways round. -/
theorem multisetCompare_symm {cmp : X → X → Int} {l r : List X}
    (h : multisetCompare cmp l r = 0) : multisetCompare cmp r l = 0 := by
  unfold multisetCompare lexicographicalCompare at h ⊢
  rw [thenBy_eq_zero] at h ⊢
  omega

end Inferno.Lib
