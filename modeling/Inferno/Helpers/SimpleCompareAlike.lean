/-
  Inferno.Helpers.SimpleCompareAlike
  ──────────────────────────────────
  Subtrees that are alike node by node tie in `SimpleCompare`.

    • `compare3Way_self`, `compare3Way_symm` — so does a subtree with itself, and ties turn
                            round; no more is true of NaNs,
    • `Item.Rel`          — items of one interface, over a relation of their links,
    • `AlikeNode`         — class, data and items agree; a specific identifier is only
                            like itself,
    • `respects_compareFuel` — what is alike compares alike,
    • `compare3Way_alike` — and ties.

  Nothing is assumed of the floats or of NULLs: the walks of the two collections go
  the same way, whatever the comparison does.
-/
import Inferno.Helpers.FloatLiterals
import Inferno.Lib.ComparatorRel

namespace Inferno.DB

/-- Items over a relation of links. -/
inductive Item.Rel {L M : Type} (R : L → M → Prop) : Item L → Item M → Prop where
  | singular {x : L} {y : M} (h : R x y) : Item.Rel R (.singular x) (.singular y)
  | sequence {xs : List L} {ys : List M} (h : List.Forall₂ R xs ys) :
      Item.Rel R (.sequence xs) (.sequence ys)
  | collection {xs : List L} {ys : List M} (h : List.Forall₂ R xs ys) :
      Item.Rel R (.collection xs) (.collection ys)

namespace Item.Rel

variable {L M : Type} {R S : L → M → Prop} {i : Item L} {j : Item M}

theorem links (h : Item.Rel R i j) : List.Forall₂ R i.links j.links := by
  cases h with
  | singular h => exact List.Forall₂.cons h List.Forall₂.nil
  | sequence h => exact h
  | collection h => exact h

theorem imp (h : Item.Rel R i j) (himp : ∀ x y, R x y → S x y) : Item.Rel S i j := by
  cases h with
  | singular h => exact .singular (himp _ _ h)
  | sequence h => exact .sequence (h.imp himp)
  | collection h => exact .collection (h.imp himp)

theorem flip (h : Item.Rel R i j) : Item.Rel (fun y x => R x y) j i := by
  cases h with
  | singular h => exact .singular h
  | sequence h => exact .sequence h.flip
  | collection h => exact .collection h.flip

theorem refl {R : L → L → Prop} (hrefl : ∀ x, R x x) (i : Item L) : Item.Rel R i i := by
  cases i with
  | singular x => exact .singular (hrefl x)
  | sequence xs => exact .sequence (List.forall₂_same.mpr (fun x _ => hrefl x))
  | collection xs => exact .collection (List.forall₂_same.mpr (fun x _ => hrefl x))

end Item.Rel

end Inferno.DB

namespace Inferno.Helpers

open Inferno.Common
open Inferno.DB
open Inferno.Lib

namespace SimpleCompare

variable {N : Type} [LinearOrder N] (t : TreeNodes N) (orderProperty : OrderProperty)

/-! ## §1. A node against itself. -/

theorem orderCompare3Way_self (x : N) : t.orderCompare3Way orderProperty x x = 0 := by
  unfold TreeNodes.orderCompare3Way TreeNodes.orderCompare3WayCovariant
  rw [linearCompare_eq_zero.mpr rfl, thenBy_zero]
  cases t.value x with
  | nothing => rfl
  | identifier name role => exact if_pos rfl
  | string value => exact linearCompare_eq_zero.mpr rfl
  | integer isUnsigned bitWidth value =>
      show thenBy _ (thenBy _ (linearCompare value value)) = 0
      rw [Int.sub_self, Int.sub_self, linearCompare_eq_zero.mpr rfl]
      rfl
  | float value => exact value.orderCompare_self
  | floatSemantics value =>
      cases orderProperty with
      | TOTAL => exact linearCompare_eq_zero.mpr rfl
      | REPEATABLE => rfl

omit [LinearOrder N] in
theorem compareTreePtr_self {cmp : N → N → Int} (hrefl : ∀ x, cmp x x = 0) (p : Option N) :
    compareTreePtr cmp p p = 0 := by
  cases p with
  | none => rfl
  | some x => exact hrefl x

omit [LinearOrder N] in
theorem compareItems_self {cmp : N → N → Int} (hrefl : ∀ x, cmp x x = 0)
    (items : List (Item (Option N))) : compareItems cmp items items = 0 := by
  induction items with
  | nil => rfl
  | cons item items ih =>
      cases item with
      | singular p =>
          rw [compareItems, ih, compareTreePtr_self hrefl]
          cases p <;> rfl
      | sequence ls =>
          rw [compareItems, ih, listCompare_self (compareTreePtr_self hrefl)]
          rfl
      | collection ls =>
          rw [compareItems, ih, multisetCompare_self]
          rfl

theorem compareFuel_self (k : Nat) (x : N) : compareFuel t orderProperty k x x = 0 := by
  cases k with
  | zero => rfl
  | succ k => exact if_pos rfl

theorem compare3Way_self (x : N) : compare3Way t orderProperty x x = 0 :=
  compareFuel_self t orderProperty _ x

/-! ## §2. Ties turn round. -/

variable {t orderProperty} {cmp : N → N → Int}

theorem orderCompare3WayCovariant_symm {l r : N} (hkind : (t.value l).kind = (t.value r).kind)
    (h : t.orderCompare3WayCovariant orderProperty l r = 0) :
    t.orderCompare3WayCovariant orderProperty r l = 0 := by
  unfold TreeNodes.orderCompare3WayCovariant at h ⊢
  -- each kind of data compares by what is symmetric when it is zero
  cases hl : t.value l with
  | nothing =>
      rw [hl] at hkind
      rw [kind_nothing hkind]
  | identifier name role =>
      rw [hl] at hkind h
      obtain ⟨name', role', hr⟩ := kind_identifier hkind
      rw [hr] at h ⊢
      dsimp only at h ⊢
      by_cases hlr : l = r
      · rw [if_pos hlr.symm]
      · rw [if_neg hlr, thenBy_eq_zero, linearCompare_eq_zero] at h
        rw [if_neg (Ne.symm hlr), thenBy_eq_zero, linearCompare_eq_zero]
        refine ⟨h.1.symm, ?_⟩
        -- where neither bounds, the two would be one node
        by_cases hrole : role ≠ .NONE ∨ role' ≠ .NONE
        · have hdiff := h.2
          rw [if_pos hrole] at hdiff
          rw [if_pos hrole.symm]
          omega
        · rw [if_neg hrole, linearCompare_eq_zero] at h
          exact absurd h.2 hlr
  | string value =>
      rw [hl] at hkind h
      obtain ⟨value', hr⟩ := kind_string hkind
      rw [hr] at h ⊢
      exact linearCompare_eq_zero.mpr (linearCompare_eq_zero.mp h).symm
  | integer isUnsigned bitWidth value =>
      rw [hl] at hkind h
      obtain ⟨isUnsigned', bitWidth', value', hr⟩ := kind_integer hkind
      rw [hr] at h ⊢
      dsimp only at h ⊢
      rw [thenBy_eq_zero, thenBy_eq_zero, linearCompare_eq_zero] at h ⊢
      obtain ⟨hsign, hwidth, hvalue⟩ := h
      exact ⟨by omega, by omega, hvalue.symm⟩
  | float value =>
      rw [hl] at hkind h
      obtain ⟨value', hr⟩ := kind_float hkind
      rw [hr] at h ⊢
      have hlr := value.orderCompare_swap value'
      have hrl := value'.orderCompare_swap value
      dsimp only at h ⊢
      omega
  | floatSemantics address =>
      rw [hl] at hkind h
      obtain ⟨address', hr⟩ := kind_floatSemantics hkind
      rw [hr] at h ⊢
      cases orderProperty with
      | TOTAL => exact linearCompare_eq_zero.mpr (linearCompare_eq_zero.mp h).symm
      | REPEATABLE => rfl

theorem orderCompare3Way_symm {l r : N} (h : t.orderCompare3Way orderProperty l r = 0) :
    t.orderCompare3Way orderProperty r l = 0 := by
  unfold TreeNodes.orderCompare3Way at h ⊢
  rw [thenBy_eq_zero, linearCompare_eq_zero] at h ⊢
  exact ⟨h.1.symm, orderCompare3WayCovariant_symm (t.value_kind l r h.1) h.2⟩

omit [LinearOrder N] in
theorem compareTreePtr_symm (hsymm : ∀ x y, cmp x y = 0 → cmp y x = 0) {p q : Option N}
    (h : compareTreePtr cmp p q = 0) : compareTreePtr cmp q p = 0 := by
  cases p with
  | none =>
      cases q with
      | none => rfl
      | some y => cases h
  | some x =>
      cases q with
      | none => cases h
      | some y => exact hsymm x y h

omit [LinearOrder N] in
theorem compareItems_symm (hsymm : ∀ x y, cmp x y = 0 → cmp y x = 0)
    {ls : List (Item (Option N))} : ∀ {rs : List (Item (Option N))},
    compareItems cmp ls rs = 0 → compareItems cmp rs ls = 0 := by
  induction ls with
  | nil =>
      intro rs _
      cases rs with
      | nil => rfl
      | cons r rs => cases r <;> rfl
  | cons l ls ih =>
      intro rs h
      cases rs with
      | nil => cases l <;> rfl
      | cons r rs =>
          -- items of two kinds tie both ways round, so only like ones matter
          cases l with
          | sequence ps =>
              cases r with
              | sequence qs =>
                  rw [compareItems, thenBy_eq_zero, listCompare_eq_zero] at h
                  rw [compareItems, thenBy_eq_zero, listCompare_eq_zero]
                  exact ⟨(h.1.imp fun _ _ hpq => compareTreePtr_symm hsymm hpq).flip, ih h.2⟩
              | collection _ => rfl
              | singular _ => rfl
          | collection ps =>
              cases r with
              | sequence _ => rfl
              | collection qs =>
                  rw [compareItems, thenBy_eq_zero] at h ⊢
                  exact ⟨multisetCompare_symm h.1, ih h.2⟩
              | singular _ => rfl
          | singular p =>
              cases r with
              | sequence _ => rfl
              | collection _ => rfl
              | singular q =>
                  rw [compareItems] at h ⊢
                  rw [Bool.or_comm]
                  split
                  next hnull =>
                    rw [if_pos hnull] at h
                    omega
                  next hnull =>
                    rw [if_neg hnull, thenBy_eq_zero] at h
                    rw [thenBy_eq_zero]
                    exact ⟨compareTreePtr_symm hsymm h.1, ih h.2⟩

theorem compareFuel_symm (k : Nat) : ∀ {l r : N}, compareFuel t orderProperty k l r = 0 →
    compareFuel t orderProperty k r l = 0 := by
  induction k with
  | zero => exact fun _ => rfl
  | succ k ih =>
      intro l r h
      have h : compareWith t orderProperty (compareFuel t orderProperty k) l r = 0 := h
      show compareWith t orderProperty (compareFuel t orderProperty k) r l = 0
      unfold compareWith at h ⊢
      by_cases hlr : l = r
      · rw [if_pos hlr.symm]
      · rw [if_neg hlr, thenBy_eq_zero, thenBy_eq_zero] at h
        rw [if_neg (Ne.symm hlr), thenBy_eq_zero, thenBy_eq_zero]
        exact ⟨orderCompare3Way_symm h.1, by omega, compareItems_symm (fun _ _ => ih) h.2.2⟩

/-- **Ties turn round**, whatever the literals and NULLs. -/
theorem compare3Way_symm {l r : N} (h : compare3Way t orderProperty l r = 0) :
    compare3Way t orderProperty r l = 0 := by
  unfold compare3Way at h ⊢
  rw [Nat.max_comm]
  exact compareFuel_symm _ h

variable (t orderProperty)

/-- The test for one node decides nothing: the rest gives zero there too. -/
theorem compareWith_eq (hrefl : ∀ x, cmp x x = 0) (l r : N) :
    compareWith t orderProperty cmp l r = thenBy (t.orderCompare3Way orderProperty l r)
      (thenBy (((t.itemise l).length : Int) - (t.itemise r).length)
        (compareItems cmp (t.itemise l) (t.itemise r))) := by
  unfold compareWith
  split
  · rename_i heq
    rw [heq, orderCompare3Way_self, Int.sub_self, compareItems_self hrefl]
    rfl
  · rfl

/-! ## §3. Nodes alike. -/

/-- **Nodes alike**: class, data and items agree, over a relation of their children. -/
structure AlikeNode (E : N → N → Prop) (x y : N) : Prop where
  type : t.typeIndex x = t.typeIndex y
  value : t.value x = t.value y
  not_identifier : ∀ name role, t.value x ≠ .identifier name role
  items : List.Forall₂ (Item.Rel (Option.Rel E)) (t.itemise x) (t.itemise y)

variable {t orderProperty} {E : N → N → Prop} {x x' y y' : N}

/-- One of two things of one value is an identifier only when both are one thing. -/
theorem orderCompare3Way_alike (hx : x = x' ∨ AlikeNode t E x x')
    (hy : y = y' ∨ AlikeNode t E y y') :
    t.orderCompare3Way orderProperty x y = t.orderCompare3Way orderProperty x' y' := by
  have htype {a b : N} (h : a = b ∨ AlikeNode t E a b) : t.typeIndex a = t.typeIndex b :=
    h.elim (congrArg _) AlikeNode.type
  have hvalue {a b : N} (h : a = b ∨ AlikeNode t E a b) : t.value a = t.value b :=
    h.elim (congrArg _) AlikeNode.value
  have hsame {a b : N} (h : a = b ∨ AlikeNode t E a b) {name : String} {role : BoundingRole}
      (hid : t.value b = .identifier name role) : a = b := by
    rcases h with heq | halike
    · exact heq
    · exact absurd (halike.value.trans hid) (halike.not_identifier name role)
  unfold TreeNodes.orderCompare3Way TreeNodes.orderCompare3WayCovariant
  rw [htype hx, htype hy, hvalue hx, hvalue hy]
  congr 1
  cases hvx : t.value x' with
  | identifier name role =>
      cases hvy : t.value y' with
      | identifier name' role' => rw [hsame hx hvx, hsame hy hvy]
      | _ => rfl
  | _ => cases t.value y' <;> rfl

omit [LinearOrder N] in
theorem respects_compareTreePtr {cmp : N → N → Int} (h : Respects E cmp cmp) :
    Respects (Option.Rel E) (compareTreePtr cmp) (compareTreePtr cmp) := by
  intro p p' hp q q' hq
  cases hp with
  | none => cases hq <;> rfl
  | some hx =>
      cases hq with
      | none => rfl
      | some hy => exact h _ _ hx _ _ hy

omit [LinearOrder N] in
theorem compareItems_rel {cmp : N → N → Int} (h : Respects E cmp cmp)
    {ls ls' : List (Item (Option N))}
    (hl : List.Forall₂ (Item.Rel (Option.Rel E)) ls ls') : ∀ {rs rs' : List (Item (Option N))},
    List.Forall₂ (Item.Rel (Option.Rel E)) rs rs' →
    compareItems cmp ls rs = compareItems cmp ls' rs' := by
  have hptr := respects_compareTreePtr h
  induction hl with
  | nil => exact fun hr => by cases hr <;> rfl
  | cons hi hl ih =>
      intro rs rs' hr
      cases hr with
      | nil => cases hi <;> rfl
      | cons hj hr =>
          -- items of two kinds compare by kind alone
          have ih := ih hr
          cases hi with
          | singular hp =>
              cases hj with
              | singular hq =>
                  rw [compareItems, compareItems, ih, hptr _ _ hp _ _ hq]
                  cases hp <;> cases hq <;> rfl
              | _ => rfl
          | sequence hls =>
              cases hj with
              | sequence hrs => rw [compareItems, compareItems, ih, listCompare_rel hptr hls hrs]
              | _ => rfl
          | collection hls =>
              cases hj with
              | collection hrs =>
                  rw [compareItems, compareItems, ih, multisetCompare_rel hptr hls hrs]
              | _ => rfl

variable (hE : ∀ x y, E x y → x = y ∨ AlikeNode t E x y)

include hE

/-- **What is alike compares alike**, to every depth. -/
theorem respects_compareFuel (k : Nat) : Respects (fun x y => x = y ∨ E x y)
    (compareFuel t orderProperty k) (compareFuel t orderProperty k) := by
  -- what is alike has items that are alike up to equality
  have hwiden {a b : N} (h : a = b ∨ E a b) :
      a = b ∨ AlikeNode t (fun x y => x = y ∨ E x y) a b := by
    rcases h with heq | hab
    · exact Or.inl heq
    · refine (hE a b hab).imp id fun halike => ⟨halike.type, halike.value,
        halike.not_identifier, halike.items.imp fun i j hij => hij.imp fun p q hpq => ?_⟩
      cases hpq with
      | none => exact Option.Rel.none
      | some h => exact Option.Rel.some (Or.inr h)
  have hitems {a b : N} (h : a = b ∨ E a b) :
      List.Forall₂ (Item.Rel (Option.Rel fun x y => x = y ∨ E x y)) (t.itemise a)
        (t.itemise b) := by
    rcases hwiden h with heq | halike
    · rw [heq]
      refine List.forall₂_same.mpr fun item _ => Item.Rel.refl (fun p => ?_) item
      cases p with
      | none => exact Option.Rel.none
      | some x => exact Option.Rel.some (Or.inl rfl)
    · exact halike.items
  induction k with
  | zero => exact fun _ _ _ _ _ _ => rfl
  | succ k ih =>
      intro x x' hx y y' hy
      show compareWith t orderProperty _ x y = compareWith t orderProperty _ x' y'
      -- the comparison without its short cut for the same node
      rw [compareWith_eq t orderProperty (compareFuel_self t orderProperty k),
        compareWith_eq t orderProperty (compareFuel_self t orderProperty k),
        orderCompare3Way_alike (hwiden hx) (hwiden hy), (hitems hx).length_eq,
        (hitems hy).length_eq, compareItems_rel ih (hitems hx) (hitems hy)]

/-- **What is alike ties**, both ways round. -/
theorem compare3Way_alike (h : E x y) : compare3Way t orderProperty x y = 0
    ∧ compare3Way t orderProperty y x = 0 := by
  have hrespects (k : Nat) : Respects (fun x y => x = y ∨ E x y)
      (compareFuel t orderProperty k) (compareFuel t orderProperty k) := respects_compareFuel hE k
  constructor
  · show compareFuel t orderProperty _ x y = 0
    rw [← hrespects _ x x (Or.inl rfl) x y (Or.inr h)]
    exact compareFuel_self t orderProperty _ x
  · show compareFuel t orderProperty _ y x = 0
    rw [← hrespects _ x y (Or.inr h) x x (Or.inl rfl)]
    exact compareFuel_self t orderProperty _ x

end SimpleCompare

end Inferno.Helpers
