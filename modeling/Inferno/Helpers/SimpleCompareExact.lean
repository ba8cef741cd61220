/-
  Inferno.Helpers.SimpleCompareExact
  ──────────────────────────────────
  When `SimpleCompare` is a total preorder whose equivalence is structural equality.

    • `SameNode`, `Same`     — structural equality, one level and all levels,
    • `Lawful`               — the laws, on a set of nodes,
    • `fullCompare`          — the comparison without the early return at a NULL,
    • `NullsSettled`         — the early return at two NULLs skips nothing that differs,
    • `simpleCompare_exact`  — the laws hold exactly if the NULLs are settled and the float
                               literals are separated.
-/
import Inferno.Helpers.FloatLiterals

namespace Inferno.Helpers

open Inferno.Common
open Inferno.DB
open Inferno.Lib

namespace SimpleCompare

variable {N : Type} [LinearOrder N] (t : TreeNodes N)

/-! ## §1. Structural equality. -/

/-- The values are the same; an identifier that is no bound is the same node. -/
def SameValue (l r : N) : Prop :=
  t.value l = t.value r ∧ ∀ name, t.value l = .identifier name .NONE → l = r

/-- Items match: NULLs match NULLs, sequences element by element and collections as
multisets. -/
def SameItem (E : N → N → Prop) : Item (Option N) → Item (Option N) → Prop
  | .singular p, .singular q => Option.Rel E p q
  | .sequence ls, .sequence rs => List.Forall₂ (Option.Rel E) ls rs
  | .collection ls, .collection rs =>
      Multiset.Rel (Option.Rel E) (ls : Multiset (Option N)) (rs : Multiset (Option N))
  | _, _ => False

/-- **Nodes match**: type, value, and items over `E`. -/
structure SameNode (E : N → N → Prop) (l r : N) : Prop where
  type : t.typeIndex l = t.typeIndex r
  value : SameValue t l r
  items : List.Forall₂ (SameItem E) (t.itemise l) (t.itemise r)

/-- **Structural equality**: the widest relation of matching nodes. -/
def Same (l r : N) : Prop := ∃ E : N → N → Prop, (∀ x y, E x y → SameNode t E x y) ∧ E l r

/-- The laws of a total preorder, whose equivalence is structural equality. -/
structure Lawful (S : Set N) : Prop where
  antisymmetric : ∀ x ∈ S, ∀ y ∈ S,
    (compare3Way t .TOTAL x y < 0 ↔ 0 < compare3Way t .TOTAL y x)
  transitive : ∀ x ∈ S, ∀ y ∈ S, ∀ z ∈ S, compare3Way t .TOTAL x y ≤ 0 →
    compare3Way t .TOTAL y z ≤ 0 → compare3Way t .TOTAL x z ≤ 0
  zero_iff : ∀ x ∈ S, ∀ y ∈ S, (compare3Way t .TOTAL x y = 0
    ↔ SameNode t (fun l r => compare3Way t .TOTAL l r = 0) x y)

/-- Children are in the set. -/
def Closed (S : Set N) : Prop := ∀ x ∈ S, ∀ y, IsElement (t.itemise x) y → y ∈ S

/-- The float literals of a set of nodes. -/
def literals (S : Set N) : Set APFloat := {f | ∃ x ∈ S, t.value x = .float f}

/-- **The early return skips nothing**: where two nodes of one type and value have a NULL
each, and are the same as far as that, they are the same from there on. -/
def NullsSettled (S : Set N) : Prop :=
  ∀ x ∈ S, ∀ y ∈ S, t.typeIndex x = t.typeIndex y → SameValue t x y → ∀ p q s u,
    t.itemise x = p ++ .singular none :: s → t.itemise y = q ++ .singular none :: u →
    List.Forall₂ (SameItem (Same t)) p q → List.Forall₂ (SameItem (Same t)) s u

section

variable {E F : N → N → Prop}

omit [LinearOrder N] in
theorem optionRel_congr {p q : Option N}
    (h : ∀ x y, p = some x → q = some y → (E x y ↔ F x y)) :
    Option.Rel E p q ↔ Option.Rel F p q := by
  cases p with
  | none =>
      cases q with
      | none => exact iff_of_true Option.Rel.none Option.Rel.none
      | some y => exact iff_of_false (by rintro ⟨⟩) (by rintro ⟨⟩)
  | some x =>
      cases q with
      | none => exact iff_of_false (by rintro ⟨⟩) (by rintro ⟨⟩)
      | some y =>
          rw [Option.rel_some_some, Option.rel_some_some]
          exact h x y rfl rfl

theorem forall₂_congr_mem {α β : Type} {R R' : α → β → Prop} {l : List α} : ∀ {r : List β},
    (∀ a ∈ l, ∀ b ∈ r, (R a b ↔ R' a b)) → (List.Forall₂ R l r ↔ List.Forall₂ R' l r) := by
  induction l with
  | nil => exact fun _ => List.forall₂_nil_left_iff.trans List.forall₂_nil_left_iff.symm
  | cons a l ih =>
      intro r h
      cases r with
      | nil => exact iff_of_false (by rintro ⟨⟩) (by rintro ⟨⟩)
      | cons b r =>
          rw [List.forall₂_cons, List.forall₂_cons, h a List.mem_cons_self b List.mem_cons_self,
            ih (fun x hx y hy => h x (List.mem_cons_of_mem a hx) y (List.mem_cons_of_mem b hy))]

omit [LinearOrder N] in
theorem multisetRel_congr {p q : Multiset (Option N)}
    (h : ∀ a ∈ p, ∀ b ∈ q, (Option.Rel E a b ↔ Option.Rel F a b)) :
    Multiset.Rel (Option.Rel E) p q ↔ Multiset.Rel (Option.Rel F) p q := by
  constructor
  · intro hrel
    exact hrel.mono (fun a ha b hb => (h a ha b hb).mp)
  · intro hrel
    exact hrel.mono (fun a ha b hb => (h a ha b hb).mpr)

omit [LinearOrder N] in
/-- Items match by what holds of their elements. -/
theorem sameItem_congr {l r : Item (Option N)}
    (h : ∀ x y, some x ∈ l.links → some y ∈ r.links → (E x y ↔ F x y)) :
    SameItem E l r ↔ SameItem F l r := by
  have hopt (p q : Option N) (hp : p ∈ l.links) (hq : q ∈ r.links) :
      Option.Rel E p q ↔ Option.Rel F p q :=
    optionRel_congr (fun x y hx hy => h x y (hx ▸ hp) (hy ▸ hq))
  cases l with
  | singular p =>
      cases r with
      | singular q => exact hopt p q List.mem_cons_self List.mem_cons_self
      | sequence rs => exact Iff.rfl
      | collection rs => exact Iff.rfl
  | sequence ls =>
      cases r with
      | singular q => exact Iff.rfl
      | sequence rs => exact forall₂_congr_mem (fun p hp q hq => hopt p q hp hq)
      | collection rs => exact Iff.rfl
  | collection ls =>
      cases r with
      | singular q => exact Iff.rfl
      | sequence rs => exact Iff.rfl
      | collection rs =>
          exact multisetRel_congr (fun a ha b hb =>
            hopt a b (Multiset.mem_coe.mp ha) (Multiset.mem_coe.mp hb))

omit [LinearOrder N] in
theorem sameItems_congr {ls rs : List (Item (Option N))}
    (h : ∀ x y, IsElement ls x → IsElement rs y → (E x y ↔ F x y)) :
    List.Forall₂ (SameItem E) ls rs ↔ List.Forall₂ (SameItem F) ls rs :=
  forall₂_congr_mem (fun l hl r hr =>
    sameItem_congr (fun x y hx hy => h x y ⟨l, hl, hx⟩ ⟨r, hr, hy⟩))

omit [LinearOrder N] in
theorem sameNode_congr {l r : N}
    (h : ∀ x y, IsElement (t.itemise l) x → IsElement (t.itemise r) y → (E x y ↔ F x y)) :
    SameNode t E l r ↔ SameNode t F l r := by
  constructor
  · intro hsame
    exact ⟨hsame.type, hsame.value, (sameItems_congr h).mp hsame.items⟩
  · intro hsame
    exact ⟨hsame.type, hsame.value, (sameItems_congr h).mpr hsame.items⟩

omit [LinearOrder N] in
/-- Items that match by `E` have elements that `E` relates, so a wider relation matches
them too. -/
theorem SameItem.mono (h : ∀ x y, E x y → F x y) {l r : Item (Option N)}
    (hsame : SameItem E l r) : SameItem F l r := by
  have hopt : ∀ p q, Option.Rel E p q → Option.Rel F p q := by
    intro p q hpq
    cases hpq with
    | some hxy => exact Option.Rel.some (h _ _ hxy)
    | none => exact Option.Rel.none
  cases l with
  | singular p =>
      cases r with
      | singular q => exact hopt p q hsame
      | sequence rs => exact hsame.elim
      | collection rs => exact hsame.elim
  | sequence ls =>
      cases r with
      | singular q => exact hsame.elim
      | sequence rs => exact List.Forall₂.imp hopt hsame
      | collection rs => exact hsame.elim
  | collection ls =>
      cases r with
      | singular q => exact hsame.elim
      | sequence rs => exact hsame.elim
      | collection rs => exact Multiset.Rel.mono hsame (fun p _ q _ => hopt p q)

variable {t}

omit [LinearOrder N] in
/-- **Structural equality is by type, value and children.** -/
theorem same_iff {l r : N} : Same t l r ↔ SameNode t (Same t) l r := by
  have hunfold : ∀ x y, Same t x y → SameNode t (Same t) x y := by
    intro x y hsame
    obtain ⟨E, hE, hxy⟩ := hsame
    have hnode := hE x y hxy
    refine ⟨hnode.type, hnode.value, ?_⟩
    exact hnode.items.imp (fun i j hij => hij.mono (fun a b hab => ⟨E, hE, hab⟩))
  constructor
  · exact hunfold l r
  · intro hnode
    refine ⟨SameNode t (Same t), fun x y hxy => ?_, hnode⟩
    exact ⟨hxy.type, hxy.value, hxy.items.imp (fun i j hij => hij.mono hunfold)⟩

end

/-! ## §2. The local order. -/

section

variable {t}

omit [LinearOrder N] in
/-- A value read off the nodes of one kind orders them. -/
theorem orders_of_key {X : Type*} {T : Set N} {cmp : N → N → Int} {keys : Set X}
    {cmp' : X → X → Int} (h : Orders keys cmp') (key : N → X) (hkey : ∀ x ∈ T, key x ∈ keys)
    (heq : ∀ x ∈ T, ∀ y ∈ T, cmp x y = cmp' (key x) (key y)) : Orders T cmp :=
  ((h.comap key).mono hkey).congr heq

/-- The name and the role of an identifier. -/
def identifierKey : LocalValue → String × Int
  | .identifier name role => (name, role.toInt)
  | _ => ("", 0)

theorem covariant_identifier {x y : N} {name name' : String} {role role' : BoundingRole}
    (hx : t.value x = .identifier name role) (hy : t.value y = .identifier name' role') :
    t.orderCompare3WayCovariant .TOTAL x y = thenBy (linearCompare name name')
      (thenBy (role.toInt - role'.toInt) (if role ≠ .NONE then 0 else linearCompare x y)) := by
  unfold TreeNodes.orderCompare3WayCovariant
  rw [hx, hy]
  dsimp only
  by_cases hxy : x = y
  · rw [hxy, hy] at hx
    obtain ⟨rfl, rfl⟩ := LocalValue.identifier.inj hx
    rw [if_pos hxy, hxy, linearCompare_eq_zero.mpr rfl, linearCompare_eq_zero.mpr rfl,
      Int.sub_self, ite_self]
    rfl
  · rw [if_neg hxy]
    congr 1
    cases role <;> cases role' <;> simp [BoundingRole.toInt, thenBy]

theorem orders_identifiers {T : Set N}
    (hT : ∀ x ∈ T, ∃ name role, t.value x = .identifier name role) :
    Orders T (t.orderCompare3WayCovariant .TOTAL) := by
  have hname : Orders T (fun x y => linearCompare (identifierKey (t.value x)).1
      (identifierKey (t.value y)).1) :=
    orders_of_key orders_linearCompare (fun x => (identifierKey (t.value x)).1)
      (fun _ _ => Set.mem_univ _) (fun _ _ _ _ => rfl)
  have hrole : Orders T (fun x y => (identifierKey (t.value x)).2
      - (identifierKey (t.value y)).2) :=
    orders_of_key orders_sub (fun x => (identifierKey (t.value x)).2)
      (fun _ _ => Set.mem_univ _) (fun _ _ _ _ => rfl)
  have hid : Orders T (fun x y => thenBy ((identifierKey (t.value x)).2
      - (identifierKey (t.value y)).2)
      (if (identifierKey (t.value x)).2 ≠ 0 then 0 else linearCompare x y)) := by
    apply hrole.lex
    intro x _
    by_cases hzero : (identifierKey (t.value x)).2 = 0
    · -- identifiers proper, by identity
      refine (orders_linearCompare.mono (Set.subset_univ _)).congr ?_
      intro y hy z _
      have hy := hy.2
      rw [if_neg (by omega)]
    · refine ⟨fun y hy z hz => ?_, fun y hy z hz w hw _ _ => ?_⟩
      · have hy := hy.2
        have hz := hz.2
        rw [if_pos (by omega), if_pos (by omega)]
      · have hy := hy.2
        rw [if_pos (by omega)]
  have hlex : Orders T (fun x y => thenBy (linearCompare (identifierKey (t.value x)).1
      (identifierKey (t.value y)).1) (thenBy ((identifierKey (t.value x)).2
      - (identifierKey (t.value y)).2)
      (if (identifierKey (t.value x)).2 ≠ 0 then 0 else linearCompare x y))) :=
    hname.lex (fun x _ => hid.mono (fun y hy => hy.1))
  apply hlex.congr
  intro x hx y hy
  obtain ⟨name, role, hvx⟩ := hT x hx
  obtain ⟨name', role', hvy⟩ := hT y hy
  rw [covariant_identifier hvx hvy, hvx, hvy]
  congr 2
  show (if role ≠ .NONE then 0 else _) = if role.toInt ≠ 0 then 0 else _
  congr 1
  cases role <;> simp [BoundingRole.toInt]

/-- The fields of an integer literal. -/
def integerKey : LocalValue → Int × Int × Int
  | .integer isUnsigned bitWidth value => (isUnsigned.toInt, bitWidth, value)
  | _ => (0, 0, 0)

theorem orders_integers {T : Set N}
    (hT : ∀ x ∈ T, ∃ isUnsigned bitWidth value, t.value x = .integer isUnsigned bitWidth value) :
    Orders T (t.orderCompare3WayCovariant .TOTAL) := by
  have hfield (field : Int × Int × Int → Int) :
      Orders T (fun x y => field (integerKey (t.value x)) - field (integerKey (t.value y))) :=
    orders_of_key orders_sub (fun x => field (integerKey (t.value x)))
      (fun _ _ => Set.mem_univ _) (fun _ _ _ _ => rfl)
  have hvalue : Orders T (fun x y => linearCompare (integerKey (t.value x)).2.2
      (integerKey (t.value y)).2.2) :=
    orders_of_key orders_linearCompare (fun x => (integerKey (t.value x)).2.2)
      (fun _ _ => Set.mem_univ _) (fun _ _ _ _ => rfl)
  have hwidth := (hfield (fun k => k.2.1)).lex (fun x _ => hvalue.mono (fun y hy => hy.1))
  have hlex := (hfield (fun k => k.1)).lex (fun x _ => hwidth.mono (fun y hy => hy.1))
  apply hlex.congr
  intro x hx y hy
  obtain ⟨isUnsigned, bitWidth, value, hvx⟩ := hT x hx
  obtain ⟨isUnsigned', bitWidth', value', hvy⟩ := hT y hy
  unfold TreeNodes.orderCompare3WayCovariant
  rw [hvx, hvy]
  rfl

/-- The text, the float or the address of a value of the other kinds. -/
def stringKey : LocalValue → String
  | .string value => value
  | _ => ""

def floatKey : LocalValue → APFloat
  | .float value => value
  | _ => ⟨.IEEEdouble, false, .fcZero⟩

def addressKey : LocalValue → Nat
  | .floatSemantics address => address
  | _ => 0

/-- **The nodes of one kind** are ordered by their values. -/
theorem orders_covariant {S : Set N} (hfloats : Orders (literals t S) APFloat.orderCompare)
    (x : N) : Orders {y | y ∈ S ∧ (t.value x).kind = (t.value y).kind}
      (t.orderCompare3WayCovariant .TOTAL) := by
  -- by the kind of the value: each has a key of its own
  cases t.value x with
  | nothing =>
      have hzero : ∀ y ∈ {y | y ∈ S ∧ LocalValue.nothing.kind = (t.value y).kind}, ∀ z : N,
          t.orderCompare3WayCovariant .TOTAL y z = 0 := by
        intro y hy z
        unfold TreeNodes.orderCompare3WayCovariant
        rw [kind_nothing hy.2]
      refine ⟨fun y hy z hz => ?_, fun y hy z _ w _ _ _ => ?_⟩
      · rw [hzero y hy, hzero z hz]
      · rw [hzero y hy]
  | identifier name role => exact orders_identifiers (fun y hy => kind_identifier hy.2)
  | string value =>
      apply orders_of_key orders_linearCompare (fun y => stringKey (t.value y))
        (fun _ _ => Set.mem_univ _)
      intro y hy z hz
      obtain ⟨value, hvy⟩ := kind_string hy.2
      obtain ⟨value', hvz⟩ := kind_string hz.2
      unfold TreeNodes.orderCompare3WayCovariant
      rw [hvy, hvz]
      rfl
  | integer isUnsigned bitWidth value => exact orders_integers (fun y hy => kind_integer hy.2)
  | float value =>
      apply orders_of_key hfloats (fun y => floatKey (t.value y))
      · intro y hy
        obtain ⟨value, hvy⟩ := kind_float hy.2
        rw [hvy]
        exact ⟨y, hy.1, hvy⟩
      · intro y hy z hz
        obtain ⟨value, hvy⟩ := kind_float hy.2
        obtain ⟨value', hvz⟩ := kind_float hz.2
        unfold TreeNodes.orderCompare3WayCovariant
        rw [hvy, hvz]
        rfl
  | floatSemantics address =>
      apply orders_of_key orders_linearCompare (fun y => addressKey (t.value y))
        (fun _ _ => Set.mem_univ _)
      intro y hy z hz
      obtain ⟨address, hvy⟩ := kind_floatSemantics hy.2
      obtain ⟨address', hvz⟩ := kind_floatSemantics hz.2
      unfold TreeNodes.orderCompare3WayCovariant
      rw [hvy, hvz]
      rfl

/-- Nodes of one kind are equivalent when their values are the same. -/
theorem covariant_eq_zero {x y : N} (hkind : (t.value x).kind = (t.value y).kind)
    (hfloats : ∀ a b, t.value x = .float a → t.value y = .float b → a.orderCompare b = 0 → a = b) :
    t.orderCompare3WayCovariant .TOTAL x y = 0 ↔ SameValue t x y := by
  unfold SameValue
  -- `y` has data of the same kind; then field by field
  cases hvx : t.value x with
  | nothing =>
      rw [hvx] at hkind
      have hvy := kind_nothing hkind
      unfold TreeNodes.orderCompare3WayCovariant
      rw [hvx, hvy]
      simp
  | identifier name role =>
      rw [hvx] at hkind
      obtain ⟨name', role', hvy⟩ := kind_identifier hkind
      rw [covariant_identifier hvx hvy, hvy, thenBy_eq_zero, thenBy_eq_zero, linearCompare_eq_zero,
        Int.sub_eq_zero, BoundingRole.toInt_inj]
      -- only where neither is a bound do the addresses count
      by_cases hrole : role = .NONE
      · simp [hrole, and_assoc]
      · simp [hrole]
  | string value =>
      rw [hvx] at hkind
      obtain ⟨value', hvy⟩ := kind_string hkind
      unfold TreeNodes.orderCompare3WayCovariant
      rw [hvx, hvy]
      simp
  | integer isUnsigned bitWidth value =>
      rw [hvx] at hkind
      obtain ⟨isUnsigned', bitWidth', value', hvy⟩ := kind_integer hkind
      unfold TreeNodes.orderCompare3WayCovariant
      rw [hvx, hvy]
      dsimp only
      rw [thenBy_eq_zero, thenBy_eq_zero, linearCompare_eq_zero, Int.sub_eq_zero, Int.sub_eq_zero,
        Int.natCast_inj]
      cases isUnsigned <;> cases isUnsigned' <;> simp
  | float value =>
      rw [hvx] at hkind
      obtain ⟨value', hvy⟩ := kind_float hkind
      unfold TreeNodes.orderCompare3WayCovariant
      rw [hvx, hvy]
      constructor
      · intro hzero
        rw [hfloats value value' hvx hvy hzero]
        simp
      · intro hsame
        rw [LocalValue.float.inj hsame.1]
        exact APFloat.orderCompare_self value'
  | floatSemantics address =>
      rw [hvx] at hkind
      obtain ⟨address', hvy⟩ := kind_floatSemantics hkind
      unfold TreeNodes.orderCompare3WayCovariant
      rw [hvx, hvy]
      simp

end

/-! ## §3. Without the early return. -/

section

variable {t} {cmp : N → N → Int} {S : Set N}

/-- Pointers to nodes of a set, and NULL. -/
def pointers (S : Set N) : Set (Option N) := {p | ∀ x, p = some x → x ∈ S}

/-- Items whose elements are in a set. -/
def itemsOver (S : Set N) : Set (Item (Option N)) := {item | ∀ p ∈ item.links, p ∈ pointers S}

/-- The comparison of two items, NULLs included. -/
def itemCompare (cmp : N → N → Int) (l r : Item (Option N)) : Int :=
  thenBy ((itemKind l : Int) - itemKind r)
    (match l, r with
    | .singular p, .singular q => compareTreePtr cmp p q
    | .sequence ls, .sequence rs => listCompare (compareTreePtr cmp) ls rs
    | .collection ls, .collection rs => multisetCompare (compareTreePtr cmp) ls rs
    | _, _ => 0)

omit [LinearOrder N] in
theorem orders_compareTreePtr (h : Orders S cmp) : Orders (pointers S) (compareTreePtr cmp) where
  swap p hp q hq := by
    cases p with
    | none => cases q <;> simp [compareTreePtr]
    | some x =>
        cases q with
        | none => simp [compareTreePtr]
        | some y => exact h.swap x (hp x rfl) y (hq y rfl)
  trans p hp q hq r hr hpq hqr := by
    cases p with
    | none => cases r <;> simp [compareTreePtr]
    | some x =>
        cases q with
        | none => simp [compareTreePtr] at hpq
        | some y =>
            cases r with
            | none => simp [compareTreePtr] at hqr
            | some z => exact h.trans x (hp x rfl) y (hq y rfl) z (hr z rfl) hpq hqr

omit [LinearOrder N] in
theorem compareTreePtr_eq_zero {p q : Option N} :
    compareTreePtr cmp p q = 0 ↔ Option.Rel (fun x y => cmp x y = 0) p q := by
  cases p with
  | none =>
      cases q with
      | none => exact iff_of_true rfl Option.Rel.none
      | some y => exact iff_of_false (by simp [compareTreePtr]) (by rintro ⟨⟩)
  | some x =>
      cases q with
      | none => exact iff_of_false (by simp [compareTreePtr]) (by rintro ⟨⟩)
      | some y =>
          rw [Option.rel_some_some]
          exact Iff.rfl

omit [LinearOrder N] in
theorem itemKind_eq {l r : Item (Option N)} (h : (itemKind l : Int) - itemKind r = 0) :
    (∃ p q, l = .singular p ∧ r = .singular q) ∨ (∃ ls rs, l = .sequence ls ∧ r = .sequence rs)
      ∨ ∃ ls rs, l = .collection ls ∧ r = .collection rs := by
  cases l with
  | singular p =>
      cases r with
      | singular q => exact Or.inl ⟨p, q, rfl, rfl⟩
      | _ => simp [itemKind] at h
  | sequence ls =>
      cases r with
      | sequence rs => exact Or.inr (Or.inl ⟨ls, rs, rfl, rfl⟩)
      | _ => simp [itemKind] at h
  | collection ls =>
      cases r with
      | collection rs => exact Or.inr (Or.inr ⟨ls, rs, rfl, rfl⟩)
      | _ => simp [itemKind] at h

omit [LinearOrder N] in
theorem orders_itemCompare (h : Orders S cmp) : Orders (itemsOver S) (itemCompare cmp) := by
  have hptr := orders_compareTreePtr h
  have hkind : Orders (itemsOver S)
      (fun l r : Item (Option N) => (itemKind l : Int) - itemKind r) :=
    (orders_sub.comap (fun l : Item (Option N) => (itemKind l : Int))).mono
      (fun _ _ => Set.mem_univ _)
  -- items of two kinds are ordered by the kind, items of one kind by what they hold
  apply hkind.lex
  intro item _
  cases item with
  | singular p =>
      refine ⟨fun l hl r hr => ?_, fun l hl m hm r hr => ?_⟩
      · obtain ⟨l, rfl⟩ : ∃ l', l = .singular l' := by cases l <;> simp [itemKind] at hl ⊢
        obtain ⟨r, rfl⟩ : ∃ r', r = .singular r' := by cases r <;> simp [itemKind] at hr ⊢
        exact hptr.swap l (hl.1 l List.mem_cons_self) r (hr.1 r List.mem_cons_self)
      · obtain ⟨l, rfl⟩ : ∃ l', l = .singular l' := by cases l <;> simp [itemKind] at hl ⊢
        obtain ⟨m, rfl⟩ : ∃ m', m = .singular m' := by cases m <;> simp [itemKind] at hm ⊢
        obtain ⟨r, rfl⟩ : ∃ r', r = .singular r' := by cases r <;> simp [itemKind] at hr ⊢
        exact hptr.trans l (hl.1 l List.mem_cons_self) m (hm.1 m List.mem_cons_self) r
          (hr.1 r List.mem_cons_self)
  | sequence ls =>
      refine ⟨fun l hl r hr => ?_, fun l hl m hm r hr => ?_⟩
      · obtain ⟨l, rfl⟩ : ∃ l', l = .sequence l' := by cases l <;> simp [itemKind] at hl ⊢
        obtain ⟨r, rfl⟩ : ∃ r', r = .sequence r' := by cases r <;> simp [itemKind] at hr ⊢
        exact (orders_listCompare hptr).swap l hl.1 r hr.1
      · obtain ⟨l, rfl⟩ : ∃ l', l = .sequence l' := by cases l <;> simp [itemKind] at hl ⊢
        obtain ⟨m, rfl⟩ : ∃ m', m = .sequence m' := by cases m <;> simp [itemKind] at hm ⊢
        obtain ⟨r, rfl⟩ : ∃ r', r = .sequence r' := by cases r <;> simp [itemKind] at hr ⊢
        exact (orders_listCompare hptr).trans l hl.1 m hm.1 r hr.1
  | collection ls =>
      refine ⟨fun l hl r hr => ?_, fun l hl m hm r hr => ?_⟩
      · obtain ⟨l, rfl⟩ : ∃ l', l = .collection l' := by cases l <;> simp [itemKind] at hl ⊢
        obtain ⟨r, rfl⟩ : ∃ r', r = .collection r' := by cases r <;> simp [itemKind] at hr ⊢
        exact (orders_multisetCompare hptr).swap l hl.1 r hr.1
      · obtain ⟨l, rfl⟩ : ∃ l', l = .collection l' := by cases l <;> simp [itemKind] at hl ⊢
        obtain ⟨m, rfl⟩ : ∃ m', m = .collection m' := by cases m <;> simp [itemKind] at hm ⊢
        obtain ⟨r, rfl⟩ : ∃ r', r = .collection r' := by cases r <;> simp [itemKind] at hr ⊢
        exact (orders_multisetCompare hptr).trans l hl.1 m hm.1 r hr.1

omit [LinearOrder N] in
/-- Relations agree on the elements of two multisets. -/
theorem rel_congr {E F : Option N → Option N → Prop} {p q : Multiset (Option N)}
    (h : ∀ a b, E a b ↔ F a b) : Multiset.Rel E p q ↔ Multiset.Rel F p q := by
  constructor
  · intro hrel
    exact hrel.mono (fun a _ b _ => (h a b).mp)
  · intro hrel
    exact hrel.mono (fun a _ b _ => (h a b).mpr)

theorem forall₂_congr_all {α β : Type} {R R' : α → β → Prop} {l : List α} {r : List β}
    (h : ∀ a b, R a b ↔ R' a b) : List.Forall₂ R l r ↔ List.Forall₂ R' l r :=
  forall₂_congr_mem (fun a _ b _ => h a b)

omit [LinearOrder N] in
/-- **Items are equivalent when they match.** -/
theorem itemCompare_eq_zero (h : Orders S cmp) {l r : Item (Option N)} (hl : l ∈ itemsOver S)
    (hr : r ∈ itemsOver S) :
    itemCompare cmp l r = 0 ↔ SameItem (fun x y => cmp x y = 0) l r := by
  unfold itemCompare
  rw [thenBy_eq_zero]
  constructor
  · intro hzero
    obtain ⟨hkind, hzero⟩ := hzero
    -- equal kinds: two items of one shape
    rcases itemKind_eq hkind with ⟨p, q, rfl, rfl⟩ | ⟨ls, rs, rfl, rfl⟩ | ⟨ls, rs, rfl, rfl⟩
    · exact compareTreePtr_eq_zero.mp hzero
    · exact (forall₂_congr_all (fun _ _ => compareTreePtr_eq_zero)).mp
        (listCompare_eq_zero.mp hzero)
    · exact (rel_congr (fun _ _ => compareTreePtr_eq_zero)).mp
        ((multisetCompare_eq_zero (orders_compareTreePtr h) hl hr).mp hzero)
  · intro hsame
    cases l with
    | singular p =>
        cases r with
        | singular q => exact ⟨Int.sub_self _, compareTreePtr_eq_zero.mpr hsame⟩
        | _ => exact hsame.elim
    | sequence ls =>
        cases r with
        | sequence rs =>
            exact ⟨Int.sub_self _, listCompare_eq_zero.mpr
              ((forall₂_congr_all (fun _ _ => compareTreePtr_eq_zero)).mpr hsame)⟩
        | _ => exact hsame.elim
    | collection ls =>
        cases r with
        | collection rs =>
            exact ⟨Int.sub_self _, (multisetCompare_eq_zero (orders_compareTreePtr h) hl hr).mpr
              ((rel_congr (fun _ _ => compareTreePtr_eq_zero)).mpr hsame)⟩
        | _ => exact hsame.elim

end

variable (cmp : N → N → Int)

/-- The comparison of two nodes, if the loop went on after two NULLs. -/
def fullCompare (l r : N) : Int :=
  thenBy (linearCompare (t.typeIndex l) (t.typeIndex r))
    (thenBy (t.orderCompare3WayCovariant .TOTAL l r)
      (listCompare (itemCompare cmp) (t.itemise l) (t.itemise r)))

variable {t} {cmp} {S T : Set N}

omit [LinearOrder N] in
/-- Nodes whose children are in a set. -/
theorem itemise_over (hT : ∀ x ∈ T, ∀ y, IsElement (t.itemise x) y → y ∈ S) {x : N} (hx : x ∈ T) :
    ∀ item ∈ t.itemise x, item ∈ itemsOver S := by
  intro item hitem p hp y hy
  exact hT x hx y ⟨item, hitem, hy ▸ hp⟩

/-- **The full comparison** orders the nodes whose children are ordered. -/
theorem orders_fullCompare (h : Orders S cmp)
    (hfloats : Orders (literals t T) APFloat.orderCompare)
    (hT : ∀ x ∈ T, ∀ y, IsElement (t.itemise x) y → y ∈ S) : Orders T (fullCompare t cmp) := by
  have htype : Orders T (fun x y => linearCompare (t.typeIndex x) (t.typeIndex y)) :=
    orders_of_key orders_linearCompare t.typeIndex (fun _ _ => Set.mem_univ _)
      (fun _ _ _ _ => rfl)
  have hitems : Orders T (fun x y => listCompare (itemCompare cmp) (t.itemise x) (t.itemise y)) :=
    orders_of_key (orders_listCompare (orders_itemCompare h)) t.itemise
      (fun x hx => itemise_over hT hx) (fun _ _ _ _ => rfl)
  apply htype.lex
  intro x _
  have hlocal : Orders {y | y ∈ T ∧ linearCompare (t.typeIndex x) (t.typeIndex y) = 0}
      (t.orderCompare3WayCovariant .TOTAL) := by
    refine (orders_covariant hfloats x).mono (fun y hy => ⟨hy.1, ?_⟩)
    exact t.value_kind x y (linearCompare_eq_zero.mp hy.2)
  exact hlocal.lex (fun y _ => hitems.mono (fun z hz => hz.1.1))

theorem fullCompare_eq_zero (h : Orders S cmp)
    (hfloats : ∀ a ∈ literals t T, ∀ b ∈ literals t T, a.orderCompare b = 0 → a = b)
    (hT : ∀ x ∈ T, ∀ y, IsElement (t.itemise x) y → y ∈ S) {x y : N} (hx : x ∈ T) (hy : y ∈ T) :
    fullCompare t cmp x y = 0 ↔ SameNode t (fun l r => cmp l r = 0) x y := by
  have hitems : listCompare (itemCompare cmp) (t.itemise x) (t.itemise y) = 0
      ↔ List.Forall₂ (SameItem (fun l r => cmp l r = 0)) (t.itemise x) (t.itemise y) := by
    rw [listCompare_eq_zero]
    exact forall₂_congr_mem (fun l hl r hr =>
      itemCompare_eq_zero h (itemise_over hT hx l hl) (itemise_over hT hy r hr))
  unfold fullCompare
  rw [thenBy_eq_zero, thenBy_eq_zero, linearCompare_eq_zero, hitems]
  constructor
  · intro hzero
    obtain ⟨htype, hvalue, hsame⟩ := hzero
    refine ⟨htype, (covariant_eq_zero (t.value_kind x y htype) ?_).mp hvalue, hsame⟩
    intro a b ha hb
    exact hfloats a ⟨x, hx, ha⟩ b ⟨y, hy, hb⟩
  · intro hsame
    refine ⟨hsame.type, (covariant_eq_zero (t.value_kind x y hsame.type) ?_).mpr hsame.value,
      hsame.items⟩
    intro a b ha hb
    exact hfloats a ⟨x, hx, ha⟩ b ⟨y, hy, hb⟩

/-! ## §4. With it. -/

omit [LinearOrder N] in
/-- One turn of the loop, unless both sides have a NULL. -/
theorem compareItems_cons {l r : Item (Option N)} (hkind : itemKind l = itemKind r)
    (hnull : ¬ (l = .singular none ∧ r = .singular none)) (ls rs : List (Item (Option N))) :
    compareItems cmp (l :: ls) (r :: rs)
      = thenBy (itemCompare cmp l r) (compareItems cmp ls rs) := by
  have hzero : (itemKind l : Int) - itemKind r = 0 := by omega
  unfold itemCompare
  rw [hzero, thenBy_zero]
  rcases itemKind_eq hzero with ⟨p, q, rfl, rfl⟩ | ⟨ls, rs, rfl, rfl⟩ | ⟨ls, rs, rfl, rfl⟩
  · cases p with
    | none =>
        cases q with
        | none => exact absurd ⟨rfl, rfl⟩ hnull
        | some y => rfl
    | some x =>
        cases q with
        | none => rfl
        | some y => rfl
  · rfl
  · rfl

/-- The loop is the first difference, if what it skips does not differ. -/
theorem compareItems_eq {ls : List (Item (Option N))} : ∀ {rs : List (Item (Option N))},
    ls.map itemKind = rs.map itemKind →
    (∀ p q s u, ls = p ++ .singular none :: s → rs = q ++ .singular none :: u →
      List.Forall₂ (fun l r => itemCompare cmp l r = 0) p q →
      firstDifference (itemCompare cmp) s u = 0) →
    compareItems cmp ls rs = firstDifference (itemCompare cmp) ls rs := by
  induction ls with
  | nil =>
      intro rs hkinds _
      have hnil : rs = [] := by simpa using hkinds.symm
      rw [hnil]
      rfl
  | cons l ls ih =>
      intro rs hkinds hsettled
      cases rs with
      | nil => simp at hkinds
      | cons r rs =>
          rw [List.map_cons, List.map_cons, List.cons.injEq] at hkinds
          -- the source ends at a pair of NULLs, whatever follows
          by_cases hnull : l = .singular none ∧ r = .singular none
          · obtain ⟨rfl, rfl⟩ := hnull
            have hrest := hsettled [] [] ls rs rfl rfl List.Forall₂.nil
            rw [firstDifference, hrest]
            rfl
          · rw [compareItems_cons hkinds.1 hnull, firstDifference]
            by_cases hzero : itemCompare cmp l r = 0
            · rw [hzero, thenBy_zero, thenBy_zero]
              apply ih hkinds.2
              intro p q s u hls hrs hpq
              exact hsettled (l :: p) (r :: q) s u (by rw [hls]; rfl) (by rw [hrs]; rfl)
                (List.Forall₂.cons hzero hpq)
            · rw [thenBy_of_ne hzero, thenBy_of_ne hzero]

/-- The loop returns zero at two NULLs after items that are equivalent. -/
theorem compareItems_null {p : List (Item (Option N))} (s u : List (Item (Option N))) :
    ∀ {q : List (Item (Option N))}, p.map itemKind = q.map itemKind →
    List.Forall₂ (fun l r => itemCompare cmp l r = 0) p q →
    compareItems cmp (p ++ .singular none :: s) (q ++ .singular none :: u) = 0 := by
  induction p with
  | nil =>
      intro q hkinds _
      have hnil : q = [] := by simpa using hkinds.symm
      rw [hnil]
      rfl
  | cons l p ih =>
      intro q hkinds hzero
      cases q with
      | nil => simp at hkinds
      | cons r q =>
          rw [List.map_cons, List.map_cons, List.cons.injEq] at hkinds
          rw [List.forall₂_cons] at hzero
          by_cases hnull : l = .singular none ∧ r = .singular none
          · obtain ⟨rfl, rfl⟩ := hnull
            rfl
          · rw [List.cons_append, List.cons_append, compareItems_cons hkinds.1 hnull, hzero.1,
              thenBy_zero]
            exact ih hkinds.2 hzero.2

/-- **The early return changes nothing**, where the NULLs are settled. -/
theorem compareWith_eq_fullCompare (h : Orders S cmp) (hfull : Orders T (fullCompare t cmp))
    (hfloats : ∀ a ∈ literals t T, ∀ b ∈ literals t T, a.orderCompare b = 0 → a = b)
    (hT : ∀ x ∈ T, ∀ y, IsElement (t.itemise x) y → y ∈ S)
    (hsame : ∀ x ∈ S, ∀ y ∈ S, (cmp x y = 0 ↔ Same t x y)) (hnulls : NullsSettled t T) {x y : N}
    (hx : x ∈ T) (hy : y ∈ T) : compareWith t .TOTAL cmp x y = fullCompare t cmp x y := by
  unfold compareWith
  by_cases hxy : x = y
  · rw [if_pos hxy, hxy, hfull.refl hy]
  · rw [if_neg hxy]
    unfold fullCompare TreeNodes.orderCompare3Way
    by_cases htype : linearCompare (t.typeIndex x) (t.typeIndex y) = 0
    · rw [htype, thenBy_zero, thenBy_zero]
      by_cases hvalue : t.orderCompare3WayCovariant .TOTAL x y = 0
      · rw [hvalue, thenBy_zero, thenBy_zero, listCompare]
        rw [linearCompare_eq_zero] at htype
        congr 1
        apply compareItems_eq (t.layout x y htype)
        intro p q s u hxs hys hpq
        have hmem {item : Item (Option N)} {z : N} (hz : z ∈ T) (hitem : item ∈ t.itemise z) :=
          itemise_over hT hz item hitem
        -- equivalent items are the same, so what follows the NULLs is the same too
        have hiff {l r : Item (Option N)} (hl : l ∈ t.itemise x) (hr : r ∈ t.itemise y) :
            itemCompare cmp l r = 0 ↔ SameItem (Same t) l r := by
          rw [itemCompare_eq_zero h (hmem hx hl) (hmem hy hr)]
          exact sameItem_congr (fun a b ha hb =>
            hsame a (hT x hx a ⟨l, hl, ha⟩) b (hT y hy b ⟨r, hr, hb⟩))
        have hprefix : List.Forall₂ (SameItem (Same t)) p q := by
          refine (forall₂_congr_mem (fun l hl r hr => ?_)).mp hpq
          exact hiff (by rw [hxs]; exact List.mem_append_left _ hl)
            (by rw [hys]; exact List.mem_append_left _ hr)
        have hsv : SameValue t x y := by
          refine (covariant_eq_zero (t.value_kind x y htype) ?_).mp hvalue
          intro a b ha hb
          exact hfloats a ⟨x, hx, ha⟩ b ⟨y, hy, hb⟩
        have hrest := hnulls x hx y hy htype hsv p q s u hxs hys hprefix
        rw [firstDifference_eq_zero hrest.length_eq]
        refine (forall₂_congr_mem (fun l hl r hr => ?_)).mpr hrest
        exact hiff (by rw [hxs]; exact List.mem_append_right _ (List.mem_cons_of_mem _ hl))
          (by rw [hys]; exact List.mem_append_right _ (List.mem_cons_of_mem _ hr))
      · rw [thenBy_of_ne hvalue, thenBy_of_ne hvalue]
    · rw [thenBy_of_ne htype, thenBy_of_ne htype, thenBy_of_ne htype]

/-! ## §5. When the laws hold. -/

/-- The nodes of a set that are not high. -/
def below (t : TreeNodes N) (S : Set N) (n : Nat) : Set N := {x | x ∈ S ∧ t.height x < n}

/-- **The laws, up to a height**: the comparison orders the nodes, and its equivalence is
structural equality. -/
theorem lawful_below (hclosed : Closed t S) (hfloats : APFloat.FloatsSeparated (literals t S))
    (hnulls : NullsSettled t S) (n : Nat) :
    Orders (below t S n) (compare3Way t .TOTAL)
      ∧ ∀ x ∈ below t S n, ∀ y ∈ below t S n, (compare3Way t .TOTAL x y = 0 ↔ Same t x y) := by
  induction n with
  | zero =>
      have hnone : ∀ x, x ∉ below t S 0 := fun x hx => absurd hx.2 (Nat.not_lt_zero _)
      exact ⟨⟨fun x hx => absurd hx (hnone x), fun x hx => absurd hx (hnone x)⟩,
        fun x hx => absurd hx (hnone x)⟩
  | succ n ih =>
      obtain ⟨hord, hsame⟩ := ih
      -- what a node has below it is lower
      have hT : ∀ x ∈ below t S (n + 1), ∀ y, IsElement (t.itemise x) y → y ∈ below t S n := by
        intro x hx y hy
        have hlow := height_of_isElement t hy
        have hbound := hx.2
        exact ⟨hclosed x hx.1 y hy, by omega⟩
      have hlits : literals t (below t S (n + 1)) ⊆ literals t S :=
        fun f ⟨x, hx, hf⟩ => ⟨x, hx.1, hf⟩
      have hzero : ∀ a ∈ literals t (below t S (n + 1)), ∀ b ∈ literals t (below t S (n + 1)),
          a.orderCompare b = 0 → a = b :=
        fun a ha b hb => hfloats.eq_of_zero (hlits ha) (hlits hb)
      have hfull := orders_fullCompare hord (hfloats.orders.mono hlits) hT
      -- there the comparison is the lexicographical one
      have heq : ∀ x ∈ below t S (n + 1), ∀ y ∈ below t S (n + 1),
          compare3Way t .TOTAL x y = fullCompare t (compare3Way t .TOTAL) x y := by
        intro x hx y hy
        rw [compare3Way_eq]
        exact compareWith_eq_fullCompare hord hfull hzero hT hsame
          (fun x hx y hy => hnulls x hx.1 y hy.1) hx hy
      refine ⟨hfull.congr heq, ?_⟩
      intro x hx y hy
      rw [heq x hx y hy, fullCompare_eq_zero hord hzero hT hx hy, same_iff]
      exact sameNode_congr t (fun a b ha hb => hsame a (hT x hx a ha) b (hT y hy b hb))

theorem lawful_of_settled (hclosed : Closed t S)
    (hfloats : APFloat.FloatsSeparated (literals t S)) (hnulls : NullsSettled t S) :
    Lawful t S := by
  have hlaws := lawful_below hclosed hfloats hnulls
  have hlow {x : N} (hx : x ∈ S) {n : Nat} (hn : t.height x < n) : x ∈ below t S n := ⟨hx, hn⟩
  constructor
  · intro x hx y hy
    have h := (hlaws (max (t.height x) (t.height y) + 1)).1
    exact h.swap x (hlow hx (by omega)) y (hlow hy (by omega))
  · intro x hx y hy z hz
    have h := (hlaws (max (t.height x) (max (t.height y) (t.height z)) + 1)).1
    exact h.trans x (hlow hx (by omega)) y (hlow hy (by omega)) z (hlow hz (by omega))
  · intro x hx y hy
    have h := (hlaws (max (t.height x) (t.height y) + 1)).2
    rw [h x (hlow hx (by omega)) y (hlow hy (by omega)), same_iff]
    apply sameNode_congr
    intro a b ha hb
    have hla := height_of_isElement t ha
    have hlb := height_of_isElement t hb
    exact (h a (hlow (hclosed x hx a ha) (by omega)) b (hlow (hclosed y hy b hb) (by omega))).symm

theorem Lawful.orders (h : Lawful t S) : Orders S (compare3Way t .TOTAL) :=
  ⟨h.antisymmetric, h.transitive⟩

/-- **Under the laws the equivalence is structural equality**, all the way down. -/
theorem Lawful.zero_iff_same (h : Lawful t S) (hclosed : Closed t S) {x y : N} (hx : x ∈ S)
    (hy : y ∈ S) : compare3Way t .TOTAL x y = 0 ↔ Same t x y := by
  have hto : ∀ x ∈ S, ∀ y ∈ S, compare3Way t .TOTAL x y = 0 → Same t x y := by
    intro x hx y hy hxy
    refine ⟨fun a b => a ∈ S ∧ b ∈ S ∧ compare3Way t .TOTAL a b = 0, ?_, hx, hy, hxy⟩
    intro a b hab
    refine (sameNode_congr t (fun c d hc hd => ?_)).mp ((h.zero_iff a hab.1 b hab.2.1).mp hab.2.2)
    have hcS := hclosed a hab.1 c hc
    have hdS := hclosed b hab.2.1 d hd
    exact ⟨fun hcd => ⟨hcS, hdS, hcd⟩, fun hcd => hcd.2.2⟩
  have hfrom : ∀ n, ∀ x ∈ S, ∀ y ∈ S, t.height x < n → Same t x y →
      compare3Way t .TOTAL x y = 0 := by
    intro n
    induction n with
    | zero => exact fun _ _ _ _ hn _ => absurd hn (Nat.not_lt_zero _)
    | succ n ih =>
        intro x hx y hy hn hsame
        rw [h.zero_iff x hx y hy]
        refine (sameNode_congr t (fun a b ha hb => ?_)).mp (same_iff.mp hsame)
        have haS := hclosed x hx a ha
        have hbS := hclosed y hy b hb
        have hlow := height_of_isElement t ha
        exact ⟨ih a haS b hbS (by omega), hto a haS b hbS⟩
  exact ⟨hto x hx y hy, hfrom _ x hx y hy (Nat.lt_succ_self _)⟩

/-- Float literals compare as the nodes that hold them. -/
theorem compare3Way_float {x y : N} {a b : APFloat} (ha : t.value x = .float a)
    (hb : t.value y = .float b) : compare3Way t .TOTAL x y = a.orderCompare b := by
  rw [compare3Way_eq]
  unfold compareWith
  by_cases hxy : x = y
  · rw [hxy, hb] at ha
    rw [if_pos hxy, LocalValue.float.inj ha, APFloat.orderCompare_self]
  · rw [if_neg hxy, t.float_leaf x a ha, t.float_leaf y b hb]
    unfold TreeNodes.orderCompare3Way TreeNodes.orderCompare3WayCovariant
    rw [linearCompare_eq_zero.mpr (t.float_class x y a b ha hb), ha, hb, thenBy_zero]
    show thenBy (a.orderCompare b) 0 = a.orderCompare b
    unfold thenBy
    split <;> omega

theorem Lawful.floatsSeparated (h : Lawful t S) : APFloat.FloatsSeparated (literals t S) := by
  rw [APFloat.floatsSeparated_iff]
  refine ⟨⟨fun a _ b _ => APFloat.orderCompare_swap a b, ?_⟩, ?_⟩
  · intro a ha b hb c hc
    obtain ⟨x, hx, hxa⟩ := ha
    obtain ⟨y, hy, hyb⟩ := hb
    obtain ⟨z, hz, hzc⟩ := hc
    rw [← compare3Way_float hxa hyb, ← compare3Way_float hyb hzc, ← compare3Way_float hxa hzc]
    exact h.transitive x hx y hy z hz
  · intro a ha b hb hzero
    obtain ⟨x, hx, hxa⟩ := ha
    obtain ⟨y, hy, hyb⟩ := hb
    rw [← compare3Way_float hxa hyb, h.zero_iff x hx y hy] at hzero
    have hvalue := hzero.value.1
    rw [hxa, hyb] at hvalue
    exact LocalValue.float.inj hvalue

theorem Lawful.nullsSettled (h : Lawful t S) (hclosed : Closed t S) : NullsSettled t S := by
  intro x hx y hy htype hvalue p q s u hxs hys hpq
  have hover {z : N} (hz : z ∈ S) {item : Item (Option N)} (hitem : item ∈ t.itemise z) :
      item ∈ itemsOver S := itemise_over hclosed hz item hitem
  have hsame : ∀ a b, IsElement (t.itemise x) a → IsElement (t.itemise y) b →
      (compare3Way t .TOTAL a b = 0 ↔ Same t a b) := fun a b ha hb =>
    h.zero_iff_same hclosed (hclosed x hx a ha) (hclosed y hy b hb)
  -- the loop returns at the NULLs
  have hzero : compare3Way t .TOTAL x y = 0 := by
    have hprefix : List.Forall₂ (fun l r => itemCompare (compare3Way t .TOTAL) l r = 0) p q := by
      refine (forall₂_congr_mem (fun l hl r hr => ?_)).mpr hpq
      have hlx : l ∈ t.itemise x := by
        rw [hxs]
        exact List.mem_append_left _ hl
      have hry : r ∈ t.itemise y := by
        rw [hys]
        exact List.mem_append_left _ hr
      rw [itemCompare_eq_zero h.orders (hover hx hlx) (hover hy hry)]
      exact sameItem_congr (fun a b ha hb => hsame a b ⟨l, hlx, ha⟩ ⟨r, hry, hb⟩)
    have hlayout := t.layout x y htype
    rw [hxs, hys, List.map_append, List.map_append] at hlayout
    have hkinds := List.append_inj_left hlayout (by simpa using hpq.length_eq)
    rw [compare3Way_eq]
    unfold compareWith
    split
    · rfl
    · have hcov : t.orderCompare3WayCovariant .TOTAL x y = 0 := by
        refine (covariant_eq_zero (t.value_kind x y htype) ?_).mpr hvalue
        intro a b ha hb
        exact h.floatsSeparated.eq_of_zero ⟨x, hx, ha⟩ ⟨y, hy, hb⟩
      have hlen := congrArg List.length (t.layout x y htype)
      rw [List.length_map, List.length_map] at hlen
      unfold TreeNodes.orderCompare3Way
      rw [linearCompare_eq_zero.mpr htype, hcov, hlen, Int.sub_self, thenBy_zero, thenBy_zero,
        thenBy_zero, hxs, hys]
      exact compareItems_null s u hkinds hprefix
  -- so the laws make the rest the same
  have hitems := ((h.zero_iff x hx y hy).mp hzero).items
  have hitems' := (sameItems_congr hsame).mp hitems
  rw [hxs, hys] at hitems'
  have hdrop := List.forall₂_drop (p.length + 1) hitems'
  rw [List.drop_length_add_append, hpq.length_eq, List.drop_length_add_append] at hdrop
  exact hdrop

/-- **When `SimpleCompare` is lawful**: on a set of nodes with their children, it is a total
preorder whose equivalence is structural equality exactly if the early return at two NULLs
skips nothing that differs, and the float literals are kept apart. -/
theorem simpleCompare_exact (hclosed : Closed t S) :
    Lawful t S ↔ NullsSettled t S ∧ APFloat.FloatsSeparated (literals t S) := by
  constructor
  · intro h
    exact ⟨h.nullsSettled hclosed, h.floatsSeparated⟩
  · intro h
    exact lawful_of_settled hclosed h.2 h.1

/-! ## §6. A NULL first member, and a NaN. -/

/-- The data of nodes 4, 5 and 6: the floats 1, infinity and a NaN. -/
def nullFirstValue (x : Fin 7) : LocalValue :=
  [.nothing, .nothing, .nothing, .nothing,
    .float ⟨.IEEEdouble, false, .fcNormal 0 [0x10000000000000]⟩,
    .float ⟨.IEEEdouble, false, .fcInfinity⟩,
    .float ⟨.IEEEdouble, false, .fcNaN [1]⟩].getD x .nothing

/-- Their classes: nodes 0 and 1 are of one class, the leaves 2 and 3 of two. -/
def nullFirstType (x : Fin 7) : Nat := [10, 10, 1, 2, 3, 3, 3].getD x 0

/-- The class of nodes 0 and 1 has two members, of which the first is NULL. -/
def nullFirstItems (x : Fin 7) : List (Item (Option (Fin 7))) :=
  [[.singular none, .singular (some 2)], [.singular none, .singular (some 3)]].getD x []

theorem nullFirst_floats : ∀ x y, (nullFirstValue x).kind = 4 → (nullFirstValue y).kind = 4 →
    nullFirstType x = nullFirstType y ∧ nullFirstItems x = [] := by decide

/-- These nodes. -/
def nullFirst : TreeNodes (Fin 7) where
  typeIndex := nullFirstType
  value := nullFirstValue
  itemise := nullFirstItems
  height x := [1, 1].getD x 0
  value_kind := by decide
  layout := by decide
  float_class x y a b hx hy := (nullFirst_floats x y (by rw [hx]; rfl) (by rw [hy]; rfl)).1
  float_leaf x a hx := (nullFirst_floats x x (by rw [hx]; rfl) (by rw [hx]; rfl)).2
  container_nonnull := by decide
  height_lt := by decide

/-- The laws on all of these nodes. -/
theorem simpleCompare_exact_nullFirst : Lawful nullFirst Set.univ
    ↔ NullsSettled nullFirst Set.univ
      ∧ APFloat.FloatsSeparated (literals nullFirst Set.univ) :=
  simpleCompare_exact (fun _ _ _ _ => Set.mem_univ _)

/-- **Neither law holds**: after the NULLs the second members are not compared; and the NaN
is less than 1, which is less than infinity, which is less than the NaN. -/
theorem nullFirst_not_lawful :
    ¬ (compare3Way nullFirst .TOTAL 0 1 = 0
      ↔ SameNode nullFirst (fun l r => compare3Way nullFirst .TOTAL l r = 0) 0 1)
    ∧ ¬ (compare3Way nullFirst .TOTAL 6 4 ≤ 0 → compare3Way nullFirst .TOTAL 4 5 ≤ 0 →
      compare3Way nullFirst .TOTAL 6 5 ≤ 0) := by
  constructor
  · intro h
    have hitems := (h.mp (by decide +kernel)).items
    have hsecond : compare3Way nullFirst .TOTAL 2 3 = 0 := by
      have hsame := (List.forall₂_cons.mp (List.forall₂_cons.mp hitems).2).1
      cases hsame with
      | some hzero => exact hzero
    exact absurd hsecond (by decide +kernel)
  · intro h
    exact absurd (h (by decide +kernel) (by decide +kernel)) (by decide +kernel)

end SimpleCompare

end Inferno.Helpers
