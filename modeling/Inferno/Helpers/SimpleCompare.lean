/-
  Inferno.Helpers.SimpleCompare
  ─────────────────────────────
  `SimpleCompare`: the order of subtrees.

    • `APFloat`           — the literals of `SpecificFloat`, with `compare` and the hash,
    • `TreeNodes`         — nodes, their classes, their own data and their items,
    • `orderCompare3Way`  — the local order: class, then data,
    • `compare3Way`       — the order of subtrees; recursion as far as trees are high,
    • `compare3Way_eq`    — it is one comparison of two nodes, over itself.
-/
import Inferno.Common.Orderable
import Inferno.DB.XTreeDatabase
import Inferno.Lib.Comparator
import Mathlib.Data.Prod.Lex
import Mathlib.Data.String.Basic
import Mathlib.Order.OrderDual
import Mathlib.Algebra.Order.Ring.Rat

namespace Inferno.Helpers

open Inferno.Common
open Inferno.DB
open Inferno.Lib

/-! ## §1. Float literals. -/

/-- The `fltSemantics` that a literal can have. -/
inductive FltSemantics where
  | IEEEsingle
  | IEEEdouble
  | IEEEquad
  | x87DoubleExtended
deriving DecidableEq

/-- Bits of the significand. -/
def FltSemantics.precision : FltSemantics → Nat
  | IEEEsingle => 24
  | IEEEdouble => 53
  | IEEEquad => 113
  | x87DoubleExtended => 64

/-- `fltCategory`, with what the category keeps of exponent and significand. -/
inductive FltCategory where
  | fcInfinity
  | fcNaN (significandParts : List UInt64)
  | fcNormal (exponent : Int) (significandParts : List UInt64)
  | fcZero
deriving DecidableEq

/-- `llvm::APFloat`. -/
structure APFloat where
  semantics : FltSemantics
  sign : Bool
  category : FltCategory
deriving DecidableEq

/-- `cmpResult`. -/
inductive CmpResult where
  | cmpLessThan
  | cmpEqual
  | cmpGreaterThan
  | cmpUnordered
deriving DecidableEq

namespace APFloat

/-- The significand, least significant part first. -/
def significand : List UInt64 → Nat
  | [] => 0
  | p :: parts => p.toNat + 2 ^ 64 * significand parts

/-- The number, the infinities outside all others; a NaN is none. -/
def number (f : APFloat) : Option (Int ×ₗ ℚ) :=
  let signed (x : ℚ) : ℚ := if f.sign then -x else x
  match f.category with
  | .fcNaN _ => none
  | .fcZero => some (toLex (0, 0))
  | .fcInfinity => some (toLex (if f.sign then -1 else 1, 0))
  | .fcNormal exponent parts =>
      let scale : ℚ := (2 : ℚ) ^ (exponent - (f.semantics.precision - 1))
      some (toLex (0, signed (significand parts * scale)))

/-- `compare`, of numbers; NaNs are unordered. -/
def compare (a b : APFloat) : CmpResult :=
  match a.number, b.number with
  | some x, some y =>
      if x < y then .cmpLessThan else if y < x then .cmpGreaterThan else .cmpEqual
  | _, _ => .cmpUnordered

/-- `getHashValue`. -/
def getHashValue (f : APFloat) : UInt32 :=
  let sign : UInt32 := if f.sign then 1 else 0
  let precision : UInt32 := UInt32.ofNat f.semantics.precision
  match f.category with
  | .fcZero => sign <<< 8 ||| precision
  | .fcInfinity => sign <<< 9 ||| precision
  | .fcNaN _ => (1 : UInt32) <<< 10 ||| precision
  | .fcNormal exponent parts =>
      let fields : UInt32 := sign <<< 11 ||| precision ||| UInt32.ofInt exponent <<< 12
      parts.foldl (fun (hash : UInt32) (p : UInt64) =>
        hash ^^^ (p.toUInt32 ^^^ (p >>> 32).toUInt32)) fields

/-- `SpecificFloat::OrderCompare3WayCovariant`: the value, then the hash. -/
def orderCompare (a b : APFloat) : Int :=
  match compare a b with
  | .cmpLessThan => -1
  | .cmpGreaterThan => 1
  | _ => linearCompare a.getHashValue.toNat b.getHashValue.toNat

end APFloat

/-! ## §2. Nodes. -/

/-- The data that the classes of nodes compare by. -/
inductive LocalValue where
  | nothing
  | identifier (name : String) (addrBoundingRole : BoundingRole)
  | string (value : String)
  | integer (isUnsigned : Bool) (bitWidth : Nat) (value : Int)
  | float (value : APFloat)
  | floatSemantics (address : Nat)
deriving DecidableEq

/-- Which class declares the data. -/
def LocalValue.kind : LocalValue → Nat
  | nothing => 0
  | identifier _ _ => 1
  | string _ => 2
  | integer _ _ _ => 3
  | float _ => 4
  | floatSemantics _ => 5

/-- Which of the three interfaces an item has. -/
def itemKind {α : Type} : Item α → Nat
  | .singular _ => 0
  | .sequence _ => 1
  | .collection _ => 2

/-- **Tree nodes**: each has the data and the items that its class declares; a `TreePtr`
is given by what it points to, and only a singular one may be NULL. -/
structure TreeNodes (N : Type) where
  /-- `type_index( typeid(node) )`. -/
  typeIndex : N → Nat
  value : N → LocalValue
  itemise : N → List (Item (Option N))
  height : N → Nat
  value_kind : ∀ x y, typeIndex x = typeIndex y → (value x).kind = (value y).kind
  layout : ∀ x y, typeIndex x = typeIndex y →
    (itemise x).map itemKind = (itemise y).map itemKind
  /-- `SpecificFloat` is one class, without items. -/
  float_class : ∀ x y a b, value x = .float a → value y = .float b → typeIndex x = typeIndex y
  float_leaf : ∀ x a, value x = .float a → itemise x = []
  container_nonnull : ∀ x, ∀ item ∈ itemise x, ∀ p ∈ item.links, item ≠ .singular p → p ≠ none
  height_lt : ∀ x, ∀ item ∈ itemise x, ∀ y, some y ∈ item.links → height y < height x

/-- Nodes of one class, which has no items. -/
def leafNodes {N : Type} (value : N → LocalValue)
    (hkind : ∀ x y, (value x).kind = (value y).kind) : TreeNodes N where
  typeIndex _ := 0
  value := value
  itemise _ := []
  height _ := 0
  value_kind x y _ := hkind x y
  layout _ _ _ := rfl
  float_class _ _ _ _ _ _ := rfl
  float_leaf _ _ _ := rfl
  container_nonnull _ _ hitem := absurd hitem List.not_mem_nil
  height_lt _ _ hitem := absurd hitem List.not_mem_nil

namespace TreeNodes

variable {N : Type} [LinearOrder N] (t : TreeNodes N)

/-- `OrderCompare3WayCovariant`, of two nodes of one class. -/
def orderCompare3WayCovariant (orderProperty : OrderProperty) (l r : N) : Int :=
  match t.value l, t.value r with
  | .identifier name addrBoundingRole, .identifier rName rAddrBoundingRole =>
      if l = r then 0
      else thenBy (linearCompare name rName)
        (if addrBoundingRole ≠ .NONE ∨ rAddrBoundingRole ≠ .NONE then
          addrBoundingRole.toInt - rAddrBoundingRole.toInt
        else linearCompare l r)
  | .string value, .string rValue => linearCompare value rValue
  | .integer isUnsigned bitWidth value, .integer rIsUnsigned rBitWidth rValue =>
      thenBy (isUnsigned.toInt - rIsUnsigned.toInt)
        (thenBy ((bitWidth : Int) - rBitWidth) (linearCompare value rValue))
  | .float value, .float rValue => value.orderCompare rValue
  | .floatSemantics value, .floatSemantics rValue =>
      match orderProperty with
      | .TOTAL => linearCompare value rValue
      | .REPEATABLE => 0
  | _, _ => 0

/-- `Orderable::OrderCompare3Way`; no node compares children there. -/
def orderCompare3Way (orderProperty : OrderProperty) (l r : N) : Int :=
  thenBy (linearCompare (t.typeIndex l) (t.typeIndex r))
    (t.orderCompare3WayCovariant orderProperty l r)

end TreeNodes

/-! ## §3. The comparison. -/

namespace SimpleCompare

variable {N : Type}

/-- Values of the kind of another value. -/
theorem kind_nothing {v : LocalValue} (h : LocalValue.nothing.kind = v.kind) : v = .nothing := by
  cases v with
  | nothing => rfl
  | _ => simp [LocalValue.kind] at h

theorem kind_identifier {v : LocalValue} {name : String} {role : BoundingRole}
    (h : (LocalValue.identifier name role).kind = v.kind) :
    ∃ name' role', v = .identifier name' role' := by
  cases v with
  | identifier name' role' => exact ⟨name', role', rfl⟩
  | _ => simp [LocalValue.kind] at h

theorem kind_string {v : LocalValue} {value : String}
    (h : (LocalValue.string value).kind = v.kind) : ∃ value', v = .string value' := by
  cases v with
  | string value' => exact ⟨value', rfl⟩
  | _ => simp [LocalValue.kind] at h

theorem kind_integer {v : LocalValue} {isUnsigned : Bool} {bitWidth : Nat} {value : Int}
    (h : (LocalValue.integer isUnsigned bitWidth value).kind = v.kind) :
    ∃ isUnsigned' bitWidth' value', v = .integer isUnsigned' bitWidth' value' := by
  cases v with
  | integer isUnsigned' bitWidth' value' => exact ⟨isUnsigned', bitWidth', value', rfl⟩
  | _ => simp [LocalValue.kind] at h

theorem kind_float {v : LocalValue} {value : APFloat}
    (h : (LocalValue.float value).kind = v.kind) : ∃ value', v = .float value' := by
  cases v with
  | float value' => exact ⟨value', rfl⟩
  | _ => simp [LocalValue.kind] at h

theorem kind_floatSemantics {v : LocalValue} {address : Nat}
    (h : (LocalValue.floatSemantics address).kind = v.kind) :
    ∃ address', v = .floatSemantics address' := by
  cases v with
  | floatSemantics address' => exact ⟨address', rfl⟩
  | _ => simp [LocalValue.kind] at h

/-- `Compare3Way` of two `TreePtr`s. -/
def compareTreePtr (cmp : N → N → Int) : Option N → Option N → Int
  | some l, some r => cmp l r
  | l, r => l.isSome.toInt - r.isSome.toInt

/-- The loop over the items of two nodes of one class. -/
def compareItems (cmp : N → N → Int) :
    List (Item (Option N)) → List (Item (Option N)) → Int
  | .sequence l :: lItems, .sequence r :: rItems =>
      thenBy (listCompare (compareTreePtr cmp) l r) (compareItems cmp lItems rItems)
  | .collection l :: lItems, .collection r :: rItems =>
      thenBy (multisetCompare (compareTreePtr cmp) l r) (compareItems cmp lItems rItems)
  | .singular l :: lItems, .singular r :: rItems =>
      -- a NULL on either side, or on both: the loop returns here
      if l.isNone || r.isNone then r.isNone.toInt - l.isNone.toInt
      else thenBy (compareTreePtr cmp l r) (compareItems cmp lItems rItems)
  | _, _ => 0

variable [LinearOrder N] (t : TreeNodes N) (orderProperty : OrderProperty)

/-- `SimpleCompare::Compare3Way` of two nodes, over the same of their children. -/
def compareWith (cmp : N → N → Int) (l r : N) : Int :=
  if l = r then 0
  else thenBy (t.orderCompare3Way orderProperty l r)
    (thenBy (((t.itemise l).length : Int) - (t.itemise r).length)
      (compareItems cmp (t.itemise l) (t.itemise r)))

/-- The recursion, to a depth. -/
def compareFuel : Nat → N → N → Int
  | 0, _, _ => 0
  | fuel + 1, l, r => compareWith t orderProperty (compareFuel fuel) l r

/-- `SimpleCompare::Compare3Way`. -/
def compare3Way (l r : N) : Int :=
  compareFuel t orderProperty (max (t.height l) (t.height r) + 1) l r

/-! ## §4. The recursion. -/

/-- A child of one of the items. -/
def IsElement (items : List (Item (Option N))) (x : N) : Prop :=
  ∃ item ∈ items, some x ∈ item.links

omit [LinearOrder N] in
theorem compareTreePtr_congr {cmp cmp' : N → N → Int} {l r : Option N}
    (heq : ∀ x y, l = some x → r = some y → cmp x y = cmp' x y) :
    compareTreePtr cmp l r = compareTreePtr cmp' l r := by
  cases l with
  | none => rfl
  | some x =>
      cases r with
      | none => rfl
      | some y => exact heq x y rfl rfl

omit [LinearOrder N] in
theorem IsElement.of_head {item : Item (Option N)} {items : List (Item (Option N))} {x : N}
    (hx : some x ∈ item.links) : IsElement (item :: items) x :=
  ⟨item, List.mem_cons_self, hx⟩

omit [LinearOrder N] in
theorem IsElement.of_tail {item : Item (Option N)} {items : List (Item (Option N))} {x : N}
    (hx : IsElement items x) : IsElement (item :: items) x := by
  obtain ⟨i, hi, hx⟩ := hx
  exact ⟨i, List.mem_cons_of_mem item hi, hx⟩

omit [LinearOrder N] in
/-- **The loop compares children only.** -/
theorem compareItems_congr {cmp cmp' : N → N → Int} {lItems : List (Item (Option N))} :
    ∀ {rItems : List (Item (Option N))},
    (∀ x y, IsElement lItems x ∨ IsElement rItems x → IsElement lItems y ∨ IsElement rItems y →
      cmp x y = cmp' x y) →
    compareItems cmp lItems rItems = compareItems cmp' lItems rItems := by
  -- on the items of the left; those of the right go along
  induction lItems with
  | nil => exact fun _ => rfl
  | cons l lItems ih =>
      intro rItems heq
      cases rItems with
      | nil => cases l <;> rfl
      | cons r rItems =>
          -- the rest of the items, and the links of the first ones
          have htail := ih (fun x y hx hy => heq x y
            (hx.imp IsElement.of_tail IsElement.of_tail)
            (hy.imp IsElement.of_tail IsElement.of_tail))
          have hhead (p q : Option N) (hp : p ∈ l.links ∨ p ∈ r.links)
              (hq : q ∈ l.links ∨ q ∈ r.links) :
              compareTreePtr cmp p q = compareTreePtr cmp' p q := by
            apply compareTreePtr_congr
            intro x y hx hy
            rw [hx] at hp
            rw [hy] at hq
            exact heq x y (hp.imp IsElement.of_head IsElement.of_head)
              (hq.imp IsElement.of_head IsElement.of_head)
          cases l with
          | sequence ls =>
              cases r with
              | sequence rs =>
                  have hseq : listCompare (compareTreePtr cmp) ls rs
                      = listCompare (compareTreePtr cmp') ls rs := by
                    unfold listCompare
                    congr 1
                    exact firstDifference_congr
                      (fun p hp q hq => hhead p q (Or.inl hp) (Or.inr hq))
                  rw [compareItems, compareItems, htail, hseq]
              | collection rs => rfl
              | singular q => rfl
          | collection ls =>
              cases r with
              | sequence rs => rfl
              | collection rs =>
                  have hcol : multisetCompare (compareTreePtr cmp) ls rs
                      = multisetCompare (compareTreePtr cmp') ls rs :=
                    multisetCompare_congr (fun p hp q hq => hhead p q hp hq)
                  rw [compareItems, compareItems, htail, hcol]
              | singular q => rfl
          | singular p =>
              cases r with
              | sequence rs => rfl
              | collection rs => rfl
              | singular q =>
                  rw [compareItems, compareItems, htail,
                    hhead p q (Or.inl List.mem_cons_self) (Or.inr List.mem_cons_self)]

theorem compareWith_congr {cmp cmp' : N → N → Int} {l r : N}
    (heq : ∀ x y, IsElement (t.itemise l) x ∨ IsElement (t.itemise r) x →
      IsElement (t.itemise l) y ∨ IsElement (t.itemise r) y → cmp x y = cmp' x y) :
    compareWith t orderProperty cmp l r = compareWith t orderProperty cmp' l r := by
  unfold compareWith
  rw [compareItems_congr heq]

omit [LinearOrder N] in
theorem height_of_isElement {x y : N} (h : IsElement (t.itemise x) y) :
    t.height y < t.height x := by
  obtain ⟨item, hitem, hy⟩ := h
  exact t.height_lt x item hitem y hy

/-- More depth than the trees have changes nothing. -/
theorem compareFuel_stable (m : Nat) : ∀ (n : Nat) (l r : N), t.height l < m → t.height r < m →
    t.height l < n → t.height r < n →
    compareFuel t orderProperty m l r = compareFuel t orderProperty n l r := by
  induction m with
  | zero => exact fun _ _ _ hl _ _ _ => absurd hl (Nat.not_lt_zero _)
  | succ m ih =>
      intro n l r hlm hrm hln hrn
      cases n with
      | zero => exact absurd hln (Nat.not_lt_zero _)
      | succ n =>
          show compareWith t orderProperty _ l r = compareWith t orderProperty _ l r
          apply compareWith_congr
          intro x y hx hy
          have hlow (z : N) (hz : IsElement (t.itemise l) z ∨ IsElement (t.itemise r) z) :
              t.height z < m ∧ t.height z < n := by
            rcases hz with hz | hz
            · have := height_of_isElement t hz
              omega
            · have := height_of_isElement t hz
              omega
          exact ih n x y (hlow x hx).1 (hlow y hy).1 (hlow x hx).2 (hlow y hy).2

/-- **`Compare3Way` is one comparison, over itself.** -/
theorem compare3Way_eq (l r : N) : compare3Way t orderProperty l r
    = compareWith t orderProperty (compare3Way t orderProperty) l r := by
  show compareWith t orderProperty (compareFuel t orderProperty _) l r = _
  apply compareWith_congr
  intro x y hx hy
  have hlow (z : N) (hz : IsElement (t.itemise l) z ∨ IsElement (t.itemise r) z) :
      t.height z < max (t.height l) (t.height r) := by
    rcases hz with hz | hz
    · exact lt_of_lt_of_le (height_of_isElement t hz) (Nat.le_max_left _ _)
    · exact lt_of_lt_of_le (height_of_isElement t hz) (Nat.le_max_right _ _)
  exact compareFuel_stable t orderProperty _ _ x y (hlow x hx) (hlow y hy)
    (by omega) (by omega)

end SimpleCompare

end Inferno.Helpers
