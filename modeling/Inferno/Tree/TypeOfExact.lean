/-
  Inferno.Tree.TypeOfExact
  ────────────────────────
  When `TypeOf` gives an expression the type that it has.

    • `Ty.promoted`, `UsualConversions` — the common type of numbers, as C and C++ have it,
    • `OperatorType`, `HasType` — the type of an operator, and of an expression, where the
                           operands fit,
    • `getStandard_ok`, `getStandard_error` — the operators on numbers, where all are
                           integrals and where some are not,
    • `Typable`          — no conditional operator and no subscript, and integral operands
                           of the arithmetic and bitwise operators,
    • `tryApplyTransformation_exact`.
-/
import Inferno.Tree.TypeOf

namespace Inferno.Tree

open Inferno.Helpers

/-! ## §1. The types that expressions have. -/

namespace Ty

/-- `Signed` or `Unsigned`, of a specific width. -/
def IsIntegral (t : Ty) : Prop := ∃ w, t = signed (some w) ∨ t = unsigned (some w)

/-- Or `Floating`, of specific semantics. -/
def IsArithmetic (t : Ty) : Prop := t.IsIntegral ∨ ∃ s, t = floating (some s)

def isFloating : Ty → Bool
  | floating _ => true
  | _ => false

/-- What an operand is converted to before all else: a Boolean to `int`, and one of a named
type to the numbers that the name stands for, those of an enumeration or a typedef. -/
def promoted (db : TypeDb) (named : Nat → Option Ty) : Ty → Ty
  | boolean => signed (some db.intBits)
  | other serial => (named serial).getD (other serial)
  | t => t

end Ty

section

variable (db : TypeDb) (named : Nat → Option Ty)

/-- Some unsigned operand is at least as wide as every signed operand and `int`. -/
def UnsignedWins (ts : List Ty) : Prop :=
  ∃ w, Ty.unsigned (some w) ∈ ts ∧ (db.intBits : Int) ≤ w ∧
    ∀ w', Ty.signed (some w') ∈ ts → w' ≤ w

/-- The greatest width, with a minimum of `int`. -/
structure GreatestWidth (ts : List Ty) (width : Int) : Prop where
  int_le : (db.intBits : Int) ≤ width
  signed_le : ∀ w, Ty.signed (some w) ∈ ts → w ≤ width
  unsigned_le : ∀ w, Ty.unsigned (some w) ∈ ts → w ≤ width
  reached : width = db.intBits ∨ Ty.signed (some width) ∈ ts ∨ Ty.unsigned (some width) ∈ ts

/-- **The usual arithmetic conversions**, of promoted operands. -/
inductive UsualConversions (ts : List Ty) : Ty → Prop
  | floating (s : FltSemantics) : (∀ t ∈ ts, t.IsArithmetic) → .floating (some s) ∈ ts →
      (∀ s', .floating (some s') ∈ ts → s'.precision ≤ s.precision) →
      UsualConversions ts (.floating (some s))
  | unsigned (width : Int) : (∀ t ∈ ts, t.IsIntegral) → GreatestWidth db ts width →
      UnsignedWins db ts → UsualConversions ts (.unsigned (some width))
  | signed (width : Int) : ts ≠ [] → (∀ t ∈ ts, t.IsIntegral) → GreatestWidth db ts width →
      ¬ UnsignedWins db ts → UsualConversions ts (.signed (some width))

/-- The type of an operator, from the lowered types of operands that fit it. -/
inductive OperatorType : OperatorNode → List Ty → Ty → Prop
  | assignment {op t ts} : op.isAssignment = true → OperatorType op (t :: ts) t
  | standard {op ts t} : op.isStandard = true →
      UsualConversions db (ts.map (Ty.promoted db named)) t → OperatorType op ts t
  | truth {op t ts} : op.category = .LOGICAL ∨ op.category = .COMPARISON →
      OperatorType op (t :: ts) .boolean
  | shift {op t ts} : op.category = .SHIFT → OperatorType op (t :: ts) t
  | dereference {t k} : OperatorType .Dereference [.pointer t k] t
  | addressOf {t} : OperatorType .AddressOf [t] (.pointer t .nonConst)
  | comma {l r} : OperatorType .Comma [l, r] r
  | pointerAdd {before after t k} :
      (∀ o ∈ before ++ after, (o.promoted db named).IsIntegral) →
      OperatorType .Add (before ++ .pointer t k :: after) (.pointer t k)
  | pointerSubtract {o ts t k} : (∀ u ∈ o :: ts, (u.promoted db named).IsIntegral) →
      OperatorType .Subtract (.pointer t k :: o :: ts) (.pointer t k)
  | pointerDifference {t k t' k'} :
      OperatorType .Subtract [.pointer t k, .pointer t' k'] (.signed (some db.intBits))

variable (declared : Nat → Option Ty)

mutual

/-- **The type of an expression** whose operands fit their operators. -/
inductive HasType : Expr → Ty → Prop
  | identifier {id t} : declared id = some t → HasType (.identifier id) t
  | operator {op operands ts t} : HaveTypes operands ts →
      OperatorType db named op (ts.map Ty.lower) t → HasType (.operator op operands) t
  | signedLiteral {width} : HasType (.literal (.integer width true)) (.signed (some width))
  | unsignedLiteral {width} : HasType (.literal (.integer width false)) (.unsigned (some width))
  | floatLiteral {s} : HasType (.literal (.float s)) (.floating (some s))
  | boolLiteral : HasType (.literal .bool) .boolean
  | signedString : db.charDefaultSigned = true →
      HasType (.literal .string) (.pointer (.signed (some db.charBits)) .const)
  | unsignedString : db.charDefaultSigned = false →
      HasType (.literal .string) (.pointer (.unsigned (some db.charBits)) .const)
  | goSub {callee t} : HasType callee (.function t) → HasType (.goSub callee) t
  | goSubVoid {callee n} : HasType callee (.callable n) → HasType (.goSub callee) .void
  | lookup {object member t} : declared member = some t → HasType (.lookup object member) t
  | cast {operand type} : HasType (.cast operand type) type
  | label : HasType .label .labeley
  | sizeOf {argument} : HasType (.sizeOf argument) (.unsigned (some db.sizeTBits))
  | alignOf {argument} : HasType (.alignOf argument) (.unsigned (some db.sizeTBits))
  | new {type} : HasType (.new type) (.pointer type .nonConst)
  | delete {pointer} : HasType (.delete pointer) .void
  | statements {last t} : HasType last t → HasType (.statements last) t
  | voidStatements : HasType .voidStatements .void
  | conditional {condition exprThen exprElse t} : HasType exprThen t →
      HasType (.conditional condition exprThen exprElse) t
  | subscript {destination index u t k} : HasType destination u → u.lower = .pointer t k →
      HasType (.subscript destination index) t

/-- The types of a list of expressions. -/
inductive HaveTypes : List Expr → List Ty → Prop
  | nil : HaveTypes [] []
  | cons {e es t ts} : HasType e t → HaveTypes es ts → HaveTypes (e :: es) (t :: ts)

end

/-- The type of an initialiser: an array of its elements' type. -/
inductive InitialiserType : Initialiser → Ty → Prop
  | expression {e t} : HasType db named declared e t → InitialiserType (.expression e) t
  | emptyArray : InitialiserType (.arrayInitialiser []) (.array .void (some 0))
  | array {e es t} : HasType db named declared e t →
      InitialiserType (.arrayInitialiser (e :: es)) (.array t (some ((e :: es).length : Nat)))

end

/-! ## §2. The loop over numbers. -/

section

variable {db : TypeDb} {named : Nat → Option Ty}

theorem intBits_pos (db : TypeDb) : 0 < db.intBits := by
  have h := db.char_pos
  have hcs := db.char_le
  have hsi := db.short_le
  omega

/-- A turn on a signed operand. -/
theorem maxWidth_signed (st : MaxWidths) (w : Int) :
    maxWidth st (.signed (some w))
      = .ok { st with maxwidthSigned := max w st.maxwidthSigned } := rfl

theorem maxWidth_unsigned (st : MaxWidths) (w : Int) :
    maxWidth st (.unsigned (some w))
      = .ok { st with maxwidthUnsigned := max w st.maxwidthUnsigned } := rfl

/-- A turn on the first float. -/
theorem maxWidth_floating (st : MaxWidths) (s : FltSemantics) (h : st.maxwidthFloat = none) :
    maxWidth st (.floating (some s)) = .error .undefined := by
  unfold maxWidth maxFloat
  rw [h]
  rfl

/-- What the loop has found, from where it was. -/
structure Found (ts : List Ty) (st st' : MaxWidths) : Prop where
  float : st'.maxwidthFloat = st.maxwidthFloat
  signed_le : st.maxwidthSigned ≤ st'.maxwidthSigned
  unsigned_le : st.maxwidthUnsigned ≤ st'.maxwidthUnsigned
  signed_bound : ∀ w, Ty.signed (some w) ∈ ts → w ≤ st'.maxwidthSigned
  unsigned_bound : ∀ w, Ty.unsigned (some w) ∈ ts → w ≤ st'.maxwidthUnsigned
  signed_reached : st'.maxwidthSigned = st.maxwidthSigned ∨
    Ty.signed (some st'.maxwidthSigned) ∈ ts
  unsigned_reached : st'.maxwidthUnsigned = st.maxwidthUnsigned ∨
    Ty.unsigned (some st'.maxwidthUnsigned) ∈ ts

theorem Found.nil (st : MaxWidths) : Found [] st st where
  float := rfl
  signed_le := Int.le_refl _
  unsigned_le := Int.le_refl _
  signed_bound w hw := absurd hw (by simp)
  unsigned_bound w hw := absurd hw (by simp)
  signed_reached := Or.inl rfl
  unsigned_reached := Or.inl rfl

theorem Found.signed {ts : List Ty} {st st' : MaxWidths} {w : Int}
    (h : Found ts { st with maxwidthSigned := max w st.maxwidthSigned } st') :
    Found (.signed (some w) :: ts) st st' where
  float := h.float
  signed_le := Int.le_trans (Int.le_max_right w st.maxwidthSigned) h.signed_le
  unsigned_le := h.unsigned_le
  signed_bound v hv := by
    rcases List.mem_cons.mp hv with heq | hv
    · injection heq with heq
      injection heq with heq
      rw [heq]
      exact Int.le_trans (Int.le_max_left w st.maxwidthSigned) h.signed_le
    · exact h.signed_bound v hv
  unsigned_bound v hv := by
    rcases List.mem_cons.mp hv with heq | hv
    · exact absurd heq (by simp)
    · exact h.unsigned_bound v hv
  signed_reached := by
    rcases h.signed_reached with heq | hmem
    · have hmax : st'.maxwidthSigned = max w st.maxwidthSigned := heq
      rcases Int.le_total w st.maxwidthSigned with hle | hle
      · rw [Int.max_eq_right hle] at hmax
        exact Or.inl hmax
      · rw [Int.max_eq_left hle] at hmax
        rw [hmax]
        exact Or.inr List.mem_cons_self
    · exact Or.inr (List.mem_cons_of_mem _ hmem)
  unsigned_reached := h.unsigned_reached.imp id (List.mem_cons_of_mem _)

theorem Found.unsigned {ts : List Ty} {st st' : MaxWidths} {w : Int}
    (h : Found ts { st with maxwidthUnsigned := max w st.maxwidthUnsigned } st') :
    Found (.unsigned (some w) :: ts) st st' where
  float := h.float
  signed_le := h.signed_le
  unsigned_le := Int.le_trans (Int.le_max_right w st.maxwidthUnsigned) h.unsigned_le
  signed_bound v hv := by
    rcases List.mem_cons.mp hv with heq | hv
    · exact absurd heq (by simp)
    · exact h.signed_bound v hv
  unsigned_bound v hv := by
    rcases List.mem_cons.mp hv with heq | hv
    · injection heq with heq
      injection heq with heq
      rw [heq]
      exact Int.le_trans (Int.le_max_left w st.maxwidthUnsigned) h.unsigned_le
    · exact h.unsigned_bound v hv
  signed_reached := h.signed_reached.imp id (List.mem_cons_of_mem _)
  unsigned_reached := by
    rcases h.unsigned_reached with heq | hmem
    · have hmax : st'.maxwidthUnsigned = max w st.maxwidthUnsigned := heq
      rcases Int.le_total w st.maxwidthUnsigned with hle | hle
      · rw [Int.max_eq_right hle] at hmax
        exact Or.inl hmax
      · rw [Int.max_eq_left hle] at hmax
        rw [hmax]
        exact Or.inr List.mem_cons_self
    · exact Or.inr (List.mem_cons_of_mem _ hmem)

/-- **The loop over integrals returns**, by induction on the operands. -/
theorem foldlM_maxWidth_integral (ts : List Ty) : ∀ (st : MaxWidths),
    (∀ t ∈ ts, t.IsIntegral) → ∃ st', ts.foldlM maxWidth st = .ok st' ∧ Found ts st st' := by
  induction ts with
  | nil =>
      intro st _
      exact ⟨st, rfl, Found.nil st⟩
  | cons t ts ih =>
      intro st hts
      obtain ⟨w, ht⟩ := hts t List.mem_cons_self
      have hrest : ∀ u ∈ ts, u.IsIntegral := fun u hu => hts u (List.mem_cons_of_mem t hu)
      rcases ht with rfl | rfl
      · obtain ⟨st', hfold, hfound⟩ :=
          ih { st with maxwidthSigned := max w st.maxwidthSigned } hrest
        refine ⟨st', ?_, hfound.signed⟩
        rw [List.foldlM_cons, maxWidth_signed]
        exact hfold
      · obtain ⟨st', hfold, hfound⟩ :=
          ih { st with maxwidthUnsigned := max w st.maxwidthUnsigned } hrest
        refine ⟨st', ?_, hfound.unsigned⟩
        rw [List.foldlM_cons, maxWidth_unsigned]
        exact hfold

/-- **The loop fails at the first float.** -/
theorem foldlM_maxWidth_floating (ts : List Ty) : ∀ (st : MaxWidths),
    st.maxwidthFloat = none → (∀ t ∈ ts, t.IsArithmetic) → (∃ t ∈ ts, t.isFloating = true) →
    ts.foldlM maxWidth st = .error .undefined := by
  induction ts with
  | nil =>
      intro st _ _ h
      obtain ⟨t, ht, -⟩ := h
      exact absurd ht (by simp)
  | cons t ts ih =>
      intro st hnone hts hfloat
      rw [List.foldlM_cons]
      have hrest : ∀ u ∈ ts, u.IsArithmetic := fun u hu => hts u (List.mem_cons_of_mem t hu)
      have hlater : t.isFloating = false → ∃ u ∈ ts, u.isFloating = true := by
        intro hno
        obtain ⟨u, hu, huf⟩ := hfloat
        rcases List.mem_cons.mp hu with heq | hu
        · rw [heq, hno] at huf
          exact absurd huf (by decide)
        · exact ⟨u, hu, huf⟩
      rcases hts t List.mem_cons_self with ⟨w, rfl | rfl⟩ | ⟨s, rfl⟩
      · rw [maxWidth_signed]
        exact ih { st with maxwidthSigned := max w st.maxwidthSigned } hnone hrest
          (hlater rfl)
      · rw [maxWidth_unsigned]
        exact ih { st with maxwidthUnsigned := max w st.maxwidthUnsigned } hnone hrest
          (hlater rfl)
      · rw [maxWidth_floating st s hnone]
        rfl

theorem isNumeric_of_arithmetic {t : Ty} (h : t.IsArithmetic) : t.isNumeric = true := by
  rcases h with ⟨w, rfl | rfl⟩ | ⟨s, rfl⟩
  · rfl
  · rfl
  · rfl

theorem not_floating_of_integral {t : Ty} (h : t.IsIntegral) : t.isFloating = false := by
  obtain ⟨w, rfl | rfl⟩ := h
  · rfl
  · rfl

theorem UsualConversions.arithmetic {ts : List Ty} {t : Ty} (h : UsualConversions db ts t) :
    ∀ u ∈ ts, u.IsArithmetic := by
  cases h with
  | floating s harith hmem hmax => exact harith
  | unsigned width hint hgreat hwins => exact fun u hu => Or.inl (hint u hu)
  | signed width hne hint hgreat hwins => exact fun u hu => Or.inl (hint u hu)

theorem UsualConversions.ne_nil {ts : List Ty} {t : Ty} (h : UsualConversions db ts t) :
    ts ≠ [] := by
  cases h with
  | floating s harith hmem hmax => exact List.ne_nil_of_mem hmem
  | unsigned width hint hgreat hwins =>
      obtain ⟨w, hw, -⟩ := hwins
      exact List.ne_nil_of_mem hw
  | signed width hne hint hgreat hwins => exact hne

theorem getStandard_eq {ts : List Ty} (h : ∀ t ∈ ts, t.IsArithmetic) :
    getStandard db ts = getStandardOnNumerics db ts := by
  unfold getStandard
  rw [if_pos]
  exact List.all_eq_true.mpr fun t ht => isNumeric_of_arithmetic (h t ht)

/-- **Without a float the operator has the type of the usual conversions.** -/
theorem getStandard_ok {ts : List Ty} {t : Ty} (h : UsualConversions db ts t)
    (hno : ∀ u ∈ ts, u.isFloating = false) : getStandard db ts = .ok t := by
  rw [getStandard_eq h.arithmetic]
  have hpos := intBits_pos db
  -- integral operands: the loop goes over all of them
  have hresult : (∀ u ∈ ts, u.IsIntegral) → ∃ st' : MaxWidths,
      getStandardOnNumerics db ts = .ok (resultType st') ∧
        Found ts ⟨db.intBits, 0, none⟩ st' := by
    intro hint
    obtain ⟨st', hfold, hfound⟩ := foldlM_maxWidth_integral ts ⟨db.intBits, 0, none⟩ hint
    refine ⟨st', ?_, hfound⟩
    unfold getStandardOnNumerics
    rw [hfold]
    rfl
  cases h with
  | floating s harith hmem hmax => exact absurd (hno _ hmem) (by simp [Ty.isFloating])
  -- unsigned: the greatest width is that of an unsigned operand
  | unsigned width hint hgreat hwins =>
      obtain ⟨st', hget, hfound⟩ := hresult hint
      rw [hget]
      obtain ⟨w, hw, hintw, hsw⟩ := hwins
      have hfloat : st'.maxwidthFloat = none := hfound.float
      have hwle := hfound.unsigned_bound w hw
      have hswle : st'.maxwidthSigned ≤ w := by
        rcases hfound.signed_reached with heq | hmem
        · have heq' : st'.maxwidthSigned = db.intBits := heq
          omega
        · exact hsw _ hmem
      have hsint : (db.intBits : Int) ≤ st'.maxwidthSigned := hfound.signed_le
      have hwidth : st'.maxwidthUnsigned = width := by
        have hle : st'.maxwidthUnsigned ≤ width := by
          rcases hfound.unsigned_reached with heq | hmem
          · have heq' : st'.maxwidthUnsigned = 0 := heq
            omega
          · exact hgreat.unsigned_le _ hmem
        rcases hgreat.reached with heq | hmem | hmem
        · omega
        · have hsb := hfound.signed_bound _ hmem
          omega
        · have hub := hfound.unsigned_bound _ hmem
          omega
      unfold resultType
      rw [hfloat]
      show Except.ok (if _ then _ else _) = _
      rw [if_pos ⟨by omega, by omega⟩, hwidth]
  | signed width hne hint hgreat hwins =>
      obtain ⟨st', hget, hfound⟩ := hresult hint
      rw [hget]
      have hfloat : st'.maxwidthFloat = none := hfound.float
      have hsint : (db.intBits : Int) ≤ st'.maxwidthSigned := hfound.signed_le
      -- signed: no unsigned operand is as wide as the widest signed one
      have hless : st'.maxwidthUnsigned < st'.maxwidthSigned := by
        by_contra hno
        rcases hfound.unsigned_reached with heq | hmem
        · have heq' : st'.maxwidthUnsigned = 0 := heq
          omega
        · refine hwins ⟨_, hmem, by omega, fun w' hw' => ?_⟩
          have hsb := hfound.signed_bound w' hw'
          omega
      have hwidth : st'.maxwidthSigned = width := by
        have hle : st'.maxwidthSigned ≤ width := by
          rcases hfound.signed_reached with heq | hmem
          · have heq' : st'.maxwidthSigned = db.intBits := heq
            have hw := hgreat.int_le
            omega
          · exact hgreat.signed_le _ hmem
        rcases hgreat.reached with heq | hmem | hmem
        · omega
        · have hsb := hfound.signed_bound _ hmem
          omega
        · have hub := hfound.unsigned_bound _ hmem
          omega
      unfold resultType
      rw [hfloat]
      show Except.ok (if _ then _ else _) = _
      rw [if_neg (by omega), hwidth]

/-- What is promoted to a number is one, or no `Numeric` at all. -/
theorem arithmetic_of_isNumeric {t : Ty} (h : (t.promoted db named).IsArithmetic)
    (hnum : t.isNumeric = true) : t.IsArithmetic := by
  cases t with
  | signed _ | unsigned _ | integral _ | floating _ | numeric => exact h
  | _ => cases hnum

/-- **With anything but integrals it has none.** -/
theorem getStandard_error {ts : List Ty} (h : ∀ t ∈ ts, (t.promoted db named).IsArithmetic)
    (hodd : ∃ t ∈ ts, ¬ t.IsIntegral) : ∃ f, getStandard db ts = .error f := by
  by_cases hall : ts.all Ty.isNumeric = true
  · -- all are `Numeric`, and so one is a float
    have harith : ∀ t ∈ ts, t.IsArithmetic := fun t ht =>
      arithmetic_of_isNumeric (h t ht) (List.all_eq_true.mp hall t ht)
    obtain ⟨t, ht, hnot⟩ := hodd
    have hfloat : ∃ u ∈ ts, u.isFloating = true := by
      rcases harith t ht with hint | ⟨s, rfl⟩
      · exact absurd hint hnot
      · exact ⟨_, ht, rfl⟩
    rw [getStandard_eq harith]
    unfold getStandardOnNumerics
    rw [foldlM_maxWidth_floating ts ⟨db.intBits, 0, none⟩ rfl harith hfloat]
    exact ⟨_, rfl⟩
  · unfold getStandard
    rw [if_neg hall]
    exact ⟨_, rfl⟩

/-! ## §3. Operators. -/

/-- An integral stays what it is. -/
theorem promoted_of_integral {t : Ty} (h : t.IsIntegral) : t.promoted db named = t := by
  obtain ⟨w, rfl | rfl⟩ := h
  · rfl
  · rfl

theorem not_pointer_of_arithmetic {t : Ty} (h : (t.promoted db named).IsArithmetic) :
    t.isPointer = false := by
  cases t with
  | pointer _ _ =>
      rcases h with ⟨w, h | h⟩ | ⟨s, h⟩
      · cases h
      · cases h
      · cases h
  | _ => rfl

theorem find_pointer_none {ts : List Ty} (h : ∀ t ∈ ts, t.isPointer = false) :
    ts.find? Ty.isPointer = none := by
  rw [List.find?_eq_none]
  intro t ht
  rw [h t ht]
  decide

/-- Numbers are not the difference of two pointers. -/
theorem isPointerDifference_false {op : OperatorNode} {ts : List Ty} (hne : ts ≠ [])
    (h : ∀ t ∈ ts, t.isPointer = false) : isPointerDifference op ts = .ok false := by
  unfold isPointerDifference
  split
  · cases ts with
    | nil => exact absurd rfl hne
    | cons t ts =>
        show (if t.isPointer then _ else _) = _
        rw [h t List.mem_cons_self]
        rfl
  · rfl

/-- Arithmetic and bitwise operators on numbers go to `GetStandard`. -/
theorem getLowered_standard {op : OperatorNode} {ts : List Ty} (hop : op.isStandard = true)
    (hne : ts ≠ []) (h : ∀ t ∈ ts, t.isPointer = false) :
    getLowered db op ts = getStandard db ts := by
  unfold OperatorNode.isStandard at hop
  rw [Bool.and_eq_true, Bool.not_eq_true', Bool.or_eq_true, decide_eq_true_eq,
    decide_eq_true_eq] at hop
  have hcategory : getCategory db op ts = getStandard db ts := by
    unfold getCategory
    rcases hop.2 with hcat | hcat
    · rw [hcat]
    · rw [hcat]
  unfold getLowered
  rw [hop.1, isPointerDifference_false hne h, find_pointer_none h, hcategory,
    if_neg (by decide)]
  show (if op = .Add ∨ op = .Subtract then getStandard db ts else getStandard db ts) = _
  exact ite_self _

theorem getLowered_assignment {op : OperatorNode} (hop : op.isAssignment = true) (ts : List Ty) :
    getLowered db op ts = front ts := by
  unfold getLowered
  rw [if_pos hop]

/-- The other categories, unless pointers are subtracted or added. -/
theorem getLowered_category {op : OperatorNode} {ts : List Ty} (hop : op.isAssignment = false)
    (hadd : op ≠ .Add) (hsub : op ≠ .Subtract) : getLowered db op ts = getCategory db op ts := by
  have hdiff : isPointerDifference op ts = .ok false := by
    unfold isPointerDifference
    split
    · exact absurd rfl hsub
    · rfl
  unfold getLowered
  rw [hop, hdiff]
  show (if op = .Add ∨ op = .Subtract then _ else _) = _
  rw [if_neg (by simp [hadd, hsub])]

/-- An operator of a category that is not arithmetic adds and subtracts nothing. -/
theorem ne_add_of_category (op : OperatorNode) (h : op.category ≠ .ARITHMETIC) :
    op ≠ .Add ∧ op ≠ .Subtract := by
  constructor
  · intro heq
    rw [heq] at h
    exact h rfl
  · intro heq
    rw [heq] at h
    exact h rfl

/-- Some operand is no integral, and none is a pointer. -/
def NeedConversion (ts : List Ty) : Prop :=
  (∃ u ∈ ts, ¬ u.IsIntegral) ∧ ∀ u ∈ ts, u.isPointer = false

/-- The operands of an arithmetic or bitwise operator are no pointers. -/
theorem UsualConversions.not_pointer {ts : List Ty} {t : Ty}
    (h : UsualConversions db (ts.map (Ty.promoted db named)) t) :
    ∀ u ∈ ts, u.isPointer = false := fun _ hu =>
  not_pointer_of_arithmetic (h.arithmetic _ (List.mem_map_of_mem hu))

/-- **An operator on operands that fit has its type**, where they need no conversion. -/
theorem getLowered_ok {op : OperatorNode} {ts : List Ty} {t : Ty}
    (h : OperatorType db named op ts t) (hno : ¬ (op.isStandard = true ∧ NeedConversion ts)) :
    getLowered db op ts = .ok t := by
  cases h with
  | assignment hop => exact getLowered_assignment hop _
  | standard hop husual =>
      -- a standard operator needs no conversion, so its operands are integral
      have hint : ∀ u ∈ ts, u.IsIntegral := by
        by_contra hodd
        simp only [not_forall] at hodd
        obtain ⟨u, hu, hodd⟩ := hodd
        exact hno ⟨hop, ⟨u, hu, hodd⟩, husual.not_pointer⟩
      have hsame : ts.map (Ty.promoted db named) = ts :=
        (List.map_congr_left fun _ hu => promoted_of_integral (hint _ hu)).trans
          (List.map_id' ts)
      rw [getLowered_standard hop (List.map_eq_nil_iff.not.mp husual.ne_nil) husual.not_pointer]
      rw [hsame] at husual
      exact getStandard_ok husual fun u hu => not_floating_of_integral (hint u hu)
  -- the other operators are told by their category
  | truth hcat =>
      have hassign : op.isAssignment = false := by
        cases op <;> simp [OperatorNode.category] at hcat <;> rfl
      have hne := ne_add_of_category op (by rcases hcat with hcat | hcat <;> simp [hcat])
      rw [getLowered_category hassign hne.1 hne.2]
      unfold getCategory
      rcases hcat with hcat | hcat
      · rw [hcat]
      · rw [hcat]
  | shift hcat =>
      have hne := ne_add_of_category op (by simp [hcat])
      by_cases hassign : op.isAssignment = true
      · exact getLowered_assignment hassign _
      · rw [getLowered_category (by simpa using hassign) hne.1 hne.2]
        unfold getCategory
        rw [hcat]
        rfl
  | dereference => rfl
  | addressOf => rfl
  | comma => rfl
  | pointerAdd hint =>
      rename_i before after d k
      -- the pointer is the only one, so the operator has its type
      have hbefore : before.find? Ty.isPointer = none :=
        find_pointer_none fun o ho =>
          not_pointer_of_arithmetic (Or.inl (hint o (List.mem_append_left _ ho)))
      have hfind : (before ++ .pointer d k :: after).find? Ty.isPointer
          = some (.pointer d k) := by
        rw [List.find?_append, hbefore]
        rfl
      unfold getLowered
      rw [hfind]
      rfl
  | pointerSubtract hint =>
      rename_i o us d k
      have hlast : ∃ u, (Ty.pointer d k :: o :: us).getLast? = some u ∧ u.isPointer = false := by
        refine ⟨(o :: us).getLast (List.cons_ne_nil o us), ?_, ?_⟩
        · rw [List.getLast?_eq_some_getLast (List.cons_ne_nil _ _),
            List.getLast_cons (List.cons_ne_nil o us)]
        · exact not_pointer_of_arithmetic (Or.inl (hint _ (List.getLast_mem _)))
      obtain ⟨u, hu, hup⟩ := hlast
      -- the last operand is no pointer, so this is no difference of pointers
      have hdiff : isPointerDifference .Subtract (.pointer d k :: o :: us) = .ok false := by
        have hback : back (.pointer d k :: o :: us) = .ok u := by
          unfold back
          rw [hu]
        show (back (.pointer d k :: o :: us) >>= fun r => Except.ok r.isPointer) = _
        rw [hback]
        show Except.ok u.isPointer = _
        rw [hup]
      unfold getLowered
      rw [hdiff]
      rfl
  | pointerDifference => rfl

/-- **Where they do it has none.** -/
theorem getLowered_error {op : OperatorNode} {ts : List Ty} {t : Ty}
    (h : OperatorType db named op ts t) (hop : op.isStandard = true)
    (hconv : NeedConversion ts) : ∃ f, getLowered db op ts = .error f := by
  have hpointer : ∀ d k, .pointer d k ∉ ts := by
    intro d k hmem
    cases hconv.2 _ hmem
  cases h with
  | standard hop' husual =>
      rw [getLowered_standard hop (List.map_eq_nil_iff.not.mp husual.ne_nil) hconv.2]
      exact getStandard_error (fun u hu => husual.arithmetic _ (List.mem_map_of_mem hu)) hconv.1
  | assignment hassign =>
      unfold OperatorNode.isStandard at hop
      rw [hassign] at hop
      exact absurd hop (by simp)
  | truth hcat =>
      unfold OperatorNode.isStandard at hop
      rcases hcat with hcat | hcat
      · rw [hcat] at hop
        exact absurd hop (by simp)
      · rw [hcat] at hop
        exact absurd hop (by simp)
  | shift hcat =>
      unfold OperatorNode.isStandard at hop
      rw [hcat] at hop
      exact absurd hop (by simp)
  | dereference => exact absurd hop (by decide)
  | addressOf => exact absurd hop (by decide)
  | comma => exact absurd hop (by decide)
  -- pointer arithmetic
  | pointerAdd hint => exact absurd (List.mem_append_right _ List.mem_cons_self) (hpointer _ _)
  | pointerSubtract hint => exact absurd List.mem_cons_self (hpointer _ _)
  | pointerDifference => exact absurd List.mem_cons_self (hpointer _ _)

end

/-! ## §4. Expressions. -/

section

variable (db : TypeDb) (named : Nat → Option Ty) (declared : Nat → Option Ty)

/-- Some operand is not of an integral type, nor refers to one; and none is a pointer. -/
def OperandsNeedConversion (operands : List Expr) : Prop :=
  (∃ o ∈ operands, ∃ t, HasType db named declared o t ∧ ¬ t.lower.IsIntegral)
    ∧ ∀ o ∈ operands, ∀ t, HasType db named declared o t → t.lower.isPointer = false

mutual

/-- **The expressions whose type is found**: among the expressions whose type is asked
there is no conditional operator and no subscript, and no arithmetic or bitwise operator
has an operand that is a float, a Boolean or of a named type. -/
def Typable : Expr → Prop
  | .operator op operands =>
      TypableAll operands
        ∧ ¬ (op.isStandard = true ∧ OperandsNeedConversion db named declared operands)
  | .goSub callee => Typable callee
  | .statements last => Typable last
  | .conditional _ _ _ => False
  | .subscript _ _ => False
  | .this => False
  | _ => True

/-- All of a list. -/
def TypableAll : List Expr → Prop
  | [] => True
  | e :: es => Typable e ∧ TypableAll es

end

/-- And no array initialiser is one. -/
def TypableInitialiser : Initialiser → Prop
  | .expression e => Typable db named declared e
  | .arrayInitialiser _ => False

/-- What is proved of an expression: its type is found, or an exception leaves `Get`. -/
def Exact (e : Expr) : Prop :=
  ∀ t, HasType db named declared e t →
    (Typable db named declared e → get db declared e = .ok t) ∧
      (¬ Typable db named declared e → ∃ f, get db declared e = .error f)

variable {db named declared}

theorem HaveTypes.exists_of_type {es : List Expr} {ts : List Ty}
    (h : HaveTypes db named declared es ts) {t : Ty} (ht : t ∈ ts) :
    ∃ e ∈ es, HasType db named declared e t := by
  induction es generalizing ts with
  | nil =>
      cases h
      exact absurd ht (by simp)
  | cons e es ih =>
      cases h with
      | cons he hes =>
          rcases List.mem_cons.mp ht with heq | ht
          · rw [heq]
            exact ⟨e, List.mem_cons_self, he⟩
          · obtain ⟨e', he', htype⟩ := ih hes ht
            exact ⟨e', List.mem_cons_of_mem e he', htype⟩

theorem HaveTypes.exists_of_expr {es : List Expr} {ts : List Ty}
    (h : HaveTypes db named declared es ts) {e : Expr} (he : e ∈ es) :
    ∃ t ∈ ts, HasType db named declared e t := by
  induction es generalizing ts with
  | nil => exact absurd he (by simp)
  | cons d es ih =>
      cases h with
      | cons hd hes =>
          rcases List.mem_cons.mp he with heq | he
          · rw [heq]
            exact ⟨_, List.mem_cons_self, hd⟩
          · obtain ⟨t, ht, htype⟩ := ih hes he
            exact ⟨t, List.mem_cons_of_mem _ ht, htype⟩

theorem typableAll_iff {es : List Expr} :
    TypableAll db named declared es ↔ ∀ e ∈ es, Typable db named declared e := by
  induction es with
  | nil => exact ⟨fun _ e he => absurd he (by simp), fun _ => trivial⟩
  | cons e es ih =>
      show Typable db named declared e ∧ TypableAll db named declared es ↔ _
      rw [ih, List.forall_mem_cons]

/-- The operands, one after the other. -/
theorem getAll_exact {es : List Expr} (hes : ∀ e ∈ es, Exact db named declared e) {ts : List Ty}
    (h : HaveTypes db named declared es ts) :
    (TypableAll db named declared es → getAll db declared es = .ok ts) ∧
      (¬ TypableAll db named declared es → ∃ f, getAll db declared es = .error f) := by
  induction es generalizing ts with
  | nil =>
      cases h
      exact ⟨fun _ => by rw [getAll], fun hno => absurd trivial hno⟩
  | cons e es ih =>
      cases h with
      | cons he htypes =>
          rename_i t us
          have hexact := hes e List.mem_cons_self _ he
          have hrest := ih (fun d hd => hes d (List.mem_cons_of_mem e hd)) htypes
          rw [getAll]
          constructor
          · intro hall
            rw [hexact.1 hall.1, hrest.1 hall.2]
            rfl
          · intro hno
            by_cases hhead : Typable db named declared e
            · obtain ⟨f, hf⟩ := hrest.2 fun htail => hno ⟨hhead, htail⟩
              rw [hexact.1 hhead, hf]
              exact ⟨f, rfl⟩
            · obtain ⟨f, hf⟩ := hexact.2 hhead
              rw [hf]
              exact ⟨f, rfl⟩

/-- An operator is exact where its operands are. -/
theorem exact_operator {op : OperatorNode} {es : List Expr}
    (hes : ∀ e ∈ es, Exact db named declared e) : Exact db named declared (.operator op es) := by
  intro t ht
  cases ht with
  | operator htypes hop =>
      rename_i ts
      have hall := getAll_exact hes htypes
      have hget : get db declared (.operator op es)
          = (getAll db declared es >>= getRegularOperator db op) := by rw [get]
      by_cases htypable : TypableAll db named declared es
      · -- the types found are those that the operands have
        have hfound : ∀ o ∈ es, ∀ u, HasType db named declared o u → u ∈ ts := by
          intro o ho u hu
          obtain ⟨v, hv, hov⟩ := htypes.exists_of_expr ho
          have htyp := typableAll_iff.mp htypable o ho
          have huv := ((hes o ho u hu).1 htyp).symm.trans ((hes o ho v hov).1 htyp)
          injection huv with huv
          rw [huv]
          exact hv
        -- a conversion is needed for the types exactly if for the operands
        have hconv : OperandsNeedConversion db named declared es
            ↔ NeedConversion (ts.map Ty.lower) := by
          constructor
          · rintro ⟨⟨o, ho, u, hu, hodd⟩, hpointer⟩
            refine ⟨⟨u.lower, List.mem_map_of_mem (hfound o ho u hu), hodd⟩, ?_⟩
            intro _ hmem
            obtain ⟨v, hv, rfl⟩ := List.mem_map.mp hmem
            obtain ⟨o', ho', hov⟩ := htypes.exists_of_type hv
            exact hpointer o' ho' v hov
          · rintro ⟨⟨_, hu, hodd⟩, hpointer⟩
            obtain ⟨v, hv, rfl⟩ := List.mem_map.mp hu
            obtain ⟨o, ho, hov⟩ := htypes.exists_of_type hv
            exact ⟨⟨o, ho, v, hov, hodd⟩, fun o' ho' u hu =>
              hpointer _ (List.mem_map_of_mem (hfound o' ho' u hu))⟩
        rw [hget, hall.1 htypable]
        show (_ → getLowered db op (ts.map Ty.lower) = _) ∧
          (_ → ∃ f, getLowered db op (ts.map Ty.lower) = _)
        -- typable: no conversion is needed; not typable, but the operands: one is
        constructor
        · intro hclean
          refine getLowered_ok hop fun hbad => ?_
          rw [Typable] at hclean
          exact hclean.2 ⟨hbad.1, hconv.mpr hbad.2⟩
        · intro hno
          rw [Typable, not_and, not_not] at hno
          obtain ⟨hstd, hf⟩ := hno htypable
          exact getLowered_error hop hstd (hconv.mp hf)
      · -- an operand is not typable, and fails before the operator is looked at
        constructor
        · intro hclean
          rw [Typable] at hclean
          exact absurd hclean.1 htypable
        · intro _
          obtain ⟨f, hf⟩ := hall.2 htypable
          rw [hget, hf]
          exact ⟨f, rfl⟩

/-- What has its type whatever it holds. -/
theorem exact_of_ok {e : Expr} (htypable : Typable db named declared e)
    (hget : ∀ t, HasType db named declared e t → get db declared e = .ok t) :
    Exact db named declared e :=
  fun t ht => ⟨fun _ => hget t ht, fun hno => absurd htypable hno⟩

/-- What has its type never. -/
theorem exact_of_error {e : Expr} (htypable : ¬ Typable db named declared e) {f : Failure}
    (hget : get db declared e = .error f) : Exact db named declared e :=
  fun _ _ => ⟨fun h => absurd h htypable, fun _ => ⟨f, hget⟩⟩

theorem getDeclared_of_some {id : Nat} {t : Ty} (h : declared id = some t) :
    getDeclared declared id = .ok t := by
  unfold getDeclared
  rw [h]

theorem exact_literal (l : Literal) : Exact db named declared (.literal l) := by
  refine exact_of_ok (by simp [Typable]) fun t ht => ?_
  rw [get]
  cases ht with
  | signedLiteral => rfl
  | unsignedLiteral => rfl
  | floatLiteral => rfl
  | boolLiteral => rfl
  | signedString h =>
      unfold getLiteral
      rw [h]
      rfl
  | unsignedString h =>
      unfold getLiteral
      rw [h]
      rfl

theorem exact_goSub {callee : Expr} (h : Exact db named declared callee) :
    Exact db named declared (.goSub callee) := by
  intro t ht
  have hget : get db declared (.goSub callee) = (get db declared callee >>= getCall) := by
    rw [get]
  have hfails : ¬ Typable db named declared callee → (∃ u, HasType db named declared callee u) →
      ∃ f, get db declared (.goSub callee) = .error f := by
    rintro hno ⟨u, hu⟩
    obtain ⟨f, hf⟩ := (h u hu).2 hno
    rw [hget, hf]
    exact ⟨f, rfl⟩
  rw [Typable]
  cases ht with
  | goSub hcallee =>
      refine ⟨fun hok => ?_, fun hno => hfails hno ⟨_, hcallee⟩⟩
      rw [hget, (h _ hcallee).1 hok]
      rfl
  | goSubVoid hcallee =>
      refine ⟨fun hok => ?_, fun hno => hfails hno ⟨_, hcallee⟩⟩
      rw [hget, (h _ hcallee).1 hok]
      rfl

/-- **Every expression**, by induction on it. -/
theorem exact_expr (e : Expr) : Exact db named declared e := by
  -- one case for each class of expression
  apply Expr.rec (motive_1 := fun e => Exact db named declared e)
    (motive_2 := fun es => ∀ e ∈ es, Exact db named declared e)
  case identifier =>
    intro id
    refine exact_of_ok (by simp [Typable]) fun t ht => ?_
    cases ht with
    | identifier h =>
        rw [get]
        exact getDeclared_of_some h
  case operator =>
    intro op operands ih
    exact exact_operator ih
  case literal => exact exact_literal
  case goSub =>
    intro callee ih
    exact exact_goSub ih
  case lookup =>
    intro object member _
    refine exact_of_ok (by simp [Typable]) fun t ht => ?_
    cases ht with
    | lookup h =>
        rw [get]
        exact getDeclared_of_some h
  -- the types of these are read off, whatever is below
  case cast =>
    intro operand type _
    refine exact_of_ok (by simp [Typable]) fun t ht => ?_
    cases ht
    rw [get]
  case label =>
    refine exact_of_ok (by simp [Typable]) fun t ht => ?_
    cases ht
    rw [get]
  case sizeOf =>
    intro argument
    refine exact_of_ok (by simp [Typable]) fun t ht => ?_
    cases ht
    rw [get]
  case alignOf =>
    intro argument
    refine exact_of_ok (by simp [Typable]) fun t ht => ?_
    cases ht
    rw [get]
  case new =>
    intro type
    refine exact_of_ok (by simp [Typable]) fun t ht => ?_
    cases ht
    rw [get]
  case delete =>
    intro pointer _
    refine exact_of_ok (by simp [Typable]) fun t ht => ?_
    cases ht
    rw [get]
  case statements =>
    intro last ih t ht
    cases ht with
    | statements h =>
        rw [get, Typable]
        exact ih t h
  case voidStatements =>
    refine exact_of_ok (by simp [Typable]) fun t ht => ?_
    cases ht
    rw [get]
  -- and these fail, as the code has no case for them
  case conditional =>
    intro condition exprThen exprElse _ _ _
    exact exact_of_error (by simp [Typable]) (by rw [get])
  case subscript =>
    intro destination index _ _
    exact exact_of_error (by simp [Typable]) (by rw [get])
  case this => exact exact_of_error (by simp [Typable]) (by rw [get])
  case nil => exact fun e he => absurd he (by simp)
  case cons =>
    intro e es he hes d hd
    rcases List.mem_cons.mp hd with heq | hd
    · rw [heq]
      exact he
    · exact hes d hd

end

/-! ## §5. Some expressions. -/

theorem charBits_pos : 0 < 8 := by decide

theorem charBits_le : 8 ≤ 16 := by decide

theorem shortBits_le : 16 ≤ 32 := by decide

theorem intBits_le : 32 ≤ 64 := by decide

theorem longBits_le : 64 ≤ 64 := by decide

/-- An LP64 compiler, whose `char` is signed. -/
def lp64 : TypeDb where
  charBits := 8
  shortBits := 16
  intBits := 32
  longBits := 64
  longLongBits := 64
  char_pos := charBits_pos
  char_le := charBits_le
  short_le := shortBits_le
  int_le := intBits_le
  long_le := longBits_le
  longLong_le := longBits_le
  sizeTBits := 64
  charDefaultSigned := true

def noName : Nat → Option Ty := fun _ => none

def one : Expr := .literal (.integer 32 true)

/-- `1 + 1u`. -/
def unsignedSum : Initialiser :=
  .expression (.operator .Add [one, .literal (.integer 32 false)])

theorem unsignedSum_hasType :
    InitialiserType lp64 noName noName unsignedSum (.unsigned (some 32)) := by
  refine .expression (.operator (.cons .signedLiteral (.cons .unsignedLiteral .nil))
    (.standard rfl (.unsigned 32 ?_ ?_ ?_)))
  · intro t ht
    simp only [List.map_cons, List.map_nil, List.mem_cons, List.not_mem_nil, or_false] at ht
    rcases ht with rfl | rfl
    · exact ⟨32, Or.inl rfl⟩
    · exact ⟨32, Or.inr rfl⟩
  · constructor
    · decide
    · intro w hw
      simp [Ty.lower, Ty.dereferenced, Ty.promoted] at hw
      omega
    · intro w hw
      simp [Ty.lower, Ty.dereferenced, Ty.promoted] at hw
      omega
    · exact Or.inl rfl
  · refine ⟨32, by simp [Ty.lower, Ty.dereferenced, Ty.promoted], by decide, fun w hw => ?_⟩
    simp [Ty.lower, Ty.dereferenced, Ty.promoted] at hw
    omega

/-- `-1.0`. -/
def minusFloat : Initialiser :=
  .expression (.operator .Minus [.literal (.float .IEEEdouble)])

/-- `(1 < 2) + 1`. -/
def comparisonSum : Initialiser :=
  .expression (.operator .Add [.operator .Less [one, one], one])

theorem minusFloat_hasType :
    InitialiserType lp64 noName noName minusFloat (.floating (some .IEEEdouble)) := by
  refine .expression (.operator (.cons .floatLiteral .nil) (.standard rfl
    (.floating _ ?_ List.mem_cons_self ?_)))
  · intro t ht
    exact Or.inr ⟨.IEEEdouble, List.mem_singleton.mp ht⟩
  · intro s hs
    cases List.mem_singleton.mp hs
    exact le_refl _

theorem comparisonSum_hasType :
    InitialiserType lp64 noName noName comparisonSum (.signed (some 32)) := by
  have hless : HasType lp64 noName noName (.operator .Less [one, one]) .boolean :=
    .operator (.cons .signedLiteral (.cons .signedLiteral .nil)) (.truth (.inr rfl))
  have hmem : ∀ t ∈ [Ty.boolean, .signed (some 32)].map (Ty.promoted lp64 noName),
      t = .signed (some 32) := by
    simp [Ty.promoted, lp64]
  refine .expression (.operator (.cons hless (.cons .signedLiteral .nil))
    (.standard rfl (.signed 32 (List.cons_ne_nil _ _) ?_ ?_ ?_)))
  · intro t ht
    exact ⟨32, Or.inl (hmem t ht)⟩
  · constructor
    · decide
    · intro w hw
      cases hmem _ hw
      decide
    · intro w hw
      cases hmem _ hw
    · exact Or.inl rfl
  · rintro ⟨w, hw, _⟩
    cases hmem _ hw

end Inferno.Tree
