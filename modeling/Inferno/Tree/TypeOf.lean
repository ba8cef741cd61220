/-
  Inferno.Tree.TypeOf
  ───────────────────
  `TypeOf`: the type of an expression.

    • `Ty`, `Expr`            — the types and expressions it tells apart,
    • `OperatorNode`          — `operator_data.inc`, with the categories,
    • `getStandardOnNumerics` — the loop over the operands' types,
    • `getRegularOperator`, `get`, `tryApplyTransformation`.
-/
import Inferno.Helpers.SimpleCompare
import Inferno.Lang.Literals
import Mathlib

namespace Inferno.Tree

open Inferno.Helpers

/-! ## §1. Types and expressions. -/

/-- `TypeDb`, with what `TypeOf` reads besides the widths. -/
structure TypeDb extends Lang.TypeDb where
  sizeTBits : Nat
  charDefaultSigned : Bool

/-- `Const` and `NonConst`. -/
inductive Constancy where
  | const
  | nonConst
deriving DecidableEq

/-- The types.  A width, semantics or size that is not specific is `none`; `integral` and
`numeric` are the intermediates that are neither `Signed` nor `Unsigned`. -/
inductive Ty where
  | void
  | boolean
  | labeley
  | signed (width : Option Int)
  | unsigned (width : Option Int)
  | integral (width : Option Int)
  | floating (semantics : Option FltSemantics)
  | numeric
  | pointer (destination : Ty) (constancy : Constancy)
  | reference (destination : Ty) (constancy : Constancy)
  | array (element : Ty) (size : Option Int)
  | function (returnType : Ty)
  | callable (serial : Nat)
  | other (serial : Nat)
deriving DecidableEq

/-- The nodes of `operator_data.inc`. -/
inductive OperatorNode where
  | AddressOf | BitwiseAnd | LogicalAnd | AssignmentBitwiseAnd | Multiply | Dereference
  | AssignmentMultiply | Add | PreIncrement | PostIncrement | AssignmentAdd | Minus | Subtract
  | PreDecrement | PostDecrement | AssignmentSubtract | BitwiseNot | LogicalNot | NotEqual
  | Divide | AssignmentDivide | Modulo | AssignmentModulo | Less | ShiftLeft | LessOrEqual
  | AssignmentShiftLeft | Greater | ShiftRight | GreaterOrEqual | AssignmentShiftRight | Eor
  | AssignmentEor | BitwiseOr | LogicalOr | AssignmentBitwiseOr | Assign | Equal | Comma
deriving DecidableEq

/-- The column `CAT`. -/
inductive Category where
  | ARITHMETIC
  | BITWISE
  | LOGICAL
  | COMPARISON
  | SHIFT
  | SPECIAL
deriving DecidableEq

namespace OperatorNode

/-- The category of an operator. -/
def category : OperatorNode → Category
  | AddressOf | Dereference | Assign | Comma => .SPECIAL
  | BitwiseAnd | AssignmentBitwiseAnd | BitwiseNot | Eor | AssignmentEor | BitwiseOr
  | AssignmentBitwiseOr => .BITWISE
  | LogicalAnd | LogicalNot | LogicalOr => .LOGICAL
  | NotEqual | Less | LessOrEqual | Greater | GreaterOrEqual | Equal => .COMPARISON
  | ShiftLeft | AssignmentShiftLeft | ShiftRight | AssignmentShiftRight => .SHIFT
  | Multiply | AssignmentMultiply | Add | PreIncrement | PostIncrement | AssignmentAdd | Minus
  | Subtract | PreDecrement | PostDecrement | AssignmentSubtract | Divide | AssignmentDivide
  | Modulo | AssignmentModulo => .ARITHMETIC

/-- The operators with base `AssignmentOperator`. -/
def isAssignment : OperatorNode → Bool
  | AssignmentBitwiseAnd | AssignmentMultiply | PreIncrement | PostIncrement | AssignmentAdd
  | PreDecrement | PostDecrement | AssignmentSubtract | AssignmentDivide | AssignmentModulo
  | AssignmentShiftLeft | AssignmentShiftRight | AssignmentEor | AssignmentBitwiseOr
  | Assign => true
  | _ => false

/-- The arithmetic and bitwise operators that do not assign. -/
def isStandard (op : OperatorNode) : Bool :=
  !op.isAssignment && (op.category = .ARITHMETIC || op.category = .BITWISE)

end OperatorNode

/-- The literals. -/
inductive Literal where
  | integer (width : Nat) (isSigned : Bool)
  | float (semantics : FltSemantics)
  | bool
  | string
  | other

/-- The expressions.  An identifier is one of an instance, a constructor or a destructor; of
a `StatementExpression` the last statement counts, and `voidStatements` has none that is an
expression. -/
inductive Expr where
  | identifier (id : Nat)
  | operator (op : OperatorNode) (operands : List Expr)
  | literal (l : Literal)
  | goSub (callee : Expr)
  | lookup (object : Expr) (member : Nat)
  | cast (operand : Expr) (type : Ty)
  | label
  | sizeOf (argument : Ty)
  | alignOf (argument : Ty)
  | new (type : Ty)
  | delete (pointer : Expr)
  | statements (last : Expr)
  | voidStatements
  | conditional (condition exprThen exprElse : Expr)
  | subscript (destination index : Expr)
  | this

/-- The nodes that a type is asked of: an `ArrayInitialiser` is an `Initialiser`, and not an
`Expression`. -/
inductive Initialiser where
  | expression (e : Expr)
  | arrayInitialiser (elements : List Expr)

/-! ## §2. The operators. -/

/-- What is thrown, a failed assertion, or undefined behaviour: `*` of a NULL `AugTreePtr`,
and `front()` or `back()` of an empty list. -/
inductive Failure where
  | unsupportedExpressionMismatch
  | unsupportedSpecialMismatch
  | unsupportedLiteralMismatch
  | numericalOperatorUsageMismatch1
  | numericalOperatorUsageMismatch2
  | numericalOperatorUsageMismatch3
  | numericalOperatorUsageMismatch4
  | dereferenceUsageMismatch
  | declarationNotFound
  | assertion
  | undefined
deriving DecidableEq

/-- `front()`. -/
def front : List Ty → Except Failure Ty
  | [] => .error .undefined
  | t :: _ => .ok t

/-- `back()`. -/
def back (ts : List Ty) : Except Failure Ty :=
  match ts.getLast? with
  | none => .error .undefined
  | some t => .ok t

namespace Ty

def isPointer : Ty → Bool
  | pointer _ _ => true
  | _ => false

def isNumeric : Ty → Bool
  | signed _ | unsigned _ | integral _ | floating _ | numeric => true
  | _ => false

/-- `while( r = Reference )`. -/
def dereferenced : Ty → Ty
  | reference destination _ => dereferenced destination
  | t => t

/-- "Lower types that masquerade as other types". -/
def lower (t : Ty) : Ty :=
  match t.dereferenced with
  | array element _ => pointer element .nonConst
  | t => t

end Ty

/-- The variables of the loop. -/
structure MaxWidths where
  maxwidthSigned : Int
  maxwidthUnsigned : Int
  maxwidthFloat : Option FltSemantics

/-- The first half of the loop's body: "floats take priority". -/
def maxFloat (st : MaxWidths) : Ty → Except Failure MaxWidths
  | .floating none => .error .assertion
  | .floating (some sfs) =>
      -- `semanticsPrecision( *maxwidth_float )` comes before the test whether there is one
      match st.maxwidthFloat with
      | none => .error .undefined
      | some m =>
          .ok (if sfs.precision > m.precision then { st with maxwidthFloat := some sfs } else st)
  | _ => .ok st

/-- The second half: "should only have Integrals from here on". -/
def maxIntegral (st : MaxWidths) : Ty → Except Failure MaxWidths
  | .signed none | .unsigned none | .integral none => .error .numericalOperatorUsageMismatch3
  | .signed (some width) => .ok { st with maxwidthSigned := max width st.maxwidthSigned }
  | .unsigned (some width) => .ok { st with maxwidthUnsigned := max width st.maxwidthUnsigned }
  | .integral (some _) => .error .numericalOperatorUsageMismatch4
  | _ => .error .numericalOperatorUsageMismatch2

/-- One turn. -/
def maxWidth (st : MaxWidths) (optype : Ty) : Except Failure MaxWidths := do
  let st ← maxFloat st optype
  maxIntegral st optype

section

variable (db : TypeDb)

/-- After the loop. -/
def resultType (st : MaxWidths) : Ty :=
  match st.maxwidthFloat with
  | some s => .floating (some s)
  | none =>
      if st.maxwidthUnsigned ≠ 0 ∧ st.maxwidthUnsigned ≥ st.maxwidthSigned then
        .unsigned (some st.maxwidthUnsigned)
      else .signed (some st.maxwidthSigned)

/-- `GetStandardOnNumerics`. -/
def getStandardOnNumerics (optypes : List Ty) : Except Failure Ty := do
  let st ← optypes.foldlM maxWidth ⟨db.intBits, 0, none⟩
  .ok (resultType st)

/-- `GetStandard`. -/
def getStandard (optypes : List Ty) : Except Failure Ty :=
  if optypes.all Ty.isNumeric then getStandardOnNumerics db optypes
  else .error .numericalOperatorUsageMismatch1

/-- `GetSpecial`. -/
def getSpecial (op : OperatorNode) (optypes : List Ty) : Except Failure Ty :=
  match op with
  | .Dereference => do
      match ← front optypes with
      | .pointer destination _ => .ok destination
      | .array element _ => .ok element
      | _ => .error .dereferenceUsageMismatch
  | .AddressOf => do
      let t ← front optypes
      .ok (.pointer t .nonConst)
  | .Comma => back optypes
  | _ => .error .unsupportedSpecialMismatch

/-- A `Subtract` of two pointers. -/
def isPointerDifference (op : OperatorNode) (optypes : List Ty) : Except Failure Bool :=
  match op with
  | .Subtract => do
      let l ← front optypes
      if l.isPointer then do
        let r ← back optypes
        .ok r.isPointer
      else .ok false
  | _ => .ok false

/-- The categories, as `TypeOf` defines their macros. -/
def getCategory (op : OperatorNode) (optypes : List Ty) : Except Failure Ty :=
  match op.category with
  | .ARITHMETIC => getStandard db optypes
  | .BITWISE => getStandard db optypes
  | .LOGICAL => .ok .boolean
  | .COMPARISON => .ok .boolean
  | .SHIFT => front optypes
  | .SPECIAL => getSpecial op optypes

/-- `GetRegularOperator`, of types that have been lowered. -/
def getLowered (op : OperatorNode) (optypes : List Ty) : Except Failure Ty := do
  if op.isAssignment then front optypes
  else if ← isPointerDifference op optypes then .ok (.signed (some db.intBits))
  else if op = .Add ∨ op = .Subtract then
    match optypes.find? Ty.isPointer with
    | some p => .ok p
    | none => getCategory db op optypes
  else getCategory db op optypes

/-- `GetRegularOperator`. -/
def getRegularOperator (op : OperatorNode) (optypes : List Ty) : Except Failure Ty :=
  getLowered db op (optypes.map Ty.lower)

/-- `GetLiteral`. -/
def getLiteral : Literal → Except Failure Ty
  | .integer width isSigned =>
      .ok (if isSigned then .signed (some width) else .unsigned (some width))
  | .float semantics => .ok (.floating (some semantics))
  | .bool => .ok .boolean
  | .string =>
      .ok (.pointer (if db.charDefaultSigned then .signed (some db.charBits)
        else .unsigned (some db.charBits)) .const)
  | .other => .error .unsupportedLiteralMismatch

/-! ## §3. Expressions. -/

/-- The type that a declaration gives an identifier; `none` where there is no such
declaration. -/
def getDeclared (declared : Nat → Option Ty) (id : Nat) : Except Failure Ty :=
  match declared id with
  | none => .error .declarationNotFound
  | some t => .ok t

/-- The type of what a call returns. -/
def getCall : Ty → Except Failure Ty
  | .function returnType => .ok returnType
  | .callable _ => .ok .void
  | _ => .error .assertion

variable (declared : Nat → Option Ty)

mutual

/-- `Get`.  The branches for `ConditionalOperator`, `Subscript`, `ArrayInitialiser` and
`This` cast `op`, which is still the `CommutativeOperator` that was not found: they are
never taken. -/
def get : Expr → Except Failure Ty
  | .identifier id => getDeclared declared id
  | .operator op operands => do
      let optypes ← getAll operands
      getRegularOperator db op optypes
  | .literal l => getLiteral db l
  | .goSub callee => do
      let t ← get callee
      getCall t
  | .lookup _ member => getDeclared declared member
  | .cast _ type => .ok type
  | .label => .ok .labeley
  | .sizeOf _ => .ok (.unsigned (some db.sizeTBits))
  | .alignOf _ => .ok (.unsigned (some db.sizeTBits))
  | .new type => .ok (.pointer type .nonConst)
  | .delete _ => .ok .void
  | .statements last => get last
  | .voidStatements => .ok .void
  | .conditional _ _ _ => .error .unsupportedExpressionMismatch
  | .subscript _ _ => .error .unsupportedExpressionMismatch
  | .this => .error .unsupportedExpressionMismatch

/-- The types of all the operands. -/
def getAll : List Expr → Except Failure (List Ty)
  | [] => .ok []
  | e :: es => do
      let t ← get e
      let ts ← getAll es
      .ok (t :: ts)

end

/-- `TryApplyTransformation`: NULL for what is no expression. -/
def tryApplyTransformation : Initialiser → Except Failure (Option Ty)
  | .expression e => do
      let t ← get db declared e
      .ok (some t)
  | .arrayInitialiser _ => .ok none

end

end Inferno.Tree
