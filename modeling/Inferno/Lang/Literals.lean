/-
  Inferno.Lang.Literals
  ─────────────────────
  Integer and string literals: the text they are rendered as, the lexemes of
  `vn_lang.lpp` that it is read with, and the actions that make literals again.

    • `TypeDb`                — the widths of the integral types,
    • `SpecificInteger`       — width, signedness and bits,
    • `getRenderTerminal`     — of an integer and of a string,
    • `lexemes`, `lex`        — the scanner's rules, and a whole text by them,
    • `onIntegralLiteral`, `createIntegralLiteral`, `onStringLiteral` — the actions.
-/
import Inferno.Lang.UniquifyIdentifiers
import Inferno.Lib.LongestMatch
import Mathlib.Data.List.Infix

namespace Inferno.Lang

open Inferno.Lib

/-! ## §1. The literals. -/

/-- `TypeDb`: the widths of the integral types, as the compiler has them. -/
structure TypeDb where
  charBits : Nat
  shortBits : Nat
  intBits : Nat
  longBits : Nat
  longLongBits : Nat
  char_pos : 0 < charBits
  char_le : charBits ≤ shortBits
  short_le : shortBits ≤ intBits
  int_le : intBits ≤ longBits
  long_le : longBits ≤ longLongBits
  longLong_le : longLongBits ≤ 64

/-- `char_bits` and `integral_bits`. -/
def TypeDb.widths (db : TypeDb) : List Nat :=
  [db.charBits, db.shortBits, db.intBits, db.longBits, db.longLongBits]

/-- `SpecificInteger`: an `APSInt` of one of these widths. -/
structure SpecificInteger (db : TypeDb) where
  width : Nat
  isUnsigned : Bool
  bits : BitVec width
  width_mem : width ∈ db.widths

/-- The number it stands for. -/
def SpecificInteger.value {db : TypeDb} (i : SpecificInteger db) : Int :=
  if i.isUnsigned then i.bits.toNat else i.bits.toInt

/-- `toString(10)`. -/
def decimal : Int → Name
  | .ofNat n => Nat.toDigits 10 n
  | .negSucc n => '-' :: Nat.toDigits 10 (n + 1)

/-- `SpecificInteger::GetRenderTerminal`. -/
def SpecificInteger.getRenderTerminal {db : TypeDb} (i : SpecificInteger db) : Name :=
  decimal i.value ++ (if i.isUnsigned then ['U'] else [])
    ++ (if i.width > db.intBits then ['L'] else [])
    ++ (if i.width > db.longBits then ['L'] else [])

/-- `value[i] < ' '`, for a `char` that is signed. -/
def belowSpace (c : Char) : Bool := c.toNat < 32 ∨ 128 ≤ c.toNat

/-- The loop of `SpecificString::GetRenderTerminal`.  The call `SSPrintf( c, "\\x%02x",
value[i] )` takes the uninitialised buffer `c` for the format; `uninitialised` is what it
makes of it at each place. -/
def renderCharacters (uninitialised : Nat → Name) : Nat → Name → Name
  | _, [] => []
  | i, c :: value =>
      (if belowSpace c then uninitialised i else [c])
        ++ renderCharacters uninitialised (i + 1) value

/-- `SpecificString::GetRenderTerminal`. -/
def renderString (uninitialised : Nat → Name) (value : Name) : Name :=
  '"' :: renderCharacters uninitialised 0 value ++ ['"']

/-! ## §2. The lexemes. -/

/-- What a rule of the scanner does: skip, or make a token.  The tokens with a text of one
character are `symbol`. -/
inductive LexKind
  | lineComment | blockComment | space
  | symbol
  | equalityOp | relationalOp | compoundAssign | logicalOrOp | logicalAndOp | shiftOp
  | prefixOp | preOrPostfixOp | assign | addSubOp | divModOp | bitwiseOrOp | bitwiseXorOp
  | resolutionOp | rangeOp
  | stringLiteral | integralLiteral | unquotedLexeme
deriving DecidableEq

/-- The classes `UnicodeIdentifierStart` and `UnicodeIdentifierPart`; of the ASCII
characters only the letters start an identifier. -/
structure UnicodeTables where
  identifierStart : Char → Bool
  identifierPart : Char → Bool
  ascii_start : ∀ c, c.toNat < 128 → identifierStart c = c.isAlpha

/-- `\"[^"]*\"`. -/
def stringLength : List Char → Nat
  | [] => 0
  | c :: text =>
      if c = '"' ∧ '"' ∈ text then (text.takeWhile (· ≠ '"')).length + 2 else 0

/-- A suffix character of an integer. -/
def isSuffix (c : Char) : Bool := c ∈ ['l', 'L', 'u', 'U']

/-- `\d*[lLuU]*`. -/
def integralLength (text : List Char) : Nat :=
  (text.takeWhile Char.isDigit).length
    + ((text.dropWhile Char.isDigit).takeWhile isSuffix).length

/-- A name: one character that starts it, and those that go on. -/
def nameLength (start part : Char → Bool) : List Char → Nat
  | [] => 0
  | c :: text => if start c then (text.takeWhile part).length + 1 else 0

/-- The symbols of `vn_lang.lpp` that are not ASCII. -/
def vnSymbols : List Char :=
  ['꩜', '‡', '⪮', '⨟', '〔', '〕', '⦂', '⦅', '⦆', '⚬', '🞄', '⩨', '▲', '⯈', '⯇', '⯁', '☆', '★',
    '⊛', '⧇', '⤨', '¬', '∧', '∨', '⫴', '⮎', '🄽', '§', '‽', '⨤', '⍑', '∞']

/-- The rules before those for the literals, in order. -/
def operatorLexemes : List (Lexeme Char LexKind) :=
  [⟨.lineComment, oneOf [['/', '/']]⟩,
    ⟨.blockComment, oneOf [['/', '*']]⟩,
    ⟨.space, inClass isSpace⟩,
    ⟨.symbol, inClass (· ∈ vnSymbols)⟩,
    ⟨.equalityOp, oneOf [['=', '='], ['!', '=']]⟩,
    ⟨.relationalOp, oneOf [['<'], ['<', '='], ['>'], ['>', '=']]⟩,
    ⟨.compoundAssign, oneOf [['|', '='], ['^', '='], ['&', '='], ['<', '<', '='],
      ['>', '>', '='], ['+', '='], ['-', '='], ['*', '='], ['/', '='], ['%', '=']]⟩,
    ⟨.logicalOrOp, oneOf [['|', '|']]⟩,
    ⟨.logicalAndOp, oneOf [['&', '&']]⟩,
    ⟨.shiftOp, oneOf [['<', '<'], ['>', '>']]⟩,
    ⟨.prefixOp, oneOf [['!'], ['~']]⟩,
    ⟨.preOrPostfixOp, oneOf [['+', '+'], ['-', '-']]⟩,
    ⟨.assign, oneOf [['=']]⟩,
    ⟨.addSubOp, oneOf [['-'], ['+']]⟩,
    ⟨.divModOp, oneOf [['/'], ['%']]⟩,
    ⟨.bitwiseOrOp, oneOf [['|']]⟩,
    ⟨.bitwiseXorOp, oneOf [['^']]⟩,
    ⟨.resolutionOp, oneOf [[':', ':']]⟩,
    ⟨.rangeOp, oneOf [['.', '.']]⟩,
    ⟨.symbol, inClass (· ∈ ['(', ')', '\x7b', '\x7d', ';', '?', ':', '[', ']', '.', ',', '&',
      '*'])⟩]

/-- All rules. -/
def lexemes (u : UnicodeTables) : List (Lexeme Char LexKind) :=
  operatorLexemes ++
    [⟨.stringLiteral, stringLength⟩,
      ⟨.integralLiteral, integralLength⟩,
      ⟨.unquotedLexeme, nameLength (fun c => c.isAlpha || c = '_')
        (fun c => c.isAlphanum || c = '_')⟩,
      ⟨.unquotedLexeme, nameLength u.identifierStart u.identifierPart⟩]

/-- `matcher().skip(..)`: go on past the next occurrence. -/
def skipPast (delimiter : List Char) : List Char → List Char
  | [] => []
  | c :: text =>
      if delimiter.isPrefixOf (c :: text) then (c :: text).drop delimiter.length
      else skipPast delimiter text

/-- Where a rule that makes no token goes on. -/
def LexKind.skip : LexKind → Option (List Char → List Char)
  | .lineComment => some (skipPast ['\n'])
  | .blockComment => some (skipPast ['*', '/'])
  | .space => some id
  | _ => none

/-- The tokens of a text; `none` where the default rule throws.  Every rule takes a
character, so the length is fuel enough. -/
def lexAll (u : UnicodeTables) : Nat → List Char → Option (List (LexKind × Name))
  | _, [] => some []
  | 0, _ => none
  | fuel + 1, text =>
      match longest text (lexemes u) with
      | none => none
      | some (kind, n) =>
          match kind.skip with
          | some goOn => lexAll u fuel (goOn (text.drop n))
          | none => (lexAll u fuel (text.drop n)).map ((kind, text.take n) :: ·)

/-- One turn of the scanner, where the rule makes a token. -/
theorem lexAll_token (u : UnicodeTables) (fuel : Nat) {text : List Char} {kind : LexKind}
    {n : Nat} (htext : text ≠ []) (hlongest : longest text (lexemes u) = some (kind, n))
    (hkind : kind.skip = none) :
    lexAll u (fuel + 1) text
      = (lexAll u fuel (text.drop n)).map ((kind, text.take n) :: ·) := by
  cases text with
  | nil => exact absurd rfl htext
  | cons c text =>
      show (match longest (c :: text) (lexemes u) with
        | none => none
        | some (kind, n) =>
            match kind.skip with
            | some goOn => lexAll u fuel (goOn ((c :: text).drop n))
            | none => (lexAll u fuel ((c :: text).drop n)).map
                ((kind, (c :: text).take n) :: ·)) = _
      rw [hlongest]
      show (match kind.skip with
        | some goOn => lexAll u fuel (goOn ((c :: text).drop n))
        | none => (lexAll u fuel ((c :: text).drop n)).map
            ((kind, (c :: text).take n) :: ·)) = _
      rw [hkind]

/-- The tokens of a text. -/
def lex (u : UnicodeTables) (text : List Char) : Option (List (LexKind × Name)) :=
  lexAll u text.length text

/-! ## §3. The actions. -/

/-- `stoull`: the digits at the front; `none` where it throws. -/
def stoull (text : Name) : Option Nat :=
  let digits := text.takeWhile Char.isDigit
  if digits = [] then none
  else
    let val := Nat.ofDigitChars 10 digits 0
    if val < 2 ^ 64 then some val else none

/-- The width that `CreateIntegralLiteral` takes. -/
def literalBits (db : TypeDb) (lng lng2 : Bool) : {w // w ∈ db.widths} :=
  if lng then ⟨db.longBits, by simp [TypeDb.widths]⟩
  else if lng2 then ⟨db.longLongBits, by simp [TypeDb.widths]⟩
  else ⟨db.intBits, by simp [TypeDb.widths]⟩

/-- `CreateIntegralLiteral`; `none` where the value does not fit. -/
def createIntegralLiteral (db : TypeDb) (uns lng lng2 : Bool) (val : Nat) :
    Option (SpecificInteger db) :=
  let w := literalBits db lng lng2
  let rv := BitVec.ofNat w.val val
  if rv.toNat ≠ val then none else some ⟨w.val, uns, rv, w.property⟩

/-- `OnIntegralLiteral`.  It passes `lng2` where `CreateIntegralLiteral` has `lng`, and
`lng` where that has `lng2`. -/
def onIntegralLiteral (db : TypeDb) (text : Name) : Option (SpecificInteger db) := do
  let text := text.map Char.toUpper
  let uns := decide ('U' ∈ text)
  let lng2 := decide (['L', 'L'] <:+: text)
  let lng := decide ('L' ∈ text) && !lng2
  let val ← stoull text
  createIntegralLiteral db uns lng2 lng val

/-- `OnStringLiteral`: `Unquote`. -/
def onStringLiteral (wvalue : Name) : Option Name :=
  if wvalue.head? = some '"' ∧ wvalue.getLast? = some '"' then
    some ((wvalue.drop 1).take (wvalue.length - 2))
  else none

end Inferno.Lang
