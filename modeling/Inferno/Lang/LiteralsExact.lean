/-
  Inferno.Lang.LiteralsExact
  ──────────────────────────
  Which literals come back from their text.

    • `lex_integral`, `lex_minus`, `lex_string` — what the scanner makes of a text,
    • `onIntegralLiteral_suffix` — what the action makes of digits and a suffix,
    • `RoundTrips`    — the text is read as one literal (or a minus and a literal), and
                        the literal is the one rendered,
    • `Faithful`      — the literals that are rendered and read faithfully,
    • `roundTrips_iff`, and three that are not.
-/
import Inferno.Lang.Literals
import Mathlib

namespace Inferno.Lang

open Inferno.Lib

/-! ## §1. The scanner. -/

theorem digit_cases {c : Char} (h : c.isDigit = true) :
    c ∈ ['0', '1', '2', '3', '4', '5', '6', '7', '8', '9'] := by
  have hn : 48 ≤ c.toNat ∧ c.toNat ≤ 57 := by
    simpa [Char.isDigit, Char.le_def, UInt32.le_iff_toNat_le] using h
  have hc : c = Char.ofNat c.toNat := (Char.ofNat_toNat c).symm
  have hcases : c.toNat = 48 ∨ c.toNat = 49 ∨ c.toNat = 50 ∨ c.toNat = 51 ∨ c.toNat = 52 ∨
      c.toNat = 53 ∨ c.toNat = 54 ∨ c.toNat = 55 ∨ c.toNat = 56 ∨ c.toNat = 57 := by
    omega
  rcases hcases with e | e | e | e | e | e | e | e | e | e <;>
  · rw [hc, e]
    decide

/-- No operator starts with a digit. -/
theorem operators_digit {c : Char} (h : c.isDigit = true) (text : List Char) :
    ∀ l ∈ operatorLexemes, l.length (c :: text) = 0 := by
  have hc := digit_cases h
  simp only [List.mem_cons, List.not_mem_nil, or_false] at hc
  unfold operatorLexemes
  simp only [List.forall_mem_cons]
  rcases hc with rfl | rfl | rfl | rfl | rfl | rfl | rfl | rfl | rfl | rfl <;>
    exact ⟨rfl, rfl, rfl, rfl, rfl, rfl, rfl, rfl, rfl, rfl, rfl, rfl, rfl, rfl, rfl, rfl, rfl,
      rfl, rfl, rfl, by simp⟩

/-- Nor with a quote. -/
theorem operators_quote (text : List Char) :
    ∀ l ∈ operatorLexemes, l.length ('"' :: text) = 0 := by
  unfold operatorLexemes
  simp only [List.forall_mem_cons]
  exact ⟨rfl, rfl, rfl, rfl, rfl, rfl, rfl, rfl, rfl, rfl, rfl, rfl, rfl, rfl, rfl, rfl, rfl,
      rfl, rfl, rfl, by simp⟩

theorem not_isSuffix_of_digit {c : Char} (h : c.isDigit = true) : isSuffix c = false := by
  have hc := digit_cases h
  simp only [List.mem_cons, List.not_mem_nil, or_false] at hc
  rcases hc with rfl | rfl | rfl | rfl | rfl | rfl | rfl | rfl | rfl | rfl <;> rfl

theorem nameLength_zero {start part : Char → Bool} {c : Char} (h : start c = false)
    (text : List Char) : nameLength start part (c :: text) = 0 := by
  show (if start c then (text.takeWhile part).length + 1 else 0) = 0
  simp [h]

/-- A name does not start with an ASCII character that is no letter. -/
theorem names_ascii (u : UnicodeTables) {c : Char} (hascii : c.toNat < 128)
    (halpha : c.isAlpha = false) (hunder : c ≠ '_') (text : List Char) :
    ∀ l ∈ [(⟨.unquotedLexeme, nameLength (fun c => c.isAlpha || c = '_')
        (fun c => c.isAlphanum || c = '_')⟩ : Lexeme Char LexKind),
      ⟨.unquotedLexeme, nameLength u.identifierStart u.identifierPart⟩],
      l.length (c :: text) = 0 := by
  have hstart : u.identifierStart c = false := by
    rw [u.ascii_start c hascii]
    exact halpha
  have hfirst : nameLength (fun c => c.isAlpha || c = '_')
      (fun c => c.isAlphanum || c = '_') (c :: text) = 0 :=
    nameLength_zero (by simp [halpha, hunder]) text
  intro l hl
  simp only [List.mem_cons, List.not_mem_nil, or_false] at hl
  rcases hl with rfl | rfl
  · exact hfirst
  · exact nameLength_zero hstart text

theorem digit_ascii {c : Char} (h : c.isDigit = true) :
    c.toNat < 128 ∧ c.isAlpha = false ∧ c ≠ '_' ∧ c ≠ '"' := by
  have hc := digit_cases h
  simp only [List.mem_cons, List.not_mem_nil, or_false] at hc
  rcases hc with rfl | rfl | rfl | rfl | rfl | rfl | rfl | rfl | rfl | rfl <;> decide

/-- A text that starts with a digit starts with an integer. -/
theorem longest_integral (u : UnicodeTables) {c : Char} (h : c.isDigit = true)
    (text : List Char) :
    longest (c :: text) (lexemes u) = some (.integralLiteral, integralLength (c :: text)) := by
  obtain ⟨hascii, halpha, hunder, hquote⟩ := digit_ascii h
  have hpos : 0 < integralLength (c :: text) := by
    unfold integralLength
    rw [List.takeWhile_cons_of_pos h, List.length_cons]
    omega
  have hfront : ∀ l ∈ operatorLexemes ++ [⟨.stringLiteral, stringLength⟩],
      l.length (c :: text) = 0 := by
    intro l hl
    rcases List.mem_append.mp hl with hop | hstr
    · exact operators_digit h text l hop
    · rw [List.mem_singleton] at hstr
      rw [hstr]
      show stringLength (c :: text) = 0
      unfold stringLength
      simp [hquote]
  have hlex := longest_only (c :: text) (operatorLexemes ++ [⟨.stringLiteral, stringLength⟩]) _
    ⟨.integralLiteral, integralLength⟩ hpos hfront (names_ascii u hascii halpha hunder text)
  rw [List.append_assoc] at hlex
  exact hlex

/-- No digit is taken from a suffix. -/
theorem takeWhile_suffix {ss : List Char} (hss : ∀ c ∈ ss, isSuffix c = true) :
    ss.takeWhile Char.isDigit = [] := by
  cases ss with
  | nil => rfl
  | cons s ss =>
      have hs : s.isDigit = false := by
        by_contra hd
        have hno := not_isSuffix_of_digit (by simpa using hd)
        have hyes := hss s List.mem_cons_self
        rw [hno] at hyes
        exact absurd hyes (by decide)
      exact List.takeWhile_cons_of_neg (by simp [hs])

/-- Digits and a suffix are one integer. -/
theorem integralLength_append {ds ss : List Char} (hds : ∀ c ∈ ds, c.isDigit = true)
    (hss : ∀ c ∈ ss, isSuffix c = true) : integralLength (ds ++ ss) = (ds ++ ss).length := by
  have htake : (ds ++ ss).takeWhile Char.isDigit = ds := by
    rw [List.takeWhile_append_of_pos hds, takeWhile_suffix hss, List.append_nil]
  have hdrop : (ds ++ ss).dropWhile Char.isDigit = ss := by
    have hsplit := List.takeWhile_append_dropWhile (p := Char.isDigit) (l := ds ++ ss)
    rw [htake] at hsplit
    exact List.append_cancel_left hsplit
  unfold integralLength
  rw [htake, hdrop, List.takeWhile_eq_self_iff.mpr hss, List.length_append]

theorem lexAll_nil (u : UnicodeTables) (fuel : Nat) : lexAll u fuel [] = some [] := by
  cases fuel <;> rfl

/-- **Digits and a suffix are read as one token.** -/
theorem lexAll_integral (u : UnicodeTables) (fuel : Nat) {ds ss : List Char} (hne : ds ≠ [])
    (hds : ∀ c ∈ ds, c.isDigit = true) (hss : ∀ c ∈ ss, isSuffix c = true) :
    lexAll u (fuel + 1) (ds ++ ss) = some [(.integralLiteral, ds ++ ss)] := by
  have hlongest : longest (ds ++ ss) (lexemes u)
      = some (.integralLiteral, (ds ++ ss).length) := by
    rw [← integralLength_append hds hss]
    cases ds with
    | nil => exact absurd rfl hne
    | cons d ds => exact longest_integral u (hds d List.mem_cons_self) (ds ++ ss)
  rw [lexAll_token u fuel (by simp [hne]) hlongest rfl, List.drop_length, List.take_length,
    lexAll_nil]
  rfl

theorem lex_integral (u : UnicodeTables) {ds ss : List Char} (hne : ds ≠ [])
    (hds : ∀ c ∈ ds, c.isDigit = true) (hss : ∀ c ∈ ss, isSuffix c = true) :
    lex u (ds ++ ss) = some [(.integralLiteral, ds ++ ss)] := by
  unfold lex
  cases ds with
  | nil => exact absurd rfl hne
  | cons d ds => exact lexAll_integral u (ds ++ ss).length (by simp) hds hss

/-- A minus before a digit is a token of its own. -/
theorem longest_minus (u : UnicodeTables) {c : Char} (h : c.isDigit = true)
    (text : List Char) :
    longest ('-' :: c :: text) (lexemes u) = some (.addSubOp, 1) := by
  have hc := digit_cases h
  simp only [List.mem_cons, List.not_mem_nil, or_false] at hc
  -- no other operator starts with a minus before a digit
  have hfront : ∀ l ∈ operatorLexemes.take 13, l.length ('-' :: c :: text) = 0 := by
    unfold operatorLexemes
    simp only [List.take_succ_cons, List.take_zero, List.forall_mem_cons]
    rcases hc with rfl | rfl | rfl | rfl | rfl | rfl | rfl | rfl | rfl | rfl <;>
      exact ⟨rfl, rfl, rfl, rfl, rfl, rfl, rfl, rfl, rfl, rfl, rfl, rfl, rfl, by simp⟩
  have hback : ∀ l ∈ operatorLexemes.drop 14, l.length ('-' :: c :: text) = 0 := by
    unfold operatorLexemes
    simp only [List.drop_succ_cons, List.drop_zero, List.forall_mem_cons]
    exact ⟨rfl, rfl, rfl, rfl, rfl, rfl, by simp⟩
  -- and no literal or name starts with a minus
  have hrest : ∀ l ∈ operatorLexemes.drop 14 ++ ([⟨.stringLiteral, stringLength⟩,
      ⟨.integralLiteral, integralLength⟩] ++
      [⟨.unquotedLexeme, nameLength (fun c => c.isAlpha || c = '_')
        (fun c => c.isAlphanum || c = '_')⟩,
      ⟨.unquotedLexeme, nameLength u.identifierStart u.identifierPart⟩]),
      l.length ('-' :: c :: text) = 0 := by
    intro l hl
    rcases List.mem_append.mp hl with hop | hl
    · exact hback l hop
    · rcases List.mem_append.mp hl with hlit | hname
      · simp only [List.mem_cons, List.not_mem_nil, or_false] at hlit
        rcases hlit with rfl | rfl
        · rfl
        · rfl
      · exact names_ascii u (by decide) (by decide) (by decide) (c :: text) l hname
  have hlen : oneOf [['-'], ['+']] ('-' :: c :: text) = 1 := rfl
  have hlex := longest_only ('-' :: c :: text) (operatorLexemes.take 13) _
    ⟨.addSubOp, oneOf [['-'], ['+']]⟩ (Nat.lt_of_lt_of_eq Nat.zero_lt_one hlen.symm)
    hfront hrest
  exact hlex

/-- **A minus and digits are read as two tokens.** -/
theorem lex_minus (u : UnicodeTables) {ds ss : List Char} (hne : ds ≠ [])
    (hds : ∀ c ∈ ds, c.isDigit = true) (hss : ∀ c ∈ ss, isSuffix c = true) :
    lex u ('-' :: (ds ++ ss))
      = some [(.addSubOp, ['-']), (.integralLiteral, ds ++ ss)] := by
  cases ds with
  | nil => exact absurd rfl hne
  | cons d ds =>
      have hlongest : longest ('-' :: (d :: ds ++ ss)) (lexemes u) = some (.addSubOp, 1) :=
        longest_minus u (hds d List.mem_cons_self) (ds ++ ss)
      show lexAll u ((ds ++ ss).length + 1 + 1) ('-' :: (d :: ds ++ ss)) = _
      rw [lexAll_token u _ (by simp) hlongest rfl]
      show (lexAll u ((ds ++ ss).length + 1) (d :: ds ++ ss)).map ((.addSubOp, ['-']) :: ·) = _
      rw [lexAll_integral u _ hne hds hss]
      rfl

/-- A quoted text starts with a string, that ends at the first quote of the body. -/
theorem longest_string (u : UnicodeTables) (body : List Char) :
    longest ('"' :: (body ++ ['"'])) (lexemes u)
      = some (.stringLiteral, (body.takeWhile (· ≠ '"')).length + 2) := by
  -- the text ends at the first quote, which is the closing one if the body has none
  have htake : (body ++ ['"']).takeWhile (· ≠ '"') = body.takeWhile (· ≠ '"') := by
    by_cases hin : ∀ c ∈ body, (decide (c ≠ '"')) = true
    · rw [List.takeWhile_append_of_pos hin, List.takeWhile_eq_self_iff.mpr hin]
      simp
    · rw [List.takeWhile_append]
      rw [if_neg]
      intro hlen
      have hself : body.takeWhile (· ≠ '"') = body :=
        (List.takeWhile_prefix _).eq_of_length hlen
      exact hin (List.takeWhile_eq_self_iff.mp hself)
  have hlen : stringLength ('"' :: (body ++ ['"']))
      = (body.takeWhile (· ≠ '"')).length + 2 := by
    show (if '"' = '"' ∧ '"' ∈ body ++ ['"'] then _ else 0) = _
    rw [if_pos (by simp), htake]
  -- the lexemes that come after it get nothing: none of them starts with a quote
  have hback : ∀ l ∈ ([⟨.integralLiteral, integralLength⟩,
      ⟨.unquotedLexeme, nameLength (fun c => c.isAlpha || c = '_')
        (fun c => c.isAlphanum || c = '_')⟩,
      ⟨.unquotedLexeme, nameLength u.identifierStart u.identifierPart⟩] :
      List (Lexeme Char LexKind)), l.length ('"' :: (body ++ ['"'])) = 0 := by
    intro l hl
    rcases List.mem_cons.mp hl with hint | hname
    · rw [hint]
      rfl
    · exact names_ascii u (by decide) (by decide) (by decide) (body ++ ['"']) l hname
  have hlex := longest_only ('"' :: (body ++ ['"'])) operatorLexemes _
    ⟨.stringLiteral, stringLength⟩ (Nat.lt_of_lt_of_eq (Nat.succ_pos _) hlen.symm)
    (operators_quote _) hback
  rw [← hlen]
  exact hlex

/-! ## §2. The actions. -/

/-- The letters of a suffix. -/
def suffix (uns : Bool) (lng lng2 : Bool) : List Char :=
  (if uns then ['U'] else []) ++ (if lng then ['L'] else []) ++ (if lng2 then ['L'] else [])

theorem suffix_isSuffix (uns lng lng2 : Bool) :
    ∀ c ∈ suffix uns lng lng2, isSuffix c = true := by
  intro c hc
  have hletter : c = 'U' ∨ c = 'L' := by
    unfold suffix at hc
    cases uns <;> cases lng <;> cases lng2 <;> simp at hc <;> simp [hc]
  rcases hletter with rfl | rfl
  · rfl
  · rfl

theorem toUpper_digits {ds : List Char} (hds : ∀ c ∈ ds, c.isDigit = true) :
    ds.map Char.toUpper = ds := by
  induction ds with
  | nil => rfl
  | cons d ds ih =>
      have hc := digit_cases (hds d List.mem_cons_self)
      have hd : d.toUpper = d := by
        simp only [List.mem_cons, List.not_mem_nil, or_false] at hc
        rcases hc with rfl | rfl | rfl | rfl | rfl | rfl | rfl | rfl | rfl | rfl <;> rfl
      rw [List.map_cons, hd, ih fun c hc => hds c (List.mem_cons_of_mem d hc)]

/-- The suffix is put in upper case as it is. -/
theorem toUpper_suffix (uns lng lng2 : Bool) :
    (suffix uns lng lng2).map Char.toUpper = suffix uns lng lng2 := by
  cases uns <;> cases lng <;> cases lng2 <;> rfl

theorem not_mem_digits {ds : List Char} (hds : ∀ c ∈ ds, c.isDigit = true) {c : Char}
    (hc : c.isDigit = false) : c ∉ ds := by
  intro hmem
  rw [hds c hmem] at hc
  exact absurd hc (by decide)

/-- The value that `stoull` takes from digits and a suffix. -/
theorem stoull_digits {n : Nat} (ss : List Char) (hss : ∀ c ∈ ss, isSuffix c = true) :
    stoull (Nat.toDigits 10 n ++ ss) = if n < 2 ^ 64 then some n else none := by
  have hds : ∀ c ∈ Nat.toDigits 10 n, c.isDigit = true := by
    intro c hc
    exact Nat.isDigit_of_mem_toDigits (by decide) (by decide) hc
  have htake : (Nat.toDigits 10 n ++ ss).takeWhile Char.isDigit = Nat.toDigits 10 n := by
    rw [List.takeWhile_append_of_pos hds, takeWhile_suffix hss, List.append_nil]
  unfold stoull
  simp only [htake]
  rw [if_neg Nat.toDigits_ne_nil, Nat.ofDigitChars_ten_toDigits]

/-- The flags that `OnIntegralLiteral` finds in digits and a suffix. -/
theorem onIntegralLiteral_suffix (db : TypeDb) (n : Nat) (uns lng lng2 : Bool)
    (hlng : lng2 = true → lng = true) :
    onIntegralLiteral db (Nat.toDigits 10 n ++ suffix uns lng lng2)
      = if n < 2 ^ 64 then createIntegralLiteral db uns lng2 (lng && !lng2) n else none := by
  have hds : ∀ c ∈ Nat.toDigits 10 n, c.isDigit = true := by
    intro c hc
    exact Nat.isDigit_of_mem_toDigits (by decide) (by decide) hc
  -- the letters of the suffix are upper case, and digits have no case
  have hmap : (Nat.toDigits 10 n ++ suffix uns lng lng2).map Char.toUpper
      = Nat.toDigits 10 n ++ suffix uns lng lng2 := by
    rw [List.map_append, toUpper_digits hds, toUpper_suffix]
  have huns : decide ('U' ∈ Nat.toDigits 10 n ++ suffix uns lng lng2) = uns := by
    have hno := not_mem_digits hds (c := 'U') (by decide)
    cases uns <;> cases lng <;> cases lng2 <;> simp [suffix, hno]
  have hL : decide ('L' ∈ Nat.toDigits 10 n ++ suffix uns lng lng2) = (lng || lng2) := by
    have hno := not_mem_digits hds (c := 'L') (by decide)
    cases uns <;> cases lng <;> cases lng2 <;> simp [suffix, hno]
  have hLL : decide (['L', 'L'] <:+: Nat.toDigits 10 n ++ suffix uns lng lng2) = lng2 := by
    cases lng2 with
    | true =>
        rw [hlng rfl]
        refine decide_eq_true ⟨Nat.toDigits 10 n ++ if uns then ['U'] else [], [], ?_⟩
        cases uns <;> simp [suffix]
    | false =>
        -- one `L` at most, so no two in a row
        refine decide_eq_false fun hin => ?_
        have hle := hin.sublist.count_le 'L'
        have hno : (Nat.toDigits 10 n).count 'L' = 0 :=
          List.count_eq_zero.mpr (not_mem_digits hds (by decide))
        rw [List.count_append, hno] at hle
        cases uns <;> cases lng <;> exact absurd hle (by decide)
  unfold onIntegralLiteral
  simp only [hmap, huns, hL, hLL, stoull_digits _ (suffix_isSuffix uns lng lng2)]
  have hflag : ((lng || lng2) && !lng2) = (lng && !lng2) := by
    cases lng <;> cases lng2 <;> rfl
  rw [hflag]
  by_cases hn : n < 2 ^ 64
  · rw [if_pos hn, if_pos hn]
    rfl
  · rw [if_neg hn, if_neg hn]
    rfl

/-! ## §3. Integers. -/

section

variable {db : TypeDb}

theorem decimal_nonneg {v : Int} (h : 0 ≤ v) : decimal v = Nat.toDigits 10 v.natAbs := by
  cases v with
  | ofNat n => rfl
  | negSucc n => exact absurd h (by omega)

theorem decimal_neg {v : Int} (h : v < 0) : decimal v = '-' :: Nat.toDigits 10 v.natAbs := by
  cases v with
  | ofNat n => exact absurd h (by simp)
  | negSucc n => rfl

/-- The suffix of an integer. -/
def SpecificInteger.suffix (i : SpecificInteger db) : List Char :=
  Lang.suffix i.isUnsigned (db.intBits < i.width) (db.longBits < i.width)

theorem getRenderTerminal_eq (i : SpecificInteger db) :
    i.getRenderTerminal = decimal i.value ++ i.suffix := by
  unfold SpecificInteger.getRenderTerminal SpecificInteger.suffix Lang.suffix
  simp [List.append_assoc]

/-- What the width and the sign say of the value. -/
theorem value_range (i : SpecificInteger db) :
    -(2 ^ i.width : Int) ≤ 2 * i.value ∧ i.value < 2 ^ i.width ∧
      (i.isUnsigned = true → 0 ≤ i.value) ∧
      (i.isUnsigned = false → 2 * i.value < 2 ^ i.width) := by
  have hlt : i.bits.toNat < 2 ^ i.width := i.bits.isLt
  have hcast : ((2 ^ i.width : Nat) : Int) = 2 ^ i.width := by push_cast; rfl
  unfold SpecificInteger.value
  cases hu : i.isUnsigned with
  | true =>
      simp only [if_true]
      exact ⟨by omega, by omega, fun _ => by omega, fun h => absurd h (by decide)⟩
  | false =>
      simp only [Bool.false_eq_true, if_false, BitVec.toInt_eq_toNat_cond]
      split
      · exact ⟨by omega, by omega, fun h => absurd h (by decide), fun _ => by omega⟩
      · exact ⟨by omega, by omega, fun h => absurd h (by decide), fun _ => by omega⟩

/-- The widths of which the integers come back. -/
def WidthRead (i : SpecificInteger db) : Prop :=
  i.width = db.intBits ∨ (i.width = db.longBits ∧ db.longBits = db.longLongBits)

instance (i : SpecificInteger db) : Decidable (WidthRead i) :=
  inferInstanceAs (Decidable (_ ∨ _))

theorem literalBits_eq_width (i : SpecificInteger db) :
    (literalBits db (db.longBits < i.width)
        (decide (db.intBits < i.width) && !decide (db.longBits < i.width))).val = i.width
      ↔ WidthRead i := by
  have hmem := i.width_mem
  simp only [TypeDb.widths, List.mem_cons, List.not_mem_nil, or_false] at hmem
  have hcs := db.char_le
  have hsi := db.short_le
  have hil := db.int_le
  have hll := db.long_le
  unfold WidthRead literalBits
  by_cases h2 : db.longBits < i.width
  · simp only [h2, decide_true, if_true]
    omega
  · by_cases h1 : db.intBits < i.width
    · simp only [h1, h2, decide_true, decide_false, Bool.not_false, Bool.and_true, if_true,
        Bool.false_eq_true, if_false]
      omega
    · simp only [h1, h2, decide_false, Bool.not_false, Bool.and_true, Bool.false_eq_true,
        if_false]
      omega

/-- The value of the bits of a number that fits. -/
theorem value_ofNat {w : Nat} (hw : w ∈ db.widths) (uns : Bool) {n : Nat} (hn : n < 2 ^ w) :
    (⟨w, uns, BitVec.ofNat w n, hw⟩ : SpecificInteger db).value
      = if uns = true ∨ 2 * n < 2 ^ w then (n : Int) else n - 2 ^ w := by
  have hto : (BitVec.ofNat w n).toNat = n := by
    rw [BitVec.toNat_ofNat]
    exact Nat.mod_eq_of_lt hn
  show (if uns = true then ((BitVec.ofNat w n).toNat : Int) else (BitVec.ofNat w n).toInt) = _
  cases uns with
  | true => simp [hto]
  | false =>
      rw [BitVec.toInt_eq_toNat_cond, hto]
      simp only [Bool.false_eq_true, if_false, false_or]
      push_cast
      rfl

theorem width_le (i : SpecificInteger db) : i.width ≤ 64 := by
  have hmem := i.width_mem
  simp only [TypeDb.widths, List.mem_cons, List.not_mem_nil, or_false] at hmem
  have hcs := db.char_le
  have hsi := db.short_le
  have hil := db.int_le
  have hll := db.long_le
  have h := db.longLong_le
  omega

/-- `CreateIntegralLiteral` throws where the value does not fit. -/
theorem createIntegralLiteral_eq (uns lng lng2 : Bool) (n : Nat) :
    createIntegralLiteral db uns lng lng2 n
      = if n < 2 ^ (literalBits db lng lng2).val then
          some ⟨(literalBits db lng lng2).val, uns, BitVec.ofNat _ n,
            (literalBits db lng lng2).property⟩
        else none := by
  show (if (BitVec.ofNat (literalBits db lng lng2).val n).toNat ≠ n then none else some _) = _
  rw [BitVec.toNat_ofNat]
  by_cases hn : n < 2 ^ (literalBits db lng lng2).val
  · rw [if_neg (by simp [Nat.mod_eq_of_lt hn]), if_pos hn]
  · rw [if_neg hn, if_pos]
    intro h
    have hlt := Nat.mod_lt n (Nat.two_pow_pos (literalBits db lng lng2).val)
    omega

/-- **What digits and the suffix of an integer are read as.** -/
theorem onIntegralLiteral_exact (i : SpecificInteger db) (n : Nat) (z : Int) :
    (∃ lit : SpecificInteger db,
        onIntegralLiteral db (Nat.toDigits 10 n ++ i.suffix) = some lit ∧ lit.value = z ∧
          lit.width = i.width ∧ lit.isUnsigned = i.isUnsigned)
      ↔ WidthRead i ∧ n < 2 ^ i.width ∧
        z = if i.isUnsigned = true ∨ 2 * n < 2 ^ i.width then (n : Int)
          else n - 2 ^ i.width := by
  have hlng : decide (db.longBits < i.width) = true → decide (db.intBits < i.width) = true := by
    intro h
    exact decide_eq_true (Nat.lt_of_le_of_lt db.int_le (of_decide_eq_true h))
  have hread := onIntegralLiteral_suffix db n i.isUnsigned _ _ hlng
  have hbits := literalBits_eq_width i
  unfold SpecificInteger.suffix
  rw [hread]
  rw [createIntegralLiteral_eq]
  generalize literalBits db (decide (db.longBits < i.width))
    (decide (db.intBits < i.width) && !decide (db.longBits < i.width)) = w at hbits
  have h64 : 2 ^ i.width ≤ 2 ^ 64 := Nat.pow_le_pow_right (by decide) (width_le i)
  constructor
  · -- read: the number fits the width of the literal
    rintro ⟨lit, hlit, hvalue, hwidth, -⟩
    by_cases hn : n < 2 ^ 64
    · rw [if_pos hn] at hlit
      by_cases hlt : n < 2 ^ w.val
      · rw [if_pos hlt, Option.some.injEq] at hlit
        have hw : w.val = i.width := by
          rw [← hlit] at hwidth
          exact hwidth
        rw [← hlit, value_ofNat w.property i.isUnsigned hlt, hw] at hvalue
        rw [hw] at hlt
        exact ⟨hbits.mp hw, hlt, hvalue.symm⟩
      · rw [if_neg hlt] at hlit
        exact absurd hlit (by simp)
    · rw [if_neg hn] at hlit
      exact absurd hlit (by simp)
  · -- and back: a width that is read is the one the flags give
    rintro ⟨hwr, hlt, hz⟩
    have hw : w.val = i.width := hbits.mpr hwr
    rw [if_pos (by omega), if_pos (by rw [hw]; exact hlt)]
    refine ⟨_, rfl, ?_, hw, rfl⟩
    rw [value_ofNat w.property i.isUnsigned (by rw [hw]; exact hlt), hz, hw]

/-- An integer is read as one literal, or a minus and a literal, with its value, width and
signedness. -/
def ReadsInteger (u : UnicodeTables) (i : SpecificInteger db) : Prop :=
  (∃ text lit, lex u i.getRenderTerminal = some [(.integralLiteral, text)] ∧
    onIntegralLiteral db text = some lit ∧ lit.value = i.value ∧ lit.width = i.width ∧
    lit.isUnsigned = i.isUnsigned) ∨
  (∃ text lit, lex u i.getRenderTerminal
      = some [(.addSubOp, ['-']), (.integralLiteral, text)] ∧
    onIntegralLiteral db text = some lit ∧ -lit.value = i.value ∧ lit.width = i.width ∧
    lit.isUnsigned = i.isUnsigned)

/-- The tokens of an integer. -/
theorem lex_getRenderTerminal (u : UnicodeTables) (i : SpecificInteger db) :
    lex u i.getRenderTerminal
      = some (if 0 ≤ i.value then
          [(.integralLiteral, Nat.toDigits 10 i.value.natAbs ++ i.suffix)]
        else [(.addSubOp, ['-']),
          (.integralLiteral, Nat.toDigits 10 i.value.natAbs ++ i.suffix)]) := by
  have hds : ∀ c ∈ Nat.toDigits 10 i.value.natAbs, c.isDigit = true := by
    intro c hc
    exact Nat.isDigit_of_mem_toDigits (by decide) (by decide) hc
  have hss : ∀ c ∈ i.suffix, isSuffix c = true := suffix_isSuffix _ _ _
  rw [getRenderTerminal_eq]
  by_cases hv : 0 ≤ i.value
  · rw [if_pos hv, decimal_nonneg hv]
    exact lex_integral u Nat.toDigits_ne_nil hds hss
  · rw [if_neg hv, decimal_neg (by omega)]
    exact lex_minus u Nat.toDigits_ne_nil hds hss

/-- **Which integers come back**: those of a width that is read, but the least. -/
theorem readsInteger_iff (u : UnicodeTables) (i : SpecificInteger db) :
    ReadsInteger u i ↔ WidthRead i ∧ 2 * i.value ≠ -2 ^ i.width := by
  have hpos : (0 : Int) < 2 ^ i.width := Int.pow_pos (by decide)
  have hcast : ((2 ^ i.width : Nat) : Int) = 2 ^ i.width := by push_cast; rfl
  obtain ⟨hlo, hhi, huns, hsigned⟩ := value_range i
  unfold ReadsInteger
  rw [lex_getRenderTerminal]
  by_cases hv : 0 ≤ i.value
  · -- one token
    simp only [if_pos hv, Option.some.injEq, List.cons.injEq, Prod.mk.injEq, true_and, and_true,
      reduceCtorEq, false_and, exists_false, or_false]
    constructor
    · rintro ⟨text, lit, rfl, hlit⟩
      have hex := (onIntegralLiteral_exact i i.value.natAbs i.value).mp ⟨lit, hlit⟩
      exact ⟨hex.1, by omega⟩
    · -- the value is in range, so it is the one the width reads
      rintro ⟨hwidth, -⟩
      have hvalue : i.value = if i.isUnsigned = true ∨ 2 * i.value.natAbs < 2 ^ i.width then
          (i.value.natAbs : Int) else i.value.natAbs - 2 ^ i.width := by
        rw [if_pos]
        · omega
        · cases hu : i.isUnsigned with
          | true => exact .inl rfl
          | false =>
              have h := hsigned hu
              exact .inr (by omega)
      obtain ⟨lit, hlit⟩ := (onIntegralLiteral_exact i i.value.natAbs i.value).mpr
        ⟨hwidth, by omega, hvalue⟩
      exact ⟨_, lit, rfl, hlit⟩
  · -- a minus first
    have hu : i.isUnsigned = false := by
      by_contra h
      exact hv (huns (by simpa using h))
    simp only [if_neg hv, Option.some.injEq, List.cons.injEq, Prod.mk.injEq, true_and, and_true,
      reduceCtorEq, false_and, exists_false, false_or, and_false]
    -- the value is read without its sign, and negated
    have hneg : ∀ lit : SpecificInteger db, (-lit.value = i.value ↔ lit.value = -i.value) := by
      intro lit
      omega
    simp only [hneg]
    have hex := onIntegralLiteral_exact i i.value.natAbs (-i.value)
    -- at the least value the one without the sign wraps
    have hcond : (-i.value = if i.isUnsigned = true ∨ 2 * i.value.natAbs < 2 ^ i.width then
        (i.value.natAbs : Int) else i.value.natAbs - 2 ^ i.width)
        ↔ 2 * i.value ≠ -2 ^ i.width := by
      rw [hu]
      simp only [Bool.false_eq_true, false_or]
      split
      · constructor
        · intro _
          omega
        · intro _
          omega
      · constructor
        · intro _
          omega
        · intro _
          omega
    rw [hcond] at hex
    constructor
    · rintro ⟨text, lit, rfl, hlit⟩
      obtain ⟨hwidth, -, hleast⟩ := hex.mp ⟨lit, hlit⟩
      exact ⟨hwidth, hleast⟩
    · rintro ⟨hwidth, hleast⟩
      obtain ⟨lit, hlit⟩ := hex.mpr ⟨hwidth, by omega, hleast⟩
      exact ⟨_, lit, rfl, hlit⟩

end

/-! ## §4. Strings. -/

/-- A string is read as one literal with its value, whatever is in the buffer. -/
def ReadsString (u : UnicodeTables) (value : Name) : Prop :=
  ∀ uninitialised, ∃ text,
    lex u (renderString uninitialised value) = some [(.stringLiteral, text)] ∧
      onStringLiteral text = some value

theorem renderCharacters_plain (uninitialised : Nat → Name) {value : Name}
    (h : ∀ c ∈ value, belowSpace c = false) (i : Nat) :
    renderCharacters uninitialised i value = value := by
  induction value generalizing i with
  | nil => rfl
  | cons c value ih =>
      unfold renderCharacters
      rw [h c List.mem_cons_self, ih fun d hd => h d (List.mem_cons_of_mem c hd)]
      rfl

/-- With nothing in the buffer, the characters that are not printed are lost. -/
theorem renderCharacters_empty (value : Name) (i : Nat) :
    renderCharacters (fun _ => []) i value = value.filter (! belowSpace ·) := by
  induction value generalizing i with
  | nil => rfl
  | cons c value ih =>
      unfold renderCharacters
      rw [ih]
      cases hc : belowSpace c with
      | true => simp [hc]
      | false => simp [hc]

/-- The first token of a quoted text is the body up to its first quote. -/
theorem lex_string {u : UnicodeTables} {body text : Name}
    (h : lex u ('"' :: (body ++ ['"'])) = some [(.stringLiteral, text)]) :
    text = '"' :: (body ++ ['"']).take ((body.takeWhile (· ≠ '"')).length + 1) := by
  have hturn := lexAll_token u (body ++ ['"']).length (List.cons_ne_nil '"' (body ++ ['"']))
    (longest_string u body) rfl
  have hlex : lex u ('"' :: (body ++ ['"']))
      = lexAll u ((body ++ ['"']).length + 1) ('"' :: (body ++ ['"'])) := rfl
  rw [hlex, hturn, Option.map_eq_some_iff] at h
  obtain ⟨tokens, -, heq⟩ := h
  exact ((Prod.mk.inj (List.cons.inj heq).1).2).symm

/-- What `Unquote` leaves of that token is no more than the body up to its first quote. -/
theorem onStringLiteral_token {body value : Name}
    (h : onStringLiteral ('"' :: (body ++ ['"']).take
      ((body.takeWhile (· ≠ '"')).length + 1)) = some value) :
    value = body.takeWhile (· ≠ '"') := by
  have hle : (body.takeWhile (· ≠ '"')).length ≤ body.length :=
    (List.takeWhile_prefix _).length_le
  have hlen : ((body ++ ['"']).take ((body.takeWhile (· ≠ '"')).length + 1)).length
      = (body.takeWhile (· ≠ '"')).length + 1 := by
    rw [List.length_take, List.length_append, List.length_singleton]
    omega
  unfold onStringLiteral at h
  split at h
  · rw [Option.some.injEq] at h
    rw [← h, List.drop_succ_cons, List.drop_zero, List.length_cons, hlen]
    show (((body ++ ['"']).take _).take (body.takeWhile (· ≠ '"')).length) = _
    rw [List.take_take, Nat.min_eq_left (Nat.le_succ _), List.take_append_of_le_length hle]
    exact (List.prefix_iff_eq_take.mp (List.takeWhile_prefix _)).symm
  · exact absurd h (by simp)

/-- **Which strings come back**: those of printed characters with no quote. -/
theorem readsString_iff (u : UnicodeTables) (value : Name) :
    ReadsString u value ↔ ∀ c ∈ value, belowSpace c = false ∧ c ≠ '"' := by
  constructor
  · -- what comes back has come through the filter of the lexer and up to a quote
    intro h c hc
    obtain ⟨text, hlex, hunquote⟩ := h fun _ => []
    unfold renderString at hlex
    rw [renderCharacters_empty, List.cons_append] at hlex
    rw [lex_string hlex] at hunquote
    rw [onStringLiteral_token hunquote] at hc
    have hfilter := (List.takeWhile_prefix _).subset hc
    have hquote := List.mem_takeWhile_imp hc
    have hplain := (List.mem_filter.mp hfilter).2
    exact ⟨by simpa using hplain, by simpa using hquote⟩
  · intro h uninitialised
    -- the other way: such a string renders as itself, in quotes
    have hrender : renderString uninitialised value = '"' :: (value ++ ['"']) := by
      unfold renderString
      rw [renderCharacters_plain uninitialised fun c hc => (h c hc).1]
      rfl
    have htake : value.takeWhile (· ≠ '"') = value :=
      List.takeWhile_eq_self_iff.mpr fun c hc => by simpa using (h c hc).2
    have hlongest := longest_string u value
    rw [htake] at hlongest
    have hlen : value.length + 2 = ('"' :: (value ++ ['"'])).length := by simp
    refine ⟨'"' :: (value ++ ['"']), ?_, ?_⟩
    · rw [hrender]
      show lexAll u ((value ++ ['"']).length + 1) ('"' :: (value ++ ['"'])) = _
      rw [lexAll_token u _ (List.cons_ne_nil _ _) hlongest rfl, hlen, List.drop_length,
        List.take_length, lexAll_nil]
      rfl
    · unfold onStringLiteral
      rw [if_pos (by simp [List.getLast?_cons])]
      simp

/-! ## §5. Literals. -/

/-- A literal: a `SpecificInteger` or a `SpecificString`. -/
inductive Literal (db : TypeDb)
  | integer (i : SpecificInteger db)
  | string (value : Name)

/-- Its text is read as the literal it was rendered from. -/
def RoundTrips (u : UnicodeTables) {db : TypeDb} : Literal db → Prop
  | .integer i => ReadsInteger u i
  | .string value => ReadsString u value

/-- The literals with a faithful text: an integer as wide as `int`, or as `long` where
`long long` is no wider, and not the least of its width; a string of printed characters
with no quote. -/
def Faithful {db : TypeDb} : Literal db → Prop
  | .integer i => WidthRead i ∧ 2 * i.value ≠ -2 ^ i.width
  | .string value => ∀ c ∈ value, belowSpace c = false ∧ c ≠ '"'

/-- **Which literals come back from their text.** -/
theorem roundTrips_iff (u : UnicodeTables) {db : TypeDb} (literal : Literal db) :
    RoundTrips u literal ↔ Faithful literal := by
  cases literal with
  | integer i => exact readsInteger_iff u i
  | string value => exact readsString_iff u value

/-- The widths of an LP64 compiler. -/
def lp64 : TypeDb where
  charBits := 8
  shortBits := 16
  intBits := 32
  longBits := 64
  longLongBits := 64
  char_pos := by decide
  char_le := by decide
  short_le := by decide
  int_le := by decide
  long_le := by decide
  longLong_le := by decide

/-- ASCII identifiers only. -/
def asciiTables : UnicodeTables where
  identifierStart := Char.isAlpha
  identifierPart := fun c => c.isAlphanum
  ascii_start := fun _ _ => rfl

/-- A string of one double quote is rendered as three quotes, which are not one token; a
`short` and the least `int` do not come back either. -/
theorem quote_short_least_not_read :
    ¬ RoundTrips asciiTables (Literal.string ['"'] : Literal lp64) ∧
      ¬ RoundTrips asciiTables (Literal.integer ⟨16, false, 5, by decide⟩ : Literal lp64) ∧
      ¬ RoundTrips asciiTables
        (Literal.integer ⟨32, false, BitVec.intMin 32, by decide⟩ : Literal lp64) := by
  refine ⟨?_, ?_, ?_⟩
  · show ¬ ReadsString asciiTables ['"']
    rw [readsString_iff]
    intro hprinted
    exact (hprinted '"' List.mem_cons_self).2 rfl
  · show ¬ ReadsInteger asciiTables (⟨16, false, 5, by decide⟩ : SpecificInteger lp64)
    rw [readsInteger_iff]
    decide
  · show ¬ ReadsInteger asciiTables
      (⟨32, false, BitVec.intMin 32, by decide⟩ : SpecificInteger lp64)
    rw [readsInteger_iff]
    decide

end Inferno.Lang
