/-
  Inferno.Lang.Indenter
  ─────────────────────
  The indenting of rendered text, by counting brackets.

    • `Indenter.doIndent`   — the depth of each line; `none` is an assertion,
    • `Indenter.getString`  — the lines behind their tabs,
    • `addLinesFromString_renderedText` — the lines that a rendered text is taken to be,
    • `Segment`, `balance`  — rendered lines, with their string literals, and the brackets
                              that a line opens outside these,
    • `miscount`            — what the counts of the indenter make of a line beyond that:
                              brackets in literals, and square brackets,
    • `indents_iff`         — the balanced texts that are indented right.

  Strings are lists of characters: in UTF-8, the bytes of a bracket occur in a text only
  where the bracket does.
-/
import Inferno.Common.Assert
import Mathlib.Algebra.BigOperators.Group.List.Basic
import Mathlib.Algebra.Order.Ring.Int

namespace Inferno.Lang

open Inferno.Common

/-! ## §1. The indenter. -/

/-- `Count`: the places in `s` where `c` is found. -/
def count (c : List Char) : List Char → Int
  | [] => 0
  | x :: s => (if c.isPrefixOf (x :: s) then 1 else 0) + count c s

namespace Indenter

/-- `Indenter::Line`. -/
structure Line where
  depth : Int
  text : List Char
deriving DecidableEq

/-- The lines of a string; the last may be without its newline. -/
def linesOf : List Char → List (List Char)
  | [] => []
  | c :: s =>
      if c = '\n' then [] :: linesOf s
      else match linesOf s with
        | [] => [[c]]
        | line :: lines => (c :: line) :: lines

/-- `AddLinesFromString`, to no lines yet. -/
def addLinesFromString (s : List Char) : List Line :=
  (linesOf s).map fun text => ⟨0, text⟩

/-- `GetBracketBalance`. -/
def getBracketBalance (s : List Char) : Int :=
  let opens := count ['('] s + count ['['] s + count ['{'] s + count ['⦅'] s + count ['▲'] s
  let closes := count [')'] s + count ['['] s + count ['}'] s + count ['⦆'] s + count ['⯇'] s
  opens - closes

/-- The loop of `DoIndent`, from a current depth. -/
def indentFrom (currentDepth : Int) : List Line → Option (List Line)
  | [] => do
      ASSERT (currentDepth = 0)
      some []
  | line :: lines => do
      let bal := getBracketBalance line.text
      let currentDepth := if bal < 0 then currentDepth + bal else currentDepth
      ASSERT (currentDepth ≥ 0)
      let rest ← indentFrom (if bal > 0 then currentDepth + bal else currentDepth) lines
      some ({ line with depth := currentDepth } :: rest)

/-- `DoIndent`. -/
def doIndent (lines : List Line) : Option (List Line) :=
  indentFrom 0 lines

/-- `GetString`. -/
def getString (lines : List Line) : List Char :=
  lines.flatMap fun line =>
    if line.text.isEmpty ∧ line.depth > 0 then []
    else List.replicate line.depth.toNat '\t' ++ line.text ++ ['\n']

end Indenter

/-! ## §2. Rendered lines. -/

/-- A part of a line: a literal in its quotes, or what is between literals. -/
inductive Segment where
  | code (text : List Char)
  | literal (text : List Char)
deriving DecidableEq

def Segment.text : Segment → List Char
  | code text => text
  | literal text => text

/-- The text of a line. -/
def lineText (line : List Segment) : List Char := line.flatMap Segment.text

/-- What a bracket opens or closes. -/
def bracket (c : Char) : Int :=
  if c ∈ ['(', '[', '{', '⦅', '▲'] then 1
  else if c ∈ [')', ']', '}', '⦆', '⯇'] then -1 else 0

/-- The same of the square brackets. -/
def squareBracket (c : Char) : Int :=
  if c = '[' then 1 else if c = ']' then -1 else 0

/-- The brackets of every kind that a part opens, less those it closes. -/
def Segment.balance : Segment → Int
  | code text => (text.map bracket).sum
  | literal _ => 0

/-- What else the indenter counts: the brackets in a literal, but for the square ones; and
square brackets in either are not counted. -/
def Segment.miscount : Segment → Int
  | code text => -(text.map squareBracket).sum
  | literal text => (text.map bracket).sum - (text.map squareBracket).sum

def balance (line : List Segment) : Int := (line.map Segment.balance).sum

def miscount (line : List Segment) : Int := (line.map Segment.miscount).sum

/-- A text of lines. -/
def renderedText (lines : List (List Segment)) : List Char :=
  lines.flatMap fun line => lineText line ++ ['\n']

theorem linesOf_line (text s : List Char) (h : '\n' ∉ text) :
    Indenter.linesOf (text ++ '\n' :: s) = text :: Indenter.linesOf s := by
  induction text with
  | nil => rfl
  | cons c text ih =>
      rw [List.mem_cons, not_or] at h
      rw [List.cons_append, Indenter.linesOf, if_neg (Ne.symm h.1), ih h.2]

/-- **The lines of a rendered text** are added as they are. -/
theorem addLinesFromString_renderedText (lines : List (List Segment))
    (h : ∀ line ∈ lines, '\n' ∉ lineText line) :
    Indenter.addLinesFromString (renderedText lines)
      = lines.map fun line => ⟨0, lineText line⟩ := by
  unfold Indenter.addLinesFromString
  have hlines : Indenter.linesOf (renderedText lines) = lines.map lineText := by
    induction lines with
    | nil => rfl
    | cons line lines ih =>
        rw [List.forall_mem_cons] at h
        unfold renderedText at ih ⊢
        rw [List.flatMap_cons, List.append_assoc, List.singleton_append, linesOf_line _ _ h.1,
          ih h.2, List.map_cons]
  rw [hlines, List.map_map]
  rfl

/-! ## §3. What is counted. -/

theorem count_single (c : Char) (s : List Char) :
    count [c] s = (s.map fun x => if x = c then 1 else 0).sum := by
  induction s with
  | nil => rfl
  | cons x s ih =>
      unfold count
      rw [List.map_cons, List.sum_cons, ih]
      congr 1
      by_cases hx : x = c
      · simp [hx]
      · have hne : c ≠ x := fun h => hx h.symm
        simp [hx, hne]

/-- **The indenter counts a character** as what it opens or closes, but for the square
brackets: an opening one cancels itself, and a closing one is not looked for. -/
theorem getBracketBalance_eq (s : List Char) :
    Indenter.getBracketBalance s = (s.map bracket).sum - (s.map squareBracket).sum := by
  induction s with
  | nil => rfl
  | cons x s ih =>
      unfold Indenter.getBracketBalance at ih ⊢
      simp only [count_single, List.map_cons, List.sum_cons] at ih ⊢
      have hx : ((if x = '(' then (1 : Int) else 0) + (if x = '[' then 1 else 0)
          + (if x = '{' then 1 else 0) + (if x = '⦅' then 1 else 0)
          + (if x = '▲' then 1 else 0))
          - ((if x = ')' then 1 else 0) + (if x = '[' then 1 else 0)
          + (if x = '}' then 1 else 0) + (if x = '⦆' then 1 else 0)
          + (if x = '⯇' then 1 else 0))
          = bracket x - squareBracket x := by
        by_cases hmem : x ∈ ['(', '[', '{', '⦅', '▲', ')', ']', '}', '⦆', '⯇']
        · simp only [List.mem_cons, List.not_mem_nil, or_false] at hmem
          rcases hmem with rfl | rfl | rfl | rfl | rfl | rfl | rfl | rfl | rfl | rfl <;> decide
        · simp only [List.mem_cons, List.not_mem_nil, or_false, not_or] at hmem
          unfold bracket squareBracket
          simp [hmem]
      omega

/-- **The count of a line** is its balance and what is miscounted. -/
theorem getBracketBalance_lineText (line : List Segment) :
    Indenter.getBracketBalance (lineText line) = balance line + miscount line := by
  rw [getBracketBalance_eq]
  induction line with
  | nil => rfl
  | cons segment line ih =>
      unfold lineText balance miscount at ih ⊢
      simp only [List.flatMap_cons, List.map_append, List.sum_append, List.map_cons,
        List.sum_cons]
      cases segment with
      | code text =>
          simp only [Segment.text, Segment.balance, Segment.miscount]
          omega
      | literal text =>
          simp only [Segment.text, Segment.balance, Segment.miscount]
          omega

/-! ## §4. The depth of a line. -/

/-- **The depth of each line**: the brackets open at its start, less those that it closes on
balance. -/
def depths (openBrackets : Int) : List (List Segment) → List Int
  | [] => []
  | line :: lines => (openBrackets + min 0 (balance line))
      :: depths (openBrackets + balance line) lines

/-- The brackets outside literals are balanced: at no end of a line are more closed than were
opened, and at the end of the text all are closed. -/
def Balanced (openBrackets : Int) : List (List Segment) → Prop
  | [] => openBrackets = 0
  | line :: lines => 0 ≤ openBrackets + balance line
      ∧ Balanced (openBrackets + balance line) lines

/-- The same lines in order, each preceded only by tabs, without the blank lines inside
brackets. -/
def tabbed (lines : List (List Segment)) : List Char :=
  ((depths 0 lines).zip lines).flatMap fun (depth, line) =>
    if lineText line = [] ∧ 0 < depth then []
    else List.replicate depth.toNat '\t' ++ lineText line ++ ['\n']

/-- **A text is indented right**: no assertion fails, each line has its depth, and the text is
put out behind the tabs. -/
def Indents (lines : List (List Segment)) : Prop :=
  ∃ out, Indenter.doIndent (lines.map fun line => ⟨0, lineText line⟩) = some out
    ∧ out.map (·.depth) = depths 0 lines ∧ Indenter.getString out = tabbed lines

/-- **What is miscounted cancels**: at the lower end of each line, and at the end of the
text. -/
def Cancels (openBrackets miscounted : Int) : List (List Segment) → Prop
  | [] => miscounted = 0
  | line :: lines =>
      min (openBrackets + miscounted)
          (openBrackets + balance line + (miscounted + miscount line))
        = min openBrackets (openBrackets + balance line)
      ∧ Cancels (openBrackets + balance line) (miscounted + miscount line) lines

/-- The depth that the loop gives a line, and its current depth after it. -/
theorem indentFrom_cons (currentDepth : Int) (line : List Segment)
    (lines : List Indenter.Line) :
    Indenter.indentFrom currentDepth (⟨0, lineText line⟩ :: lines) = (do
      ASSERT (min currentDepth (currentDepth + (balance line + miscount line)) ≥ 0)
      let rest ← Indenter.indentFrom (currentDepth + (balance line + miscount line)) lines
      some (⟨min currentDepth (currentDepth + (balance line + miscount line)),
        lineText line⟩ :: rest)) := by
  rw [Indenter.indentFrom]
  dsimp only
  rw [getBracketBalance_lineText]
  rcases lt_trichotomy (balance line + miscount line) 0 with h | h | h
  · rw [if_pos h, if_neg (by omega), min_eq_right (by omega)]
  · rw [if_neg (by omega), if_neg (by omega), h, add_zero, min_self]
  · rw [if_neg (by omega), if_pos h, min_eq_left (by omega)]

/-- What the loop returns are the lines, with depths. -/
theorem indentFrom_text {currentDepth : Int} {lines out : List Indenter.Line}
    (h : Indenter.indentFrom currentDepth lines = some out) :
    out.map (·.text) = lines.map (·.text) := by
  induction lines generalizing currentDepth out with
  | nil =>
      unfold Indenter.indentFrom at h
      obtain ⟨_, h⟩ := ASSERT_bind_eq_some.mp h
      cases h
      rfl
  | cons line lines ih =>
      unfold Indenter.indentFrom at h
      obtain ⟨_, h⟩ := ASSERT_bind_eq_some.mp h
      obtain ⟨rest, hrest, h⟩ := Option.bind_eq_some_iff.mp h
      cases h
      rw [List.map_cons, List.map_cons, ih hrest]

/-- **The loop gives each line its depth** exactly when what it miscounts cancels. -/
theorem indentFrom_iff (lines : List (List Segment)) : ∀ {openBrackets : Int} (miscounted : Int),
    0 ≤ openBrackets → Balanced openBrackets lines →
    ((∃ out, Indenter.indentFrom (openBrackets + miscounted)
        (lines.map fun line => ⟨0, lineText line⟩) = some out
        ∧ out.map (·.depth) = depths openBrackets lines)
      ↔ Cancels openBrackets miscounted lines) := by
  induction lines with
  | nil =>
      intro openBrackets miscounted _ hbalanced
      have hzero : openBrackets = 0 := hbalanced
      constructor
      · rintro ⟨out, hrun, _⟩
        obtain ⟨hend, _⟩ := ASSERT_bind_eq_some.mp hrun
        show miscounted = 0
        omega
      · intro hcancels
        have hcancels : miscounted = 0 := hcancels
        refine ⟨[], ?_, rfl⟩
        exact ASSERT_bind_eq_some.mpr ⟨by omega, rfl⟩
  | cons line lines ih =>
      intro openBrackets miscounted hopen hbalanced
      obtain ⟨hnext, hbalanced⟩ := hbalanced
      have hih := ih (miscounted + miscount line) hnext hbalanced
      have hdepth : openBrackets + min 0 (balance line)
          = min openBrackets (openBrackets + balance line) := by omega
      have hcurrent : openBrackets + miscounted + (balance line + miscount line)
          = openBrackets + balance line + (miscounted + miscount line) := by omega
      rw [List.map_cons, indentFrom_cons, hcurrent]
      unfold depths Cancels
      rw [hdepth, ← hih]
      constructor
      · rintro ⟨out, hrun, hdepths⟩
        obtain ⟨_, hrun⟩ := ASSERT_bind_eq_some.mp hrun
        obtain ⟨rest, hrest, heq⟩ := Option.bind_eq_some_iff.mp hrun
        cases heq
        rw [List.map_cons, List.cons.injEq] at hdepths
        exact ⟨hdepths.1, rest, hrest, hdepths.2⟩
      · rintro ⟨hmin, rest, hrest, hdepths⟩
        refine ⟨⟨min openBrackets (openBrackets + balance line), lineText line⟩ :: rest, ?_, ?_⟩
        · -- the depth is that of the line, which is not negative
          rw [hmin, hrest]
          refine ASSERT_bind_eq_some.mpr ⟨?_, rfl⟩
          show 0 ≤ min openBrackets (openBrackets + balance line)
          omega
        · rw [List.map_cons, hdepths]

/-- The text put out, from the depths of the lines. -/
theorem getString_eq {out : List Indenter.Line} {lines : List (List Segment)}
    (hdepth : out.map (·.depth) = depths 0 lines) (htext : out.map (·.text) = lines.map lineText) :
    Indenter.getString out = tabbed lines := by
  have hlines : (depths 0 lines).zip (lines.map lineText)
      = out.map fun line => (line.depth, line.text) := by
    rw [← hdepth, ← htext, List.zip_map']
  have htabbed : tabbed lines = ((depths 0 lines).zip (lines.map lineText)).flatMap
      fun p => if p.2 = [] ∧ 0 < p.1 then []
        else List.replicate p.1.toNat '\t' ++ p.2 ++ ['\n'] := by
    rw [List.zip_map_right, List.flatMap_map]
    rfl
  rw [htabbed, hlines, List.flatMap_map]
  unfold Indenter.getString
  simp only [List.isEmpty_iff, gt_iff_lt]

/-! ## §5. When a text is indented right. -/

/-- **A balanced text is indented right** exactly when what is miscounted, brackets in string
literals and square brackets, cancels at the lower end of each line and at the end of the
text. -/
theorem indents_iff (lines : List (List Segment)) (hbalanced : Balanced 0 lines) :
    Indents lines ↔ Cancels 0 0 lines := by
  rw [← indentFrom_iff lines 0 (le_refl 0) hbalanced]
  constructor
  · rintro ⟨out, hrun, hdepths, _⟩
    exact ⟨out, hrun, hdepths⟩
  · rintro ⟨out, hrun, hdepths⟩
    have htext := indentFrom_text hrun
    rw [List.map_map] at htext
    exact ⟨out, hrun, hdepths, getString_eq hdepths htext⟩

theorem indents_iff_parens :
    Indents [[.code ['f', '(']], [], [.code ['x', ',', ' '], .literal ['"', '"']],
      [.code [')']]] :=
  (indents_iff [[.code ['f', '(']], [], [.code ['x', ',', ' '], .literal ['"', '"']],
      [.code [')']]] ⟨by decide, by decide, by decide, by decide, rfl⟩).mpr
    ⟨by decide, by decide, by decide, by decide, rfl⟩

/-- Square brackets, and a bracket in a string literal: the line between the first is not
indented, and the other makes the assertion fail. -/
theorem squareBrackets_not_indented :
    (Balanced 0 [[.code ['a', '[']], [.code ['b']], [.code [']']]]
      ∧ ¬ Indents [[.code ['a', '[']], [.code ['b']], [.code [']']]])
    ∧ (Balanced 0 [[.literal ['"', '(', '"']]] ∧ ¬ Indents [[.literal ['"', '(', '"']]]) := by
  refine ⟨⟨⟨by decide, by decide, by decide, rfl⟩, ?_⟩, ⟨by decide, rfl⟩, ?_⟩
  · rintro ⟨out, hrun, hdepths, _⟩
    have hflat : Indenter.doIndent ([[.code ['a', '[']], [.code ['b']], [.code [']']]].map
        fun line => ⟨0, lineText line⟩)
          = some [⟨0, ['a', '[']⟩, ⟨0, ['b']⟩, ⟨0, [']']⟩] := by decide
    rw [hflat] at hrun
    cases hrun
    exact absurd hdepths (by decide)
  · rintro ⟨out, hrun, _⟩
    have hfail : Indenter.doIndent ([[.literal ['"', '(', '"']]].map
        fun line => ⟨0, lineText line⟩) = none := by decide
    rw [hfail] at hrun
    cases hrun

end Inferno.Lang
