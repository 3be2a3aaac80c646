/-!
# `Promotion.Yaml.Cursor`: places in a YAML text

A cursor is what is left of a text and the place where that begins. The
classes of characters that YAML distinguishes stand here too, and the
problem that reading ends with when a text is no YAML.
-/

set_option autoImplicit false

namespace Promotion.Yaml

/-- A place in a text: how many characters precede it, its line and its
column, all counted from zero. -/
structure Mark where
  index : Nat
  line : Nat
  column : Nat
  deriving DecidableEq, Repr, Inhabited

namespace Mark

/-- The start of a text. -/
def start : Mark := ⟨0, 0, 0⟩

/-- The place after one more character of the line. -/
def next (m : Mark) : Mark := ⟨m.index + 1, m.line, m.column + 1⟩

/-- The start of the next line, after a line break of `width` characters. -/
def nextLine (m : Mark) (width : Nat) : Mark := ⟨m.index + width, m.line + 1, 0⟩

/-- The place as it is shown to the user, line and column counted from one. -/
def display (m : Mark) : String := s!"line {m.line + 1} column {m.column + 1}"

end Mark

/-- Why a text is no YAML, and where. -/
structure Problem where
  text : String
  mark : Mark
  deriving DecidableEq, Repr

/-- The problem in one sentence. -/
def Problem.message (p : Problem) : String := s!"{p.text} at {p.mark.display}"

/-! ### Classes of characters -/

/-- A line break. -/
def isBreak (c : Char) : Bool :=
  c = '\n' || c = '\r' || c = '\u0085' || c = '\u2028' || c = '\u2029'

/-- A space or a tab. -/
def isBlank (c : Char) : Bool := c = ' ' || c = '\t'

/-- A letter, a digit, a hyphen or an underscore: what names are made of. -/
def isWord (c : Char) : Bool := c.isAlphanum || c = '_' || c = '-'

/-- Whether a character may stand in a YAML text. -/
def isAllowed (c : Char) : Bool :=
  let n := c.toNat
  n == 9 || n == 10 || n == 13 || (0x20 ≤ n && n ≤ 0x7E) || n == 0x85
    || (0xA0 ≤ n && n ≤ 0xFFFD) || 0x10000 ≤ n

/-- Whether a text is at its end or goes on with a blank or a line break. -/
def atGap : List Char → Bool
  | [] => true
  | c :: _ => isBlank c || isBreak c

/-- Whether a text is at its end or goes on with a line break. -/
def atLineEnd : List Char → Bool
  | [] => true
  | c :: _ => isBreak c

/-- What is left of a text, and where it begins. -/
structure Cursor where
  rest : List Char
  mark : Mark
  deriving Repr

namespace Cursor

/-- The cursor at the start of a text. -/
def ofText (s : List Char) : Cursor := ⟨s, .start⟩

/-- The cursor after one character that is no line break. -/
def skip (c : Cursor) : Cursor := ⟨c.rest.drop 1, c.mark.next⟩

/-- The cursor after `n` characters that are no line breaks. -/
def skipMany : Nat → Cursor → Cursor
  | 0, c => c
  | n + 1, c => skipMany n c.skip

/-- The cursor after a line break; a carriage return and a line feed are one
line break. -/
def skipBreak (c : Cursor) : Cursor :=
  match c.rest with
  | '\r' :: '\n' :: rest => ⟨rest, c.mark.nextLine 2⟩
  | b :: rest => if isBreak b then ⟨rest, c.mark.nextLine 1⟩ else c
  | [] => c

/-- The text that a line break stands for: a line feed, unless it is one of
the separators of the Unicode standard. -/
def breakText (c : Cursor) : List Char :=
  match c.rest with
  | b :: _ => if b = '\u2028' || b = '\u2029' then [b] else if isBreak b then ['\n'] else []
  | [] => []

/-- The characters up to the first that does not satisfy `p`, and the cursor
there. The characters that do must not be line breaks. -/
def takeWhile (p : Char → Bool) (c : Cursor) : List Char × Cursor :=
  let taken := c.rest.takeWhile p
  (taken, ⟨c.rest.drop taken.length,
    ⟨c.mark.index + taken.length, c.mark.line, c.mark.column + taken.length⟩⟩)

/-- The cursor at the first character that does not satisfy `p`. -/
def skipWhile (p : Char → Bool) (c : Cursor) : Cursor := (c.takeWhile p).2

/-- The cursor after a comment, if there is one here. -/
def skipComment (c : Cursor) : Cursor :=
  if c.rest.head? = some '#' then c.skipWhile fun b => !isBreak b else c

/-- Whether a line begins here with the marker of a document. -/
def atMarker (marker : List Char) (c : Cursor) : Bool :=
  c.mark.column == 0 && marker.isPrefixOf c.rest && atGap (c.rest.drop marker.length)

/-- Whether a document starts or ends here. -/
def atDocument (c : Cursor) : Bool :=
  c.atMarker ['-', '-', '-'] || c.atMarker ['.', '.', '.']

/-- A problem at this place. -/
def problem {α : Type} (c : Cursor) (text : String) : Except Problem α :=
  .error ⟨text, c.mark⟩

end Cursor

end Promotion.Yaml
