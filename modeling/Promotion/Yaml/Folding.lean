import Promotion.Yaml.Cursor

/-!
# `Promotion.Yaml.Folding`: white space inside flow scalars

Blanks between two words of a line are kept. A single line break between
them becomes a space, and of several the first is dropped; blanks around
line breaks are dropped.
-/

set_option autoImplicit false

namespace Promotion.Yaml

/-- White space that was read and is not yet part of the text. -/
structure Folding where
  /-- The blanks of the line, in order. -/
  blanks : List Char := []
  /-- What the first line break stands for. -/
  firstBreak : List Char := []
  /-- What the other line breaks stand for. -/
  moreBreaks : List Char := []
  /-- Whether a line break was read. -/
  broken : Bool := false
  deriving Repr

namespace Folding

/-- What the white space becomes between two words. -/
def text (f : Folding) : List Char :=
  if f.broken then
    if f.firstBreak = ['\n'] then
      (if f.moreBreaks.isEmpty then [' '] else f.moreBreaks)
    else f.firstBreak ++ f.moreBreaks
  else f.blanks

/-- Reads white space. In a plain scalar a tab may not stand left of
`indent` on a new line. The fuel is the length of the text. -/
def read (indent : Nat) : Nat → Folding → Cursor → Except Problem (Folding × Cursor)
  | 0, f, c => .ok (f, c)
  | fuel + 1, f, c =>
    match c.rest with
    | [] => .ok (f, c)
    | b :: _ =>
      if isBlank b then
        if f.broken && c.mark.column < indent && b = '\t' then
          c.problem "found a tab character that violates indentation"
        else if f.broken then read indent fuel f c.skip
        else read indent fuel { f with blanks := f.blanks ++ [b] } c.skip
      else if isBreak b then
        if f.broken then
          read indent fuel { f with moreBreaks := f.moreBreaks ++ c.breakText } c.skipBreak
        else
          read indent fuel { f with firstBreak := c.breakText, broken := true } c.skipBreak
      else .ok (f, c)

end Folding

end Promotion.Yaml
