import Promotion.Yaml.Cursor

/-!
# `Promotion.Yaml.BlockScalar`: scalars on lines of their own

A block scalar has a header, which may fix its indentation and say what
becomes of the line breaks at its end, and then its lines. Literal scalars
keep their line breaks, folded ones join lines that are not indented
further.
-/

set_option autoImplicit false

namespace Promotion.Yaml.BlockScalar

/-- What becomes of the line breaks at the end. -/
inductive Chomping where
  /-- All but the first are dropped. -/
  | clip
  /-- All are dropped. -/
  | strip
  /-- All are kept. -/
  | keep
  deriving DecidableEq, Repr

/-- The header: what becomes of the end, and the indentation if it is fixed. -/
structure Header where
  chomping : Chomping
  increment : Option Nat
  deriving Repr

/-- The chomping of an indicator. -/
def chomping? (c : Cursor) : Option Chomping :=
  match c.rest with
  | '+' :: _ => some .keep
  | '-' :: _ => some .strip
  | _ => none

/-- The indentation indicator here, when there is one; zero is refused. -/
def increment? (c : Cursor) : Except Problem (Option Nat) :=
  match c.rest with
  | d :: _ =>
    if d = '0' then c.problem "found an indentation indicator equal to 0"
    else if d.isDigit then .ok (some (d.toNat - '0'.toNat))
    else .ok none
  | [] => .ok none

/-- Reads the indicators of the header, in either order. -/
def readHeader (c : Cursor) : Except Problem (Header × Cursor) :=
  match chomping? c with
  | some chomping =>
    match increment? c.skip with
    | .error e => .error e
    | .ok none => .ok (⟨chomping, none⟩, c.skip)
    | .ok n => .ok (⟨chomping, n⟩, c.skipMany 2)
  | none =>
    match increment? c with
    | .error e => .error e
    | .ok none => .ok (⟨.clip, none⟩, c)
    | .ok n =>
      match chomping? c.skip with
      | some chomping => .ok (⟨chomping, n⟩, c.skipMany 2)
      | none => .ok (⟨.clip, n⟩, c.skip)

/-- Reads the rest of the header's line. -/
def endHeader (c : Cursor) : Except Problem Cursor :=
  let c := (c.skipWhile isBlank).skipComment
  if atLineEnd c.rest then .ok c.skipBreak
  else c.problem "did not find expected comment or line break"

/-- Reads the indentation of lines and the line breaks of empty ones. While
the indentation is not known, all spaces belong to it and the greatest one is
remembered. The fuel is the length of the text. -/
def readBreaks (indent : Option Nat) :
    Nat → Nat → List Char → Cursor → Except Problem (Nat × List Char × Cursor)
  | 0, greatest, breaks, c => .ok (greatest, breaks, c)
  | fuel + 1, greatest, breaks, c =>
    let spaces := (c.rest.takeWhile (· = ' ')).length
    let c := c.skipMany (match indent with
      | none => spaces
      | some n => min spaces (n - c.mark.column))
    let greatest := max greatest c.mark.column
    let inside : Bool := match indent with
      | none => true
      | some n => c.mark.column < n
    match c.rest with
    | [] => .ok (greatest, breaks, c)
    | b :: _ =>
      if inside && b = '\t' then
        c.problem "found a tab character where an indentation space is expected"
      else if isBreak b then
        readBreaks indent fuel greatest (breaks ++ c.breakText) c.skipBreak
      else .ok (greatest, breaks, c)

/-- The text so far, in reverse, and the line breaks at its end. -/
structure Draft where
  done : List Char := []
  firstBreak : List Char := []
  moreBreaks : List Char := []
  /-- Whether the line before started with a blank. -/
  indented : Bool := false

/-- Adds a line; `literal` keeps the line break before it. -/
def Draft.addLine (d : Draft) (literal indented : Bool) (line : List Char) : Draft :=
  let joined :=
    if !literal && d.firstBreak = ['\n'] && !d.indented && !indented then
      (if d.moreBreaks.isEmpty then [' '] else d.moreBreaks)
    else d.firstBreak ++ d.moreBreaks
  { done := line.reverse ++ (joined.reverse ++ d.done), indented := indented }

/-- Reads the lines that are indented to `indent`. The fuel is the length of
the text. -/
def readLines (literal : Bool) (indent : Nat) : Nat → Draft → Cursor → Except Problem (Draft × Cursor)
  | 0, d, c => .ok (d, c)
  | fuel + 1, d, c =>
    match c.rest with
    | [] => .ok (d, c)
    | b :: _ =>
      if c.mark.column ≠ indent then .ok (d, c)
      else
        let (line, c) := c.takeWhile fun b => !isBreak b
        let d := d.addLine literal (isBlank b) line
        let firstBreak := c.breakText
        match readBreaks (some indent) (c.rest.length + 1) 0 [] c.skipBreak with
        | .error e => .error e
        | .ok (_, breaks, c) =>
          readLines literal indent fuel
            { d with firstBreak := firstBreak, moreBreaks := breaks } c

/-- The text with what the chomping leaves of its end. -/
def Draft.finish (d : Draft) : Chomping → List Char
  | .strip => d.done.reverse
  | .clip => d.done.reverse ++ d.firstBreak
  | .keep => d.done.reverse ++ d.firstBreak ++ d.moreBreaks

/-- Reads a block scalar inside a collection that is indented to `parent`,
-1 outside all collections. -/
def read (literal : Bool) (parent : Int) (c : Cursor) : Except Problem (List Char × Cursor) := do
  let (header, c) ← readHeader c.skip
  let c ← endHeader c
  let fixed := header.increment.map fun n => (if 0 ≤ parent then parent.toNat else 0) + n
  let (greatest, breaks, c) ← readBreaks fixed (c.rest.length + 1) 0 [] c
  let indent := fixed.getD (max (max greatest (parent + 1).toNat) 1)
  let (d, c) ← readLines literal indent (c.rest.length + 1) { moreBreaks := breaks } c
  return (d.finish header.chomping, c)

end Promotion.Yaml.BlockScalar
