import Promotion.Text.Utf8
import Promotion.Yaml.Cursor

/-!
# `Promotion.Yaml.Tag`: tags, anchors and directives

The tokens that begin with `!`, `&`, `*` and, at the start of a line, `%`.
-/

set_option autoImplicit false

namespace Promotion.Yaml.Tag

/-- The characters of a tag; `,`, `[` and `]` only where brackets cannot be
open. -/
def isTagChar (wide : Bool) (c : Char) : Bool :=
  isWord c || ";/?:@&=+$.%!~*'()".toList.contains c || (wide && ",[]".toList.contains c)

/-- The value of a hexadecimal digit. -/
def hexDigit? (c : Char) : Option Nat :=
  if c.isDigit then some (c.toNat - '0'.toNat)
  else if 'a' ≤ c && c ≤ 'f' then some (c.toNat - 'a'.toNat + 10)
  else if 'A' ≤ c && c ≤ 'F' then some (c.toNat - 'A'.toNat + 10)
  else none

/-- The bytes of the escapes `%xx` at the start of a text, and the text after
them. The fuel is the length of the text. -/
def escapedBytes : Nat → List Char → Text.Bytes × List Char
  | 0, s => ([], s)
  | fuel + 1, s =>
    match s with
    | '%' :: a :: b :: rest =>
      match hexDigit? a, hexDigit? b with
      | some h, some l =>
        let (bytes, rest) := escapedBytes fuel rest
        (UInt8.ofNat (16 * h + l) :: bytes, rest)
      | _, _ => ([], s)
    | s => ([], s)

/-- The text with its escapes replaced by the characters they stand for. The
fuel is the length of the text. -/
def unescape? : Nat → List Char → Option (List Char)
  | 0, s => some s
  | fuel + 1, s =>
    match s with
    | [] => some []
    | '%' :: _ =>
      match escapedBytes fuel s with
      | ([], _) => none
      | (bytes, rest) =>
        match Text.Utf8.decode? bytes, unescape? fuel rest with
        | some chars, some rest => some (chars ++ rest)
        | _, _ => none
    | c :: rest => (unescape? fuel rest).map (c :: ·)

/-- Reads the characters of a tag. At least one must be there unless `may be
empty`. -/
def readUri (wide mayBeEmpty : Bool) (c : Cursor) : Except Problem (List Char × Cursor) :=
  let (raw, next) := c.takeWhile (isTagChar wide)
  if raw.isEmpty && !mayBeEmpty then c.problem "did not find expected tag URI"
  else match unescape? (raw.length + 1) raw with
    | none => c.problem "did not find URI escaped octet"
    | some chars => .ok (chars, next)

/-- Reads a handle: an exclamation mark, and a word and another mark as far as
they are there. -/
def readHandle (c : Cursor) : Except Problem (List Char × Cursor) :=
  if c.rest.head? = some '!' then
    let (word, c) := c.skip.takeWhile isWord
    if c.rest.head? = some '!' then .ok ('!' :: word ++ ['!'], c.skip)
    else .ok ('!' :: word, c)
  else c.problem "did not find expected '!'"

/-- Reads a tag: its handle and the rest of it. The handle of a verbatim tag
is empty, and so is that of the tag which is a single exclamation mark. -/
def read (flow : Bool) (c : Cursor) : Except Problem ((List Char × List Char) × Cursor) := do
  let (tag, c) ← match c.rest with
    | _ :: '<' :: _ => do
      let (uri, c) ← readUri true false (c.skipMany 2)
      if c.rest.head? = some '>' then pure (([], uri), c.skip)
      else c.problem "did not find the expected '>'"
    | _ => do
      let (handle, c) ← readHandle c
      if 1 < handle.length && handle.getLast? = some '!' then
        let (uri, c) ← readUri false false c
        pure ((handle, uri), c)
      else
        let (uri, c) ← readUri false true c
        match handle.drop 1 ++ uri with
        | [] => pure (([], ['!']), c)
        | suffix => pure ((['!'], suffix), c)
  if atGap c.rest || (flow && c.rest.head? = some ',') then return (tag, c)
  else c.problem "did not find expected whitespace or line break"

/-- The characters that may follow the name of an anchor. -/
def endsAnchor (s : List Char) : Bool :=
  atGap s || match s with
    | c :: _ => "?:,]\x7d%@`".toList.contains c
    | [] => true

/-- Reads the name of an anchor or alias after its indicator. -/
def readAnchor (c : Cursor) : Except Problem (List Char × Cursor) :=
  let (name, next) := c.skip.takeWhile isWord
  if name.isEmpty || !endsAnchor next.rest then
    c.problem "did not find expected alphabetic or numeric character"
  else .ok (name, next)

/-- What a directive says. -/
inductive Directive where
  | version (major minor : Nat)
  | tag (handle start : List Char)
  deriving Repr

/-- Reads a number of at most nine digits. -/
def readNumber (c : Cursor) : Except Problem (Nat × Cursor) :=
  let (digits, next) := c.takeWhile Char.isDigit
  if digits.isEmpty then c.problem "did not find expected version number"
  else if 9 < digits.length then c.problem "found extremely long version number"
  else .ok (digits.foldl (fun n d => 10 * n + (d.toNat - '0'.toNat)) 0, next)

/-- Reads the version after its directive's name. -/
def readVersion (c : Cursor) : Except Problem (Directive × Cursor) := do
  let (major, c) ← readNumber (c.skipWhile isBlank)
  if c.rest.head? ≠ some '.' then c.problem "did not find expected digit or '.' character"
  let (minor, c) ← readNumber c.skip
  return (.version major minor, c)

/-- Reads the handle and the start of tags after their directive's name. -/
def readTagDirective (c : Cursor) : Except Problem (Directive × Cursor) := do
  let (handle, c) ← readHandle (c.skipWhile isBlank)
  if handle ≠ ['!'] && handle.getLast? ≠ some '!' then
    c.problem "did not find expected '!'"
  if c.rest.isEmpty || !isBlank (c.rest.headD 'x') then
    c.problem "did not find expected whitespace"
  let (start, c) ← readUri true false (c.skipWhile isBlank)
  if !atGap c.rest then c.problem "did not find expected whitespace or line break"
  return (.tag handle start, c)

/-- Reads a directive to the end of its line. -/
def readDirective (c : Cursor) : Except Problem (Directive × Cursor) := do
  let (name, c) := c.skip.takeWhile isWord
  if name.isEmpty || !atGap c.rest then
    c.problem "could not find expected directive name"
  let (directive, c) ←
    if name = ['Y', 'A', 'M', 'L'] then readVersion c
    else if name = ['T', 'A', 'G'] then readTagDirective c
    else c.problem "found unknown directive name"
  let c := (c.skipWhile isBlank).skipComment
  if !atLineEnd c.rest then c.problem "did not find expected comment or line break"
  return (directive, c.skipBreak)

end Promotion.Yaml.Tag
