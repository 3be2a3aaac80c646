import Promotion.Yaml.Folding

/-!
# `Promotion.Yaml.QuotedScalar`: scalars in quotation marks

Between single quotation marks only the mark itself is special: written
twice, it stands for one. Between double quotation marks a backslash starts
an escape, or joins two lines. Line breaks are folded in both.
-/

set_option autoImplicit false

namespace Promotion.Yaml.QuotedScalar

/-- The value of a hexadecimal digit. -/
def hexDigit? (c : Char) : Option Nat :=
  if c.isDigit then some (c.toNat - '0'.toNat)
  else if 'a' ≤ c && c ≤ 'f' then some (c.toNat - 'a'.toNat + 10)
  else if 'A' ≤ c && c ≤ 'F' then some (c.toNat - 'A'.toNat + 10)
  else none

/-- The value of exactly `count` hexadecimal digits at the start of a text. -/
def hexValue? : Nat → Nat → List Char → Option Nat
  | 0, n, _ => some n
  | _ + 1, _, [] => none
  | count + 1, n, c :: rest =>
    match hexDigit? c with
    | none => none
    | some d => hexValue? count (16 * n + d) rest

/-- The character of a code point. -/
def charOf? (n : Nat) : Option Char :=
  if n < 0xD800 || (0xDFFF < n && n ≤ 0x10FFFF) then some (Char.ofNat n) else none

/-- The character of an escape of one letter. -/
def escaped? (c : Char) : Option Char :=
  match c with
  | '0' => some '\x00'
  | 'a' => some '\x07'
  | 'b' => some '\x08'
  | 't' => some '\t'
  | '\t' => some '\t'
  | 'n' => some '\n'
  | 'v' => some '\x0b'
  | 'f' => some '\x0c'
  | 'r' => some '\r'
  | 'e' => some '\x1b'
  | ' ' => some ' '
  | '"' => some '"'
  | '/' => some '/'
  | '\\' => some '\\'
  | 'N' => some '\u0085'
  | '_' => some '\u00a0'
  | 'L' => some '\u2028'
  | 'P' => some '\u2029'
  | _ => none

/-- The number of hexadecimal digits after a letter that starts a numeric
escape. -/
def hexWidth? (c : Char) : Option Nat :=
  match c with
  | 'x' => some 2
  | 'u' => some 4
  | 'U' => some 8
  | _ => none

/-- The character of the escape after a backslash, and the cursor after it. -/
def readEscape (c : Cursor) : Except Problem (Char × Cursor) :=
  match c.rest with
  | [] => c.problem "found unexpected end of stream"
  | b :: rest =>
    match escaped? b with
    | some d => .ok (d, c.skip)
    | none =>
      match hexWidth? b with
      | none => c.problem "found unknown escape character"
      | some width =>
        match (hexValue? width 0 rest).bind charOf? with
        | none => c.problem "found invalid escape code"
        | some d => .ok (d, c.skipMany (width + 1))

/-- Reads on from a place inside the scalar; `done` is the text so far in
reverse. The fuel is the length of the text. -/
def readFrom (quote : Char) : Nat → List Char → Cursor → Except Problem (List Char × Cursor)
  | 0, _, c => c.problem "found unexpected end of stream"
  | fuel + 1, done, c =>
    match c.rest with
    | [] => c.problem "found unexpected end of stream"
    | b :: rest =>
      if b = quote then
        if quote = '\'' && rest.head? = some '\'' then
          readFrom quote fuel ('\'' :: done) (c.skipMany 2)
        else .ok (done.reverse, c.skip)
      else if isBlank b || isBreak b then fold {} c fuel done
      else if b = '\\' && quote = '"' then
        if atLineEnd rest && !rest.isEmpty then
          fold { broken := true } c.skip.skipBreak fuel done
        else match readEscape c.skip with
          | .error e => .error e
          | .ok (d, c) => readFrom quote fuel (d :: done) c
      else readFrom quote fuel (b :: done) c.skip
where
  /-- Reads white space and goes on after it. -/
  fold (f : Folding) (c : Cursor) (fuel : Nat) (done : List Char) :
      Except Problem (List Char × Cursor) :=
    match Folding.read 0 c.rest.length f c with
    | .error e => .error e
    | .ok (f, c) =>
      if c.atDocument then c.problem "found unexpected document indicator"
      else readFrom quote fuel (f.text.reverse ++ done) c

/-- Reads a scalar that starts with `quote`. -/
def read (quote : Char) (c : Cursor) : Except Problem (List Char × Cursor) :=
  readFrom quote (c.rest.length + 1) [] c.skip

end Promotion.Yaml.QuotedScalar
