import Promotion.Json.Number

/-!
# `Promotion.Json.Token`: the tokens of JSON

A text is cut into brackets, separators, strings, numbers and words. The
lexer goes through the text once, one character at a time; its state says
what it is in the middle of.
-/

set_option autoImplicit false

namespace Promotion.Json

/-- A token. Words and numbers are values already. -/
inductive Token where
  | openList
  | closeList
  | openMap
  | closeMap
  | colon
  | comma
  | value (v : Value)
  deriving Repr

namespace Token

/-- What the lexer is in the middle of. Characters read are kept in reverse. -/
inductive State where
  /-- Between tokens. -/
  | between
  /-- In a word of letters. -/
  | word (read : List Char)
  /-- In a number. -/
  | number (read : List Char)
  /-- In a string. -/
  | string (read : List Char)
  /-- After a backslash in a string. -/
  | escape (read : List Char)
  /-- In the four digits of an escape, `count` of them still to come; `high` is
  the first half of a surrogate pair that the escape completes. -/
  | hex (read : List Char) (high : Option Nat) (count code : Nat)
  /-- After the first half of a surrogate pair, before the backslash. -/
  | pair (read : List Char) (high : Nat)
  /-- After that backslash. -/
  | pairEscape (read : List Char) (high : Nat)
  deriving Repr

/-- White space between tokens. -/
def isSpace (c : Char) : Bool := c = ' ' || c = '\n' || c = '\t' || c = '\r'

/-- The characters that numbers are made of. -/
def isNumeric (c : Char) : Bool :=
  c.isDigit || c = '-' || c = '+' || c = '.' || c = 'e' || c = 'E'

/-- The value of a hexadecimal digit. -/
def hexDigit? (c : Char) : Option Nat :=
  if c.isDigit then some (c.toNat - '0'.toNat)
  else if 'a' ≤ c && c ≤ 'f' then some (c.toNat - 'a'.toNat + 10)
  else if 'A' ≤ c && c ≤ 'F' then some (c.toNat - 'A'.toNat + 10)
  else none

/-- The value of a word. -/
def word? (s : List Char) : Option Value :=
  if s = ['n', 'u', 'l', 'l'] then some .null
  else if s = ['t', 'r', 'u', 'e'] then some (.bool true)
  else if s = ['f', 'a', 'l', 's', 'e'] then some (.bool false)
  else none

/-- The character of a one-letter escape. -/
def escaped? (c : Char) : Option Char :=
  match c with
  | '"' => some '"'
  | '\\' => some '\\'
  | '/' => some '/'
  | 'b' => some '\x08'
  | 'f' => some '\x0c'
  | 'n' => some '\n'
  | 'r' => some '\r'
  | 't' => some '\t'
  | _ => none

/-- The state after the last digit of an escape. -/
def unit (read : List Char) (high : Option Nat) (code : Nat) : Option State :=
  match high with
  | none =>
    if 0xD800 ≤ code && code < 0xDC00 then some (.pair read code)
    else if 0xDC00 ≤ code && code < 0xE000 then none
    else some (.string (Char.ofNat code :: read))
  | some high =>
    if 0xDC00 ≤ code && code < 0xE000 then
      some (.string (Char.ofNat (0x10000 + (high - 0xD800) * 0x400 + (code - 0xDC00)) :: read))
    else none

/-- The state and the token after a character that stands between tokens. -/
def start (c : Char) : Option (State × List Token) :=
  if isSpace c then some (.between, [])
  else match c with
    | '[' => some (.between, [openList])
    | ']' => some (.between, [closeList])
    | '\x7b' => some (.between, [openMap])
    | '\x7d' => some (.between, [closeMap])
    | ':' => some (.between, [colon])
    | ',' => some (.between, [comma])
    | '"' => some (.string [], [])
    | c =>
      if c.isAlpha then some (.word [c], [])
      else if isNumeric c then some (.number [c], [])
      else none

/-- The token that a word or number ends as. -/
def close : State → Option (List Token)
  | .between => some []
  | .word read => (word? read.reverse).map fun v => [value v]
  | .number read => (number? read.reverse).map fun v => [value v]
  | _ => none

/-- The state after one more character, and the tokens that it completes. -/
def step (state : State) (c : Char) : Option (State × List Token) :=
  let finish : Option (State × List Token) :=
    match close state, start c with
    | some before, some (next, after) => some (next, before ++ after)
    | _, _ => none
  match state with
  | .between => start c
  | .word read => if c.isAlpha then some (.word (c :: read), []) else finish
  | .number read => if isNumeric c then some (.number (c :: read), []) else finish
  | .string read =>
    if c = '"' then some (.between, [value (.text (String.ofList read.reverse))])
    else if c = '\\' then some (.escape read, [])
    else if c.toNat < 0x20 then none
    else some (.string (c :: read), [])
  | .escape read =>
    if c = 'u' then some (.hex read none 4 0, [])
    else (escaped? c).map fun d => (.string (d :: read), [])
  | .hex read high count code =>
    match hexDigit? c with
    | none => none
    | some d =>
      if count ≤ 1 then (unit read high (16 * code + d)).map fun s => (s, [])
      else some (.hex read high (count - 1) (16 * code + d), [])
  | .pair read high => if c = '\\' then some (.pairEscape read high, []) else none
  | .pairEscape read high => if c = 'u' then some (.hex read (some high) 4 0, []) else none

/-- The tokens of a text that is read on from a state. -/
def scan (state : State) : List Char → Option (List Token)
  | [] => close state
  | c :: rest =>
    match step state c with
    | none => none
    | some (next, tokens) => (scan next rest).map (tokens ++ ·)

/-- The tokens of a text. -/
def ofText? (s : List Char) : Option (List Token) := scan .between s

end Token

end Promotion.Json
