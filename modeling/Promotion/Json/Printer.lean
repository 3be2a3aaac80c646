import Promotion.Document.Value

/-!
# `Promotion.Json.Printer`: writing JSON

Values are written on several lines, two spaces further in at each level;
empty lists and mappings stay on one line. `compact` writes on a single
line without spaces. Strings keep all characters but the quotation mark,
the backslash and control characters, which are escaped.
-/

set_option autoImplicit false

namespace Promotion.Json

/-- A hexadecimal digit, in lower case. -/
def hexDigit (n : Nat) : Char := Nat.digitChar (n % 16)

/-- A character inside a string. -/
def escapeChar (c : Char) : List Char :=
  if c = '"' then ['\\', '"']
  else if c = '\\' then ['\\', '\\']
  else if c = '\x08' then ['\\', 'b']
  else if c = '\x0c' then ['\\', 'f']
  else if c = '\n' then ['\\', 'n']
  else if c = '\r' then ['\\', 'r']
  else if c = '\t' then ['\\', 't']
  else if c.toNat < 0x20 then
    ['\\', 'u', '0', '0', hexDigit (c.toNat / 16), hexDigit c.toNat]
  else [c]

/-- A string in quotation marks. -/
def quote (s : List Char) : List Char := '"' :: (s.flatMap escapeChar ++ ['"'])

/-- A string, number or word. Lists and mappings have no such text. -/
def scalar : Value → List Char
  | .null => ['n', 'u', 'l', 'l']
  | .bool b => if b then ['t', 'r', 'u', 'e'] else ['f', 'a', 'l', 's', 'e']
  | .int n => (toString n).toList
  | .float x => x.compact.toList
  | .text s => quote s.toList
  | _ => []

/-- A new line, indented to a level. -/
def newLine (level : Nat) : List Char := '\n' :: List.replicate (2 * level) ' '

mutual

/-- A value whose first line is indented to `level`. A tag is left out. -/
def lines (level : Nat) : Value → List Char
  | .list [] => ['[', ']']
  | .list (v :: rest) =>
    '[' :: (newLine (level + 1) ++ lines (level + 1) v ++ itemLines (level + 1) rest
      ++ newLine level ++ [']'])
  | .map [] => ['\x7b', '\x7d']
  | .map ((k, v) :: rest) =>
    '\x7b' :: (newLine (level + 1) ++ scalar k ++ [':', ' '] ++ lines (level + 1) v
      ++ entryLines (level + 1) rest ++ newLine level ++ ['\x7d'])
  | .tagged _ v => lines level v
  | v => scalar v

/-- The items of a list after the first. -/
def itemLines (level : Nat) : List Value → List Char
  | [] => []
  | v :: rest => ',' :: (newLine level ++ lines level v ++ itemLines level rest)

/-- The entries of a mapping after the first. -/
def entryLines (level : Nat) : List (Value × Value) → List Char
  | [] => []
  | (k, v) :: rest =>
    ',' :: (newLine level ++ scalar k ++ [':', ' '] ++ lines level v ++ entryLines level rest)

end

mutual

/-- A value on a single line. -/
def compact : Value → List Char
  | .list [] => ['[', ']']
  | .list (v :: rest) => '[' :: (compact v ++ compactItems rest ++ [']'])
  | .map [] => ['\x7b', '\x7d']
  | .map ((k, v) :: rest) =>
    '\x7b' :: (scalar k ++ [':'] ++ compact v ++ compactEntries rest ++ ['\x7d'])
  | .tagged _ v => compact v
  | v => scalar v

/-- The items of a list after the first, on the same line. -/
def compactItems : List Value → List Char
  | [] => []
  | v :: rest => ',' :: (compact v ++ compactItems rest)

/-- The entries of a mapping after the first, on the same line. -/
def compactEntries : List (Value × Value) → List Char
  | [] => []
  | (k, v) :: rest => ',' :: (scalar k ++ [':'] ++ compact v ++ compactEntries rest)

end

end Promotion.Json
