import Promotion.Yaml.Token
import Promotion.Yaml.Resolve

/-!
# `Promotion.Yaml.Printer`: writing YAML

A list of records is written in block style, one entry to a line. A text is
written plainly where that reads back as the same text. A text of several
lines is written as a literal block where such a block can hold it; others
stand between single quotation marks, or, where these cannot hold a
character, between double ones with escapes. Lines are never folded.
-/

set_option autoImplicit false

namespace Promotion.Yaml.Printer

/-- Whether a character can be written as it is. -/
def isPrintable (c : Char) : Bool :=
  let n := c.toNat
  n == 0x0A || (0x20 ≤ n && n ≤ 0x7E) || (0xA0 ≤ n && n ≤ 0xFFFD && n != 0xFEFF) || 0x10000 ≤ n

/-- Characters that mean something at the start of a plain scalar. -/
def startIndicators : List Char := "#,[]\x7b\x7d&*!|>'\"%@`".toList

/-- Characters that mean something at the start of a plain scalar when a gap
follows. -/
def gapIndicators : List Char := ['?', ':', '-']

/-- The pairs of neighbours in a text. -/
def neighbours (s : List Char) : List (Char × Char) := s.zip (s.drop 1)

/-- Whether a colon before a gap follows the first character. -/
def hasValueMark : List Char → Bool
  | [] => false
  | _ :: rest => go rest
where
  /-- Whether there is a colon before a gap. -/
  go : List Char → Bool
    | [] => false
    | c :: rest => (c = ':' && atGap rest) || go rest

/-- Whether something in the text would end or change a plain scalar. -/
def hasIndicator (s : List Char) : Bool :=
  ['-', '-', '-'].isPrefixOf s || ['.', '.', '.'].isPrefixOf s
    || (match s with
      | c :: rest => startIndicators.contains c || (gapIndicators.contains c && atGap rest)
      | [] => false)
    || hasValueMark s
    || (neighbours s).any fun (c, d) => (isBlank c || isBreak c) && d = '#'

/-- Whether the text starts or ends with a space or line break. -/
def hasOuterGap (s : List Char) : Bool :=
  let isGap (c : Char) : Bool := c = ' ' || isBreak c
  s.head?.any isGap || s.getLast?.any isGap

/-- Whether every character can be written as it is, and no space stands
before a line break. -/
def isClean (s : List Char) : Bool :=
  s.all isPrintable && !(neighbours s).any fun (c, d) => c = ' ' && isBreak d

/-- Whether the text can be a plain scalar. -/
def plainAllowed (s : List Char) : Bool :=
  isClean s && !hasOuterGap s && !s.any isBreak && !hasIndicator s

/-- Whether the text can stand between single quotation marks. -/
def singleAllowed (s : List Char) : Bool :=
  isClean s && !(neighbours s).any fun (c, d) => isBreak c && d = ' '

/-- Whether the text can be a literal block. -/
def literalAllowed (s : List Char) : Bool :=
  !s.isEmpty && isClean s && s.getLast? != some ' '

/-- Whether a plain scalar with this text would be another value, or looks
like a number with a zero in front. -/
def isAmbiguous (s : String) : Bool :=
  match resolve? s with
  | some (.text _) => hasLeadingZero s.toList
  | _ => true

/-- How a text is written. -/
def styleOf (s : String) : Style :=
  let chars := s.toList
  if chars.contains '\n' then (if literalAllowed chars then .literal else .doubleQuoted)
  else if !isAmbiguous s && plainAllowed chars then .plain
  else if singleAllowed chars then .singleQuoted
  else .doubleQuoted

/-- The indentation of the lines of a text. -/
def margin : List Char := [' ', ' ', ' ', ' ']

/-- The characters of a text between single quotation marks. A line that
follows a line break is indented. -/
def singleQuotedFrom (broken : Bool) : List Char → List Char
  | [] => if broken then margin else []
  | c :: rest =>
    if isBreak c then c :: singleQuotedFrom true rest
    else if c = ' ' then c :: singleQuotedFrom broken rest
    else (if broken then margin else []) ++ (if c = '\'' then ['\'', '\''] else [c])
      ++ singleQuotedFrom false rest

/-- A hexadecimal digit, in upper case. -/
def hexDigit (n : Nat) : Char := (Nat.digitChar (n % 16)).toUpper

/-- The last `count` hexadecimal digits of a number. -/
def hexDigits : Nat → Nat → List Char
  | 0, _ => []
  | count + 1, n => hexDigits count (n / 16) ++ [hexDigit n]

/-- What stands after the backslash of an escape. -/
def escapeOf (c : Char) : List Char :=
  match c with
  | '\x00' => ['0']
  | '\x07' => ['a']
  | '\x08' => ['b']
  | '\t' => ['t']
  | '\n' => ['n']
  | '\x0b' => ['v']
  | '\x0c' => ['f']
  | '\r' => ['r']
  | '\x1b' => ['e']
  | '"' => ['"']
  | '\\' => ['\\']
  | '\u0085' => ['N']
  | '\u2028' => ['L']
  | '\u2029' => ['P']
  | c =>
    if c.toNat ≤ 0xFF then 'x' :: hexDigits 2 c.toNat
    else if c.toNat ≤ 0xFFFF then 'u' :: hexDigits 4 c.toNat
    else 'U' :: hexDigits 8 c.toNat

/-- A character between double quotation marks. -/
def doubleQuotedChar (c : Char) : List Char :=
  if !isPrintable c || isBreak c || c = '"' || c = '\\' then '\\' :: escapeOf c else [c]

/-- The lines of a literal block, from the start of a line if `fresh`. -/
def literalFrom (fresh : Bool) : List Char → List Char
  | [] => []
  | c :: rest =>
    if isBreak c then c :: literalFrom true rest
    else (if fresh then margin else []) ++ c :: literalFrom false rest

/-- The header of a literal block: the indentation where the text does not
show it, and what becomes of the line breaks at the end. -/
def literalHeader (s : List Char) : List Char :=
  let indentation := if s.head?.any fun c => c = ' ' || isBreak c then ['2'] else []
  let chomping := match s.reverse with
    | [] => ['-']
    | [c] => if isBreak c then ['+'] else ['-']
    | c :: d :: _ => if !isBreak c then ['-'] else if isBreak d then ['+'] else []
  '|' :: (indentation ++ chomping)

/-- A text as the value of an entry. -/
def textOf (s : String) : List Char :=
  let chars := s.toList
  match styleOf s with
  | .plain => chars
  | .singleQuoted => '\'' :: (singleQuotedFrom false chars ++ ['\''])
  | .doubleQuoted => '"' :: (chars.flatMap doubleQuotedChar ++ ['"'])
  | _ => literalHeader chars ++ '\n' :: literalFrom true chars

/-- A text, truth value, whole number or nothing as the value of an entry. -/
def scalarOf : Value → List Char
  | .text s => textOf s
  | .bool b => if b then "true".toList else "false".toList
  | .int n => (toString n).toList
  | _ => "null".toList

/-- The end of a line, unless it is there already: a literal block may end in
any line break. -/
def endLine (s : List Char) : List Char :=
  if s.getLast?.any isBreak then s else s ++ ['\n']

/-- The entry of a record. -/
def entryLine (entry : String × Value) : List Char :=
  endLine (entry.1.toList ++ ':' :: ' ' :: scalarOf entry.2)

/-- A record as an item of the list. -/
def recordLines : List (String × Value) → List Char
  | [] => "- \x7b\x7d\n".toList
  | entry :: rest =>
    '-' :: ' ' :: (entryLine entry ++ rest.flatMap fun e => ' ' :: ' ' :: entryLine e)

/-- A list of records. -/
def records (rs : List (List (String × Value))) : List Char :=
  if rs.isEmpty then "[]\n".toList else rs.flatMap recordLines

end Promotion.Yaml.Printer
