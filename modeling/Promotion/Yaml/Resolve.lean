import Promotion.Document.Value

/-!
# `Promotion.Yaml.Resolve`: what plain scalars mean

A plain scalar that is written like nothing, a truth value or a number is
that value; every other one is a text. A row of digits that starts with a
zero is a text as well.

* `resolve`: the value of a plain scalar.
* `nullOf?`, `boolOf?`, `intOf?`, `floatOf?`: the readings on their own.
-/

set_option autoImplicit false

namespace Promotion.Yaml

open Promotion.Decimal (Binary64)

/-- The value of a digit in a base of at most 16. -/
def digitOf? (base : Nat) (c : Char) : Option Nat :=
  let n :=
    if c.isDigit then some (c.toNat - '0'.toNat)
    else if 'a' ≤ c && c ≤ 'f' then some (c.toNat - 'a'.toNat + 10)
    else if 'A' ≤ c && c ≤ 'F' then some (c.toNat - 'A'.toNat + 10)
    else none
  n.filter (· < base)

/-- The value of a row of at least one digit. -/
def digitsOf? (base : Nat) (s : List Char) : Option Nat :=
  if s.isEmpty then none
  else s.foldl (fun n c => match n, digitOf? base c with
    | some n, some d => some (base * n + d)
    | _, _ => none) (some 0)

/-- The text without a sign at its start. -/
def unsigned (s : List Char) : List Char :=
  match s with
  | '+' :: rest => rest
  | '-' :: rest => rest
  | s => s

/-- Whether a scalar is a row of digits with a zero in front, which is no
number. -/
def hasLeadingZero (s : List Char) : Bool :=
  match unsigned s with
  | '0' :: c :: rest => (c :: rest).all Char.isDigit
  | _ => false

/-- Whether a scalar stands for nothing. -/
def nullOf? (s : String) : Option Value :=
  if s = "" || s = "~" || s = "null" || s = "Null" || s = "NULL" then some .null else none

/-- The truth value of a scalar. -/
def boolOf? (s : String) : Option Value :=
  if s = "true" || s = "True" || s = "TRUE" then some (.bool true)
  else if s = "false" || s = "False" || s = "FALSE" then some (.bool false)
  else none

/-- The digits after the mark of a base. -/
def basedDigits? : List Char → Option Nat
  | '0' :: 'x' :: rest => digitsOf? 16 rest
  | '0' :: 'o' :: rest => digitsOf? 8 rest
  | '0' :: 'b' :: rest => digitsOf? 2 rest
  | _ => none

/-- The size of a number that is written without its sign. -/
def magnitude? (s : List Char) : Option Nat :=
  match basedDigits? s with
  | some n => some n
  | none => if hasLeadingZero s then none else digitsOf? 10 s

/-- A whole number of any size. -/
def wholeOf? (s : String) : Option Int :=
  match s.toList with
  | '-' :: rest => (magnitude? rest).map fun n => -(n : Int)
  | '+' :: rest => (magnitude? rest).map fun n => (n : Int)
  | rest => (magnitude? rest).map fun n => (n : Int)

/-- How a scalar reads as a whole number. -/
inductive Whole where
  /-- It is one of 64 bits. -/
  | fits (n : Int)
  /-- It is one of 128 bits, which no value can hold. -/
  | tooLarge
  deriving DecidableEq, Repr

/-- The reading of a scalar as a whole number of at most 128 bits. -/
def intOf? (s : String) : Option Whole :=
  match wholeOf? s with
  | none => none
  | some n =>
    if -Int.pow 2 63 ≤ n && n < Int.pow 2 64 then some (.fits n)
    else if -Int.pow 2 127 ≤ n && n < Int.pow 2 128 then some .tooLarge
    else none

/-- A decimal: digits, a fraction and an exponent, of which the digits or the
fraction may be empty. -/
def decimalOf? (negative : Bool) (s : List Char) : Option Binary64 :=
  let whole := s.takeWhile Char.isDigit
  let rest := s.dropWhile Char.isDigit
  let (fraction, rest) := match rest with
    | '.' :: rest => (rest.takeWhile Char.isDigit, rest.dropWhile Char.isDigit)
    | rest => ([], rest)
  let exponent? : Option Int := match rest with
    | [] => some 0
    | e :: rest =>
      if e = 'e' || e = 'E' then
        match rest with
        | '-' :: digits => (digitsOf? 10 digits).map fun n => -(n : Int)
        | '+' :: digits => (digitsOf? 10 digits).map fun n => (n : Int)
        | digits => (digitsOf? 10 digits).map fun n => (n : Int)
      else none
  match digitsOf? 10 (whole ++ fraction), exponent? with
  | some digits, some exponent =>
    some (Binary64.ofDecimal negative digits (exponent - fraction.length))
  | _, _ => none

/-- The floating-point number of a scalar; one that is out of range is none. -/
def floatOf? (s : String) : Option Binary64 :=
  let special (s : List Char) : Option Binary64 :=
    if s ∈ [".inf", ".Inf", ".INF"].map String.toList then some (.infinite false) else none
  if s = ".nan" || s = ".NaN" || s = ".NAN" then some .nan
  else
    let x := match s.toList with
      | '+' :: '+' :: _ => none
      | '+' :: '-' :: _ => none
      | '+' :: rest => (special rest).or ((decimalOf? false rest).filter (!·.isInfinite))
      | '-' :: rest =>
        ((special rest).map Binary64.neg).or ((decimalOf? true rest).filter (!·.isInfinite))
      | rest => (special rest).or ((decimalOf? false rest).filter (!·.isInfinite))
    x

/-- The value of a plain scalar; a whole number that no value can hold is
none. -/
def resolve? (s : String) : Option Value :=
  match nullOf? s, boolOf? s, intOf? s with
  | some v, _, _ => some v
  | none, some v, _ => some v
  | none, none, some (.fits n) => some (.int n)
  | none, none, some .tooLarge => none
  | none, none, none =>
    if hasLeadingZero s.toList then some (.text s)
    else some (((floatOf? s).map Value.float).getD (.text s))

end Promotion.Yaml
