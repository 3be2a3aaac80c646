import Promotion.Decimal.Binary64
import Promotion.Document.Value

/-!
# `Promotion.Json.Number`: the numbers of JSON

A whole number between `-2 ^ 63` and `2 ^ 64` is kept as it is; every other
number becomes a floating-point number. Its digits are first gathered into
a whole number below `2 ^ 64`, digits that find no room being dropped, and
that is scaled by a power of ten, with a rounding at each step.
-/

set_option autoImplicit false

namespace Promotion.Json

open Promotion.Decimal (Binary64)

namespace Number

/-- Whole numbers are below this bound. -/
def bound : Nat := Nat.pow 2 64

/-- The value of a decimal digit. -/
def digit (c : Char) : Nat := c.toNat - '0'.toNat

/-- The digits gathered so far and how many powers of ten they stand for. -/
structure Gathered where
  digits : Nat
  exponent : Int

/-- Gathers the digits before the point. Once a digit finds no room, it and
those after it only count. -/
def gatherWhole (digits : Nat) : List Char → Gathered
  | [] => ⟨digits, 0⟩
  | c :: rest =>
    if 10 * digits + digit c < bound then gatherWhole (10 * digits + digit c) rest
    else ⟨digits, rest.length + 1⟩

/-- Gathers the digits after the point. Once a digit finds no room, it and
those after it are dropped. -/
def gatherFraction (g : Gathered) : List Char → Gathered
  | [] => g
  | c :: rest =>
    if 10 * g.digits + digit c < bound then
      gatherFraction ⟨10 * g.digits + digit c, g.exponent - 1⟩ rest
    else g

/-- Powers of ten beyond this one are applied in steps. -/
def greatestPower : Nat := 308

/-- Scales a number by a power of ten, or finds that it grows out of range. -/
def scale : Nat → Binary64 → Int → Option Binary64
  | 0, x, _ => some x
  | fuel + 1, x, exponent =>
    if exponent.natAbs ≤ greatestPower then
      let power := Binary64.ofDecimal false 1 exponent.natAbs
      if 0 ≤ exponent then
        let y := x.mul power
        if y.isInfinite then none else some y
      else some (x.div power)
    else if x.isZero then some x
    else if 0 ≤ exponent then none
    else scale fuel (x.div (Binary64.ofDecimal false 1 greatestPower)) (exponent + greatestPower)

/-- The floating-point number of gathered digits. Ten steps bring any number
down to zero. -/
def float? (negative : Bool) (g : Gathered) : Option Value :=
  (scale 10 (Binary64.ofNat g.digits) g.exponent).map fun x =>
    .float (if negative then x.neg else x)

/-- The value of the exponent digits; what is beyond `2 ^ 31` is out of range. -/
def exponentValue? (digits : List Char) : Option Nat :=
  let n := digits.foldl (fun n c => 10 * n + digit c) 0
  if n < Nat.pow 2 31 then some n else none

/-- The value of a whole number without fraction and exponent. -/
def whole (negative : Bool) (n : Nat) : Value :=
  if !negative then .int n
  else if 0 < n && n ≤ Nat.pow 2 63 then .int (-n)
  else .float (Binary64.ofNat n).neg

/-- A digit row and the rest of a text. -/
def digitRow (s : List Char) : List Char × List Char :=
  (s.takeWhile Char.isDigit, s.dropWhile Char.isDigit)

/-- The digits after a point, when there is a point with digits after it. -/
def fraction? : List Char → Option (Option (List Char) × List Char)
  | '.' :: rest =>
    match digitRow rest with
    | ([], _) => none
    | (digits, rest) => some (some digits, rest)
  | rest => some (none, rest)

/-- The sign and digits of an exponent, when there is one. -/
def exponent? : List Char → Option (Option (Bool × List Char) × List Char)
  | [] => some (none, [])
  | c :: rest =>
    if c = 'e' || c = 'E' then
      let (negative, rest) := match rest with
        | '-' :: rest => (true, rest)
        | '+' :: rest => (false, rest)
        | rest => (false, rest)
      match digitRow rest with
      | ([], _) => none
      | (digits, rest) => some (some (negative, digits), rest)
    else some (none, c :: rest)

/-- The number of its parts. -/
def ofParts (negative : Bool) (digits : List Char) (fraction : Option (List Char))
    (exponent : Option (Bool × List Char)) : Option Value :=
  let g := gatherWhole 0 digits
  match fraction, exponent with
  | none, none =>
    if g.exponent = 0 then some (whole negative g.digits) else float? negative g
  | _, none => float? negative (gatherFraction g (fraction.getD []))
  | _, some (down, power) =>
    let g := gatherFraction g (fraction.getD [])
    match exponentValue? power with
    | some n => float? negative ⟨g.digits, if down then g.exponent - n else g.exponent + n⟩
    | none =>
      if g.digits = 0 || down then some (.float (Binary64.zero negative)) else none

end Number

open Number in
/-- The number that a text denotes: a row of digits, without leading zeros,
then a fraction and an exponent as wanted. -/
def number? (s : List Char) : Option Value :=
  let (negative, s) := match s with
    | '-' :: rest => (true, rest)
    | rest => (false, rest)
  match digitRow s with
  | ([], _) => none
  | ('0' :: _ :: _, _) => none
  | (digits, rest) =>
    match fraction? rest with
    | none => none
    | some (fraction, rest) =>
      match exponent? rest with
      | some (exponent, []) => ofParts negative digits fraction exponent
      | _ => none

end Promotion.Json
