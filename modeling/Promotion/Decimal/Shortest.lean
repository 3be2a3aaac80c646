import Promotion.Decimal.Binary64

/-!
# `Promotion.Decimal.Shortest`: the fewest digits that read back

A finite floating-point number is written with the fewest decimal digits
that are nearer to it than to any other number of its kind, and the nearest
such digits where there are several. Two styles of writing them are used:

* `Binary64.plain`: always positional, `1` for one.
* `Binary64.compact`: with a decimal point (`1.0`), and with an exponent
  when the point would be far from the digits (`1e-7`).
-/

set_option autoImplicit false

namespace Promotion.Decimal

/-- The interval of values around `mantissa * 2 ^ exponent` that round to it,
with the value itself, as multiples of one over `den`. -/
structure Rounding where
  low : Nat
  value : Nat
  high : Nat
  den : Nat
  /-- Whether the ends of the interval round to the value as well. -/
  closed : Bool
  deriving Repr

namespace Rounding

/-- The interval of a finite number that is not zero. -/
def of (mantissa : Nat) (exponent : Int) : Rounding :=
  let below := if mantissa = Nat.pow 2 52 && Binary64.minExponent < exponent then 1 else 2
  let e := exponent - 2
  let scale := if 0 ≤ e then Nat.pow 2 e.toNat else 1
  { low := (4 * mantissa - below) * scale
    value := 4 * mantissa * scale
    high := (4 * mantissa + 2) * scale
    den := if 0 ≤ e then 1 else Nat.pow 2 (-e).toNat
    closed := mantissa % 2 = 0 }

/-- The interval in units of `10 ^ exponent`. -/
def inUnits (r : Rounding) (exponent : Int) : Rounding :=
  if 0 ≤ exponent then { r with den := r.den * Nat.pow 10 exponent.toNat }
  else
    let k := Nat.pow 10 (-exponent).toNat
    { r with low := r.low * k, value := r.value * k, high := r.high * k }

/-- Whether the integer `n` lies in the interval. -/
def holds (r : Rounding) (n : Nat) : Bool :=
  let x := n * r.den
  if r.closed then r.low ≤ x && x ≤ r.high else r.low < x && x < r.high

/-- Of the integers next to the value, the nearest one in the interval. -/
def nearest? (r : Rounding) : Option Nat :=
  let down := r.value / r.den
  let up := down + 1
  match r.holds down, r.holds up with
  | true, true =>
    if r.value - down * r.den < up * r.den - r.value then some down else some up
  | true, false => some down
  | false, true => some up
  | false, false => none

/-- Raises `exponent` while the next power of ten is still at most the value. -/
def raise (r : Rounding) : Nat → Int → Int
  | 0, exponent => exponent
  | fuel + 1, exponent =>
    let u := r.inUnits (exponent + 1)
    if u.den ≤ u.value then raise r fuel (exponent + 1) else exponent

/-- The exponent of the highest power of ten that is at most the value. -/
def floorLog10 (r : Rounding) : Int :=
  raise r 4 (Binary64.floorLog2 r.value r.den * 30103 / 100000 - 1)

/-- The first grid with a point in the interval, from coarse to fine: the
point and the exponent of the grid. -/
def search (r : Rounding) : Nat → Int → Nat × Int
  | 0, exponent => (r.value / r.den, exponent)
  | fuel + 1, exponent =>
    match (r.inUnits exponent).nearest? with
    | some n => (n, exponent)
    | none => search r fuel (exponent - 1)

end Rounding

/-- Moves the zeros at the end of `n` into the exponent. -/
def stripZeros : Nat → Nat → Int → Nat × Int
  | 0, n, exponent => (n, exponent)
  | fuel + 1, n, exponent =>
    if n % 10 = 0 && n ≠ 0 then stripZeros fuel (n / 10) (exponent + 1) else (n, exponent)

/-- The shortest decimal of a finite number: its digits and the exponent of
the last one. -/
def shortest (mantissa : Nat) (exponent : Int) : Nat × Int :=
  if mantissa = 0 then (0, 0)
  else
    let r := Rounding.of mantissa exponent
    let (n, e) := r.search 17 r.floorLog10
    stripZeros 20 n e

/-- Decimal digits with the last one worth `10 ^ exponent`, positionally. -/
def positional (digits : List Char) (exponent : Int) : List Char :=
  if 0 ≤ exponent then digits ++ List.replicate exponent.toNat '0'
  else
    let places := (-exponent).toNat
    if digits.length ≤ places then
      '0' :: '.' :: (List.replicate (places - digits.length) '0' ++ digits)
    else
      digits.take (digits.length - places) ++ '.' :: digits.drop (digits.length - places)

/-- A minus sign for a negative number. -/
def sign (negative : Bool) : String := if negative then "-" else ""

namespace Binary64

/-- The number in positional digits, whatever its size. -/
def plain : Binary64 → String
  | .nan => "NaN"
  | .infinite s => sign s ++ "inf"
  | .finite s m e =>
    let (n, k) := shortest m e
    sign s ++ String.ofList (positional (Nat.toDigits 10 n) k)

/-- The positional digits, with `.0` after a finite whole number. -/
def pointed (x : Binary64) : String :=
  match x with
  | .finite _ _ _ => if x.plain.contains '.' then x.plain else x.plain ++ ".0"
  | _ => x.plain

/-- The number with a decimal point, or with an exponent when the first digit
is worth `10 ^ 16` or more, or less than `10 ^ -5`. -/
def compact : Binary64 → String
  | .nan => "NaN"
  | .infinite s => sign s ++ "inf"
  | .finite s m e =>
    let (n, k) := shortest m e
    let digits := Nat.toDigits 10 n
    let point := (digits.length : Int) + k
    let text :=
      if n = 0 then ['0', '.', '0']
      else if 0 ≤ k && point ≤ 16 then positional digits k ++ ['.', '0']
      else if -5 < point && point ≤ 16 then positional digits k
      else
        let fraction := match digits.drop 1 with
          | [] => []
          | rest => '.' :: rest
        let power := point - 1
        digits.take 1 ++ fraction ++ 'e' ::
          ((if power < 0 then ['-'] else []) ++ Nat.toDigits 10 power.natAbs)
    sign s ++ String.ofList text

end Binary64

end Promotion.Decimal
