import Promotion.Text.Utf8

/-!
# `Promotion.Archive.Checksum`: the cyclic redundancy check of gzip

The bits of a message, lowest first, are the coefficients of a polynomial
over two elements; the check is its remainder modulo a fixed polynomial,
with all bits turned over before and after.
-/

set_option autoImplicit false

namespace Promotion.Archive

open Promotion.Text (Bytes)

/-- The fixed polynomial, lowest power in the highest bit. -/
def checkPolynomial : UInt32 := 0xEDB88320

/-- Moves the remainder on by one bit. -/
def checkBit (remainder : UInt32) : UInt32 :=
  if remainder &&& 1 = 1 then (remainder >>> 1) ^^^ checkPolynomial else remainder >>> 1

/-- Moves the remainder on by one byte. -/
def checkByte (remainder : UInt32) (b : UInt8) : UInt32 :=
  (List.range 8).foldl (fun r _ => checkBit r) (remainder ^^^ b.toUInt32)

/-- The check of bytes. -/
def checksum (bytes : Bytes) : UInt32 := (bytes.foldl checkByte 0xFFFFFFFF) ^^^ 0xFFFFFFFF

end Promotion.Archive
