import Promotion.Archive.Checksum

/-!
# `Promotion.Archive.Gzip`: bytes in a gzip member

A member is a header, blocks and a trailer with the checksum and the length
of the bytes. The blocks are stored blocks: each holds up to 65535 bytes as
they are.

* `Gzip.encode`: the member of bytes.
* `Gzip.decode?`: the bytes of a member of stored blocks.
-/

set_option autoImplicit false

namespace Promotion.Archive.Gzip

open Promotion.Text (Bytes)

/-- A number in `width` bytes, the lowest first; what does not fit is dropped. -/
def littleEndian : Nat → Nat → Bytes
  | 0, _ => []
  | width + 1, n => UInt8.ofNat (n % 256) :: littleEndian width (n / 256)

/-- The number that bytes stand for, the lowest first. -/
def ofLittleEndian (bytes : Bytes) : Nat := bytes.foldr (fun b n => b.toNat + 256 * n) 0

/-- The header: the marks of gzip and of its method, no flags, no time, no
hint, and a system that is not told. -/
def header : Bytes := [0x1F, 0x8B, 8, 0, 0, 0, 0, 0, 0, 0xFF]

/-- The most bytes that a stored block holds. -/
def blockLimit : Nat := 65535

/-- A stored block. -/
def block (last : Bool) (bytes : Bytes) : Bytes :=
  (if last then 1 else 0) :: littleEndian 2 bytes.length
    ++ littleEndian 2 (blockLimit - bytes.length) ++ bytes

/-- The blocks of bytes; even no bytes have a block. -/
def blocks (bytes : Bytes) : Bytes :=
  if bytes.length ≤ blockLimit then block true bytes
  else block false (bytes.take blockLimit) ++ blocks (bytes.drop blockLimit)
  termination_by bytes.length
  decreasing_by
    simp only [List.length_drop, blockLimit] at *
    omega

/-- The checksum and the length of bytes. -/
def trailer (bytes : Bytes) : Bytes :=
  littleEndian 4 (checksum bytes).toNat ++ littleEndian 4 bytes.length

/-- The member of bytes. -/
def encode (bytes : Bytes) : Bytes := header ++ blocks bytes ++ trailer bytes

/-- Reads stored blocks: their bytes, and what follows the last one. -/
def readBlocks? (bytes : Bytes) : Option (Bytes × Bytes) :=
  match bytes with
  | mark :: l₀ :: l₁ :: c₀ :: c₁ :: rest =>
    let length := ofLittleEndian [l₀, l₁]
    if mark.toNat ≤ 1 && length + ofLittleEndian [c₀, c₁] == blockLimit
        && length ≤ rest.length then
      if mark = 1 then some (rest.take length, rest.drop length)
      else (readBlocks? (rest.drop length)).map fun r => (rest.take length ++ r.1, r.2)
    else none
  | _ => none
  termination_by bytes.length
  decreasing_by
    simp only [List.length_drop, List.length_cons]
    omega

/-- The bytes of a member that is made of stored blocks. -/
def decode? (bytes : Bytes) : Option Bytes :=
  if header.isPrefixOf bytes then
    match readBlocks? (bytes.drop header.length) with
    | some (content, rest) => if rest = trailer content then some content else none
    | none => none
  else none

end Promotion.Archive.Gzip
