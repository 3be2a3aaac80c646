import Promotion.Archive.Record

/-!
# `Promotion.Archive.Tar`: records in a tape archive

A record is a header of 512 bytes, then its content, filled up with zeros to
a multiple of 512. Two blocks of zeros end the archive. A path of more than
100 bytes comes before its record, as the content of a record of its own.

* `Tar.encode`: the archive of records.
* `Tar.decode?`: the records of an archive.
-/

set_option autoImplicit false

namespace Promotion.Archive.Tar

open Promotion.Text (Bytes)

/-- Headers and contents fill a multiple of this many bytes. -/
def blockSize : Nat := 512

/-- The longest path that a header holds. -/
def pathSize : Nat := 100

/-- A number in `width` octal digits; what does not fit is dropped. -/
def octal : Nat → Nat → Bytes
  | 0, _ => []
  | width + 1, n => octal width (n / 8) ++ [UInt8.ofNat (48 + n % 8)]

/-- The number of octal digits, which a zero or a space ends. -/
def ofOctal? (bytes : Bytes) : Option Nat :=
  let digits := bytes.takeWhile fun b => b ≠ 0 && b ≠ 32
  if digits.all fun b => 48 ≤ b && b ≤ 55 then
    some (digits.foldl (fun n b => 8 * n + (b.toNat - 48)) 0)
  else none

/-- Bytes filled up with zeros to `width`; what is too long is cut. -/
def field (width : Nat) (bytes : Bytes) : Bytes :=
  bytes.take width ++ List.replicate (width - bytes.length) 0

/-- A number in `width` bytes, the highest first; what does not fit is dropped. -/
def bigEndian : Nat → Nat → Bytes
  | 0, _ => []
  | width + 1, n => bigEndian width (n / 256) ++ [UInt8.ofNat (n % 256)]

/-- The number that bytes stand for, the highest first. -/
def ofBigEndian (bytes : Bytes) : Nat := bytes.foldl (fun n b => 256 * n + b.toNat) 0

/-- The first byte of a field that holds a number in bytes and not in digits. -/
def binaryMark : UInt8 := 128

/-- A number as a field of `width` bytes: octal digits and a zero, or, where
the digits do not suffice, a mark and the number in bytes. -/
def number (width n : Nat) : Bytes :=
  if n < Nat.pow 8 (width - 1) then octal (width - 1) n ++ [0]
  else binaryMark :: bigEndian (width - 1) n

/-- The number that a field holds. -/
def ofNumber? (bytes : Bytes) : Option Nat :=
  if bytes.head? = some binaryMark then some (ofBigEndian bytes.tail) else ofOctal? bytes

/-- What a header says is in front of the content. -/
inductive Mark where
  | file
  | directory
  /-- The content is the path of the next record. -/
  | longPath
  deriving DecidableEq, Repr

namespace Mark

/-- The byte of a mark. -/
def byte : Mark → UInt8
  | file => 48
  | directory => 53
  | longPath => 76

/-- The mark of a byte. -/
def ofByte? (b : UInt8) : Option Mark :=
  if b = 48 then some .file
  else if b = 53 then some .directory
  else if b = 76 then some .longPath
  else none

/-- The mark of a kind of record. -/
def ofKind : Kind → Mark
  | .file => .file
  | .directory => .directory

end Mark

/-- The fields of a header. -/
structure Header where
  path : Bytes
  mode : Nat
  owner : Nat
  group : Nat
  size : Nat
  modified : Nat
  mark : Mark
  deriving DecidableEq, Repr

namespace Header

/-- The fields before the checksum. -/
def front (h : Header) : Bytes :=
  field pathSize h.path ++ number 8 h.mode ++ number 8 h.owner ++ number 8 h.group
    ++ number 12 h.size ++ number 12 h.modified

/-- The bytes after the fields: which dialect the header is written in. -/
def dialect : Bytes := Text.bytesOf "ustar  "

/-- The fields after the checksum. -/
def back (h : Header) : Bytes :=
  field (blockSize - 156) (h.mark.byte :: field 100 [] ++ dialect)

/-- The sum of the bytes of a header, the checksum itself taken as spaces. -/
def sum (front back : Bytes) : Nat :=
  let total (bytes : Bytes) : Nat := bytes.foldl (fun n b => n + b.toNat) 0
  total front + 8 * 32 + total back

/-- The bytes of a header. -/
def encode (h : Header) : Bytes :=
  h.front ++ octal 6 (sum h.front h.back) ++ [0, 32] ++ h.back

/-- The bytes of `bytes` from `start` on, `size` of them. -/
def slice (bytes : Bytes) (start size : Nat) : Bytes := (bytes.drop start).take size

/-- The header of a block, if the checksum is right. -/
def decode? (bytes : Bytes) : Option Header := do
  let checksum ← ofOctal? (slice bytes 148 8)
  if checksum ≠ sum (bytes.take 148) (bytes.drop 156) then none
  let mode ← ofNumber? (slice bytes 100 8)
  let owner ← ofNumber? (slice bytes 108 8)
  let group ← ofNumber? (slice bytes 116 8)
  let size ← ofNumber? (slice bytes 124 12)
  let modified ← ofNumber? (slice bytes 136 12)
  let mark ← (bytes[156]?).bind Mark.ofByte?
  return ⟨(bytes.take pathSize).takeWhile (· ≠ 0), mode, owner, group, size, modified, mark⟩

end Header

/-- The number of bytes that fill up content of a size. -/
def padding (size : Nat) : Nat := (blockSize - size % blockSize) % blockSize

/-- Content filled up to a multiple of a block. -/
def padded (content : Bytes) : Bytes := content ++ List.replicate (padding content.length) 0

/-- The path that stands in the header of a record that only holds a path. -/
def longPathName : Bytes := Text.bytesOf "././@LongLink"

/-- What comes before a record with a path that its header cannot hold. -/
def longPath (path : Bytes) : Bytes :=
  if path.length ≤ pathSize then []
  else Header.encode ⟨longPathName, 0o644, 0, 0, path.length + 1, 0, .longPath⟩
    ++ padded (path ++ [0])

/-- The bytes of a record. -/
def encodeRecord (r : Record) : Bytes :=
  longPath r.path
    ++ Header.encode ⟨r.path, r.mode, r.owner, r.group, r.content.length, r.modified,
      .ofKind r.kind⟩
    ++ padded r.content

/-- The end of an archive. -/
def ending : Bytes := List.replicate (2 * blockSize) 0

/-- The archive of records. -/
def encode (records : List Record) : Bytes := records.flatMap encodeRecord ++ ending

/-- Reads the records of an archive; `long` is the path that came before the
next record. -/
def readRecords? (long : Option Bytes) (bytes : Bytes) : Option (List Record) :=
  if bytes.length < blockSize then none
  else
    let block := bytes.take blockSize
    let rest := bytes.drop blockSize
    if block.all (· = 0) then some []
    else match Header.decode? block with
      | none => none
      | some h =>
        if rest.length < h.size then none
        else
          let content := rest.take h.size
          let next := rest.drop (h.size + padding h.size)
          let record (kind : Kind) : Record :=
            ⟨long.getD h.path, kind, h.mode, h.owner, h.group, h.modified, content⟩
          match h.mark with
          | .longPath => readRecords? (some (content.takeWhile (· ≠ 0))) next
          | .file => (readRecords? none next).map (record .file :: ·)
          | .directory => (readRecords? none next).map (record .directory :: ·)
  termination_by bytes.length
  decreasing_by
    all_goals
      simp only [List.length_drop, blockSize] at *
      omega

/-- The records of an archive. -/
def decode? (bytes : Bytes) : Option (List Record) := readRecords? none bytes

end Promotion.Archive.Tar
