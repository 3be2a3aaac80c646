import Promotion.Digest.Blake3

/-!
# `Promotion.Digest.Stream`: digests of files

A file is read piece by piece into a buffer, and what each read brought is
fed to a hash function. The digest is the hash of all bytes in hexadecimal
digits.

* `Hasher`: a hash function that is fed piece by piece; `blake3` is one.
* `Hasher.digestOfReads`: the digest of a file that is read in given pieces.
* `digestOf`: the digest of bytes, read in pieces as large as the buffer.
-/

set_option autoImplicit false

namespace Promotion.Digest

open Promotion.Text (Bytes)

/-- What stands in front of the digits of a digest. -/
def start : String := "blake3:"

/-- The size of the buffer. -/
def bufferSize : Nat := 8192

/-- The two hexadecimal digits of a byte. -/
def hexByte (b : UInt8) : List Char :=
  [Nat.digitChar (b.toNat / 16), Nat.digitChar (b.toNat % 16)]

/-- Bytes in hexadecimal digits. -/
def hex (bytes : Bytes) : String := String.ofList (bytes.flatMap hexByte)

/-- The buffer after a read: the bytes read, as far as there is room for them,
then what was there before. -/
def fill (buffer piece : Bytes) : Bytes :=
  piece.take buffer.length ++ buffer.drop piece.length

/-- A hash function that is fed piece by piece: the state at the start, what a
piece makes of a state, and the hash of what has been fed. -/
structure Hasher where
  State : Type
  new : State
  update : State → Bytes → State
  finish : State → Vector UInt8 32

namespace Hasher

variable (H : Hasher)

/-- Feeds the reads of a file, up to the first one that brings nothing; of the
buffer only what was just read counts. -/
def feed (state : H.State) (buffer : Bytes) : List Bytes → H.State
  | [] => state
  | piece :: rest =>
    if piece.isEmpty then state
    else
      let buffer := fill buffer piece
      feed (H.update state (buffer.take piece.length)) buffer rest

/-- The digest of a file that is read in pieces. -/
def digestOfReads (pieces : List Bytes) : String :=
  start ++ hex (H.finish (H.feed H.new (List.replicate bufferSize 0) pieces)).toList

end Hasher

/-- BLAKE3, with the bytes fed so far as its state. -/
def blake3 : Hasher where
  State := Bytes
  new := []
  update fed piece := fed ++ piece
  finish fed := ⟨(Blake3.hash fed).toArray, by rw [List.size_toArray, Blake3.length_hash]⟩

/-- The reads of a file that fill the buffer each time, except perhaps the
last one. -/
def fullReads (content : Bytes) : List Bytes := Blake3.piecesOf (bufferSize - 1) [] content

/-- The digest of bytes. -/
def digestOf (bytes : Bytes) : String := blake3.digestOfReads (fullReads bytes)

end Promotion.Digest
