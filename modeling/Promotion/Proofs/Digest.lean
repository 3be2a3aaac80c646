import Mathlib.Data.List.Permutation
import Promotion.Digest.Store
import Promotion.Proofs.Session

/-!
# `Promotion.Proofs.Digest`: a file is hashed as a whole

A file is read in pieces, as many and as long as the reads please, into one
buffer that is never emptied. What a hash function is fed is nevertheless the
content, each byte once and in its place, so the digest does not tell how the
file was read.

* `Hasher.Lawful`: to feed a hash function two pieces is to feed it both at
  once.
* `take_fill`, `length_fill`: what a read leaves in the buffer.
* `Hasher.feed_eq_update`: feeding the reads of a file is feeding its content.
* `HexDigits`: the digits of bytes, two for each.
* `ofFile_shows_hash`: the digest of a file shows the hash of its content in
  64 digits.
-/

set_option autoImplicit false

namespace Promotion.Digest

open Promotion.Text (Bytes)

variable {H : Hasher} {pieces : List Bytes} {content buffer piece : Bytes}

/-! ### Hash functions -/

namespace Hasher

/-- It makes no difference in how many pieces a hash function is fed. -/
structure Lawful (H : Hasher) : Prop where
  update_nil : ∀ state, H.update state [] = state
  update_update : ∀ state front back,
    H.update (H.update state front) back = H.update state (front ++ back)

/-- The hash of bytes that are fed in one piece. -/
def hash (H : Hasher) (bytes : Bytes) : Bytes := (H.finish (H.update H.new bytes)).toList

/-- A hash has 32 bytes, whoever computes it. -/
theorem length_hash (H : Hasher) (bytes : Bytes) : (H.hash bytes).length = 32 := by
  rw [hash, Vector.length_toList]

end Hasher

/-- Collecting the bytes and hashing them at the end is a lawful hasher. -/
theorem blake3_lawful : blake3.Lawful where
  update_nil := List.append_nil
  update_update := List.append_assoc

/-- The hash of the collected bytes is that of all bytes. -/
theorem blake3_hash (bytes : Bytes) : blake3.hash bytes = Blake3.hash bytes := by
  simp [Hasher.hash, blake3]

/-! ### Reads -/

/-- Reads that bring a content: each one brings something, and no more than the
buffer has room for. -/
structure Splits (pieces : List Bytes) (content : Bytes) : Prop where
  flatten : pieces.flatten = content
  ne_nil : ∀ piece ∈ pieces, piece ≠ []
  length_le : ∀ piece ∈ pieces, piece.length ≤ bufferSize

/-- The pieces of some bytes put together are these bytes. -/
theorem flatten_piecesOf (n : Nat) (done : List Bytes) (bytes : Bytes) :
    (Blake3.piecesOf n done bytes).flatten = done.reverse.flatten ++ bytes := by
  fun_induction Blake3.piecesOf n done bytes with
  | case1 done => simp
  | case2 done b rest ih =>
    rw [ih, List.reverse_cons, List.flatten_concat]
    simp

/-- A piece that is cut off is not empty, and no longer than asked. -/
theorem mem_piecesOf {n : Nat} {done : List Bytes} {bytes : Bytes}
    (h : piece ∈ Blake3.piecesOf n done bytes) :
    piece ∈ done ∨ piece ≠ [] ∧ piece.length ≤ n + 1 := by
  fun_induction Blake3.piecesOf n done bytes with
  | case1 done => exact .inl (List.mem_reverse.mp h)
  | case2 done b rest ih =>
    rcases ih h with hmem | hcut
    · rcases List.mem_cons.mp hmem with rfl | hdone
      · exact .inr ⟨by simp, List.length_take_le _ _⟩
      · exact .inl hdone
    · exact .inr hcut

/-- Reads that fill the buffer each time are one way to read a file. -/
theorem splits_fullReads (content : Bytes) : Splits (fullReads content) content := by
  have hcut (piece : Bytes) (h : piece ∈ fullReads content) :
      piece ≠ [] ∧ piece.length ≤ bufferSize :=
    (mem_piecesOf h).resolve_left (List.not_mem_nil)
  constructor
  case flatten => exact flatten_piecesOf _ _ content
  case ne_nil => exact fun piece h => (hcut piece h).1
  case length_le => exact fun piece h => (hcut piece h).2

/-! ### The buffer -/

/-- The buffer keeps its size. -/
theorem length_fill (h : piece.length ≤ buffer.length) :
    (fill buffer piece).length = buffer.length := by
  rw [fill, List.take_of_length_le h, List.length_append, List.length_drop]
  omega

/-- What was just read is at the start of the buffer, and nothing else is looked
at of it. -/
theorem take_fill (h : piece.length ≤ buffer.length) :
    (fill buffer piece).take piece.length = piece := by
  rw [fill, List.take_of_length_le h, List.take_left]

/-- One read feeds what it brought, whatever stood in the buffer. -/
theorem Hasher.feed_cons {state : H.State} (hpiece : piece ≠ [])
    (hlength : piece.length ≤ buffer.length) :
    H.feed state buffer (piece :: pieces)
      = H.feed (H.update state piece) (fill buffer piece) pieces := by
  have hempty : piece.isEmpty = false := by simpa using hpiece
  rw [feed, hempty, if_neg Bool.false_ne_true]
  dsimp only
  rw [take_fill hlength]

/-- The reads of a file feed its content, whatever stood in the buffer before
the first one. -/
theorem Hasher.feed_eq_update (hH : H.Lawful) (hpieces : Splits pieces content) {state : H.State}
    (hbuffer : buffer.length = bufferSize) :
    H.feed state buffer pieces = H.update state content := by
  obtain ⟨rfl, hne, hle⟩ := hpieces
  -- The state so far is that of the pieces before, and the buffer has kept its size.
  induction pieces generalizing state buffer with
  | nil => exact (hH.update_nil state).symm
  | cons piece rest ih =>
    rw [List.forall_mem_cons] at hne hle
    have hlength : piece.length ≤ buffer.length := by rw [hbuffer]; exact hle.1
    have hkept : (fill buffer piece).length = bufferSize := (length_fill hlength).trans hbuffer
    calc H.feed state buffer (piece :: rest)
        = H.feed (H.update state piece) (fill buffer piece) rest := feed_cons hne.1 hlength
      _ = H.update (H.update state piece) rest.flatten := ih hkept hne.2 hle.2
      _ = H.update state (piece :: rest).flatten := hH.update_update state piece rest.flatten

/-! ### Digits -/

/-- The digits by their values. -/
def lowerDigits : List Char :=
  ['0', '1', '2', '3', '4', '5', '6', '7', '8', '9', 'a', 'b', 'c', 'd', 'e', 'f']

/-- The digits of bytes: for each byte the one of its high half and the one of
its low half. -/
inductive HexDigits : List Char → Bytes → Prop
  | nil : HexDigits [] []
  | cons {high low : Char} {b : UInt8} {digits : List Char} {bytes : Bytes}
      (hhigh : lowerDigits[b.toNat / 16]? = some high)
      (hlow : lowerDigits[b.toNat % 16]? = some low) (h : HexDigits digits bytes) :
      HexDigits (high :: low :: digits) (b :: bytes)

/-- The table holds at each place below sixteen the digit that stands for it. -/
theorem lowerDigits_getElem? {n : Nat} (h : n < 16) : lowerDigits[n]? = some (Nat.digitChar n) := by
  have hdigits : ∀ d < 16, lowerDigits[d]? = some (Nat.digitChar d) := by decide
  exact hdigits n h

/-- The digits that are written are those of the bytes. -/
theorem hexDigits_flatMap (bytes : Bytes) : HexDigits (bytes.flatMap hexByte) bytes := by
  induction bytes with
  | nil => exact .nil
  | cons b bytes ih =>
    have hb : b.toNat < 256 := b.toNat_lt
    exact .cons (lowerDigits_getElem? (by omega)) (lowerDigits_getElem? (by omega)) ih

/-- There are two digits for each byte. -/
theorem HexDigits.length_eq {digits : List Char} {bytes : Bytes} (h : HexDigits digits bytes) :
    digits.length = 2 * bytes.length := by
  induction h with
  | nil => rfl
  | cons _ _ _ ih =>
    simp only [List.length_cons]
    omega

/-- A digest that shows a hash: the prefix, and the 64 digits of the hash. -/
def Shows (digest : String) (hash : Bytes) : Prop :=
  ∃ digits, digest = "blake3:" ++ String.ofList digits ∧ digits.length = 64 ∧ HexDigits digits hash

/-- The digest of what was read shows the hash of the content. -/
theorem Hasher.shows_digestOfReads (hH : H.Lawful) (hpieces : Splits pieces content) :
    Shows (H.digestOfReads pieces) (H.hash content) := by
  have hdigits := hexDigits_flatMap (H.hash content)
  refine ⟨_, ?_, ?_, hdigits⟩
  · rw [digestOfReads, feed_eq_update hH hpieces List.length_replicate]
    rfl
  · rw [hdigits.length_eq, H.length_hash]

/-! ### The digest of a file -/

/-- A file that can be read is hashed, and nothing changes. -/
theorem Hasher.run_ofFile {s : Session} {path : Path} {reads : Bytes → List Bytes}
    (h : s.tree.read path = .ok content) :
    (H.ofFile reads path).run s = .ok (H.digestOfReads (reads content)) s :=
  Action.run_bind_of_ok (Action.reading_eq_ok_iff.mpr ⟨h, rfl⟩)

/-- The digest of a file that is there shows the hash of its content, however the
reads split the content and whatever lawful hash function is used. BLAKE3 is one,
and reads that fill the buffer are one way to read. -/
theorem ofFile_shows_hash {s : Session} {path : Path} (h : s.tree.read path = .ok content) :
    (∀ (H : Hasher) (reads : Bytes → List Bytes), H.Lawful → Splits (reads content) content →
      ∃ digest, (H.ofFile reads path).run s = .ok digest s ∧ Shows digest (H.hash content)) ∧
    (∀ reads : Bytes → List Bytes, Splits (reads content) content →
      ∃ digest, (blake3.ofFile reads path).run s = .ok digest s ∧
        Shows digest (Blake3.hash content)) ∧
    ∃ digest, (ofFile path).run s = .ok digest s ∧ Shows digest (Blake3.hash content) := by
  -- The general statement first; the two others are cases of it.
  have hany (H : Hasher) (reads : Bytes → List Bytes) (hH : H.Lawful)
      (hreads : Splits (reads content) content) :
      ∃ digest, (H.ofFile reads path).run s = .ok digest s ∧ Shows digest (H.hash content) :=
    ⟨_, Hasher.run_ofFile h, Hasher.shows_digestOfReads hH hreads⟩
  have hblake3 (reads : Bytes → List Bytes) (hreads : Splits (reads content) content) :
      ∃ digest, (blake3.ofFile reads path).run s = .ok digest s ∧
        Shows digest (Blake3.hash content) := by
    rw [← blake3_hash]
    exact hany blake3 reads blake3_lawful hreads
  exact ⟨hany, hblake3, hblake3 fullReads (splits_fullReads content)⟩

/-- A session with a file that holds a greeting. -/
def greeting : Session where
  tree :=
    { current := [], entries := [([Text.bytesOf "note"], .file (Text.bytesOf "hello") false)] }

/-- Reads of which the first one brings three bytes, and the second one the rest. -/
def readThree (content : Bytes) : List Bytes := [content.take 3, content.drop 3]

/-- The greeting is read in two pieces; the second one leaves a byte of the first
one behind it in the buffer. -/
theorem ofFile_shows_hash_greeting :
    greeting.tree.read (.ofString "note") = .ok (Text.bytesOf "hello") ∧
    blake3.Lawful ∧ Splits (readThree (Text.bytesOf "hello")) (Text.bytesOf "hello") ∧
    (∃ digest, (blake3.ofFile readThree (.ofString "note")).run greeting = .ok digest greeting ∧
      Shows digest (blake3.hash (Text.bytesOf "hello"))) ∧
    ∃ digest, (ofFile (.ofString "note")).run greeting = .ok digest greeting ∧
      Shows digest (Blake3.hash (Text.bytesOf "hello")) := by
  have hread : greeting.tree.read (.ofString "note") = .ok (Text.bytesOf "hello") := by
    cbv
  -- Reads of three bytes at most, which is not how a file is usually read.
  have hsplits : Splits (readThree (Text.bytesOf "hello")) (Text.bytesOf "hello") :=
    ⟨by decide, by decide, by decide⟩
  obtain ⟨hany, -, hfile⟩ := ofFile_shows_hash hread
  exact ⟨hread, blake3_lawful, hsplits, hany blake3 readThree blake3_lawful hsplits, hfile⟩

end Promotion.Digest
