/-!
# `Promotion.Text.Utf8`: texts as bytes

UTF-8 in both directions. `decode?` reads well-formed bytes only;
`decodeLossy` puts U+FFFD in the place of each ill-formed piece, a piece
being the longest start of a character that breaks off.
-/

set_option autoImplicit false

namespace Promotion.Text

/-- Bytes, as files and file names hold them. -/
abbrev Bytes := List UInt8

namespace Utf8

/-- The bytes of a text. -/
def encode (s : List Char) : Bytes :=
  s.flatMap String.utf8EncodeChar

/-- For a first byte of a longer character: the range of the second byte,
the number of bytes after it, and the bits of the character in the first. -/
def leading? (first : Nat) : Option (Nat × Nat × Nat × Nat) :=
  if 0xC2 ≤ first && first ≤ 0xDF then some (0x80, 0xBF, 0, first - 0xC0)
  else if first == 0xE0 then some (0xA0, 0xBF, 1, 0)
  else if first == 0xED then some (0x80, 0x9F, 1, 0xD)
  else if 0xE1 ≤ first && first ≤ 0xEF then some (0x80, 0xBF, 1, first - 0xE0)
  else if first == 0xF0 then some (0x90, 0xBF, 2, 0)
  else if 0xF1 ≤ first && first ≤ 0xF3 then some (0x80, 0xBF, 2, first - 0xF0)
  else if first == 0xF4 then some (0x80, 0x8F, 2, 4)
  else none

/-- Takes `count` further bytes of a character whose bits so far are `value`.
The character is missing when they are not there. -/
def tails : Nat → Nat → Bytes → Option Char × Bytes
  | 0, value, rest => (some (Char.ofNat value), rest)
  | _ + 1, _, [] => (none, [])
  | count + 1, value, b :: rest =>
    if 0x80 ≤ b.toNat && b.toNat ≤ 0xBF then
      tails count (64 * value + (b.toNat - 0x80)) rest
    else (none, b :: rest)

/-- The character at the front of `b :: rest`, or none for an ill-formed
piece, and what follows. -/
def front (b : UInt8) (rest : Bytes) : Option Char × Bytes :=
  if b.toNat < 0x80 then (some (Char.ofNat b.toNat), rest)
  else match leading? b.toNat, rest with
    | none, _ => (none, rest)
    | some _, [] => (none, [])
    | some (low, high, count, value), second :: rest' =>
      if low ≤ second.toNat && second.toNat ≤ high then
        tails count (64 * value + (second.toNat - 0x80)) rest'
      else (none, rest)

/-- Reading the rest of a character leaves no more bytes than before. -/
theorem length_tails_le (count value : Nat) (rest : Bytes) :
    (tails count value rest).2.length ≤ rest.length := by
  induction rest generalizing count value with
  | nil => cases count <;> simp [tails]
  | cons b rest ih =>
    cases count with
    | zero => simp [tails]
    | succ count =>
      unfold tails
      split
      · exact Nat.le_succ_of_le (ih _ _)
      · simp

/-- Reading a character leaves no more bytes than before. -/
theorem length_front_le (b : UInt8) (rest : Bytes) :
    (front b rest).2.length ≤ rest.length := by
  unfold front
  split
  · simp
  · split
    · simp
    · simp
    · split
      · exact Nat.le_succ_of_le (length_tails_le _ _ _)
      · simp

/-- The characters of the bytes, none standing for an ill-formed piece, in
reverse order and in front of `done`. -/
def pieces (done : List (Option Char)) : Bytes → List (Option Char)
  | [] => done
  | b :: rest => pieces ((front b rest).1 :: done) (front b rest).2
  termination_by bytes => bytes.length
  decreasing_by exact Nat.lt_succ_of_le (length_front_le b rest)

/-- Collects characters in reverse, unless one of them is missing. -/
def collect? (done : List Char) : List (Option Char) → Option (List Char)
  | [] => some done
  | none :: _ => none
  | some c :: rest => collect? (c :: done) rest

/-- The text of well-formed bytes. -/
def decode? (bytes : Bytes) : Option (List Char) :=
  collect? [] (pieces [] bytes)

/-- The text of any bytes, with U+FFFD for each ill-formed piece. -/
def decodeLossy (bytes : Bytes) : List Char :=
  (pieces [] bytes).reverse.map fun piece => piece.getD '\uFFFD'

end Utf8

/-- The bytes of a string. -/
def bytesOf (s : String) : Bytes := Utf8.encode s.toList

/-- The string of well-formed bytes. -/
def stringOf? (bytes : Bytes) : Option String :=
  (Utf8.decode? bytes).map String.ofList

/-- The string shown for any bytes. -/
def stringOfLossy (bytes : Bytes) : String :=
  String.ofList (Utf8.decodeLossy bytes)

end Promotion.Text
