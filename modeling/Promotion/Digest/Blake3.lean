import Promotion.Text.Utf8

/-!
# `Promotion.Digest.Blake3`: the hash function BLAKE3

The input is cut into chunks of 1024 bytes and these into blocks of 64
bytes. Each block is compressed into the chaining value of its chunk, and
the chunks are the leaves of a binary tree whose left subtrees are full.
The first 32 bytes of the root's output are the hash.
-/

set_option autoImplicit false

namespace Promotion.Digest.Blake3

open Promotion.Text (Bytes)

/-- A chaining value. -/
abbrev Chain := Vector UInt32 8

/-- The sixteen words of a block or of the state of the compression. -/
abbrev Words := Vector UInt32 16

/-- The initial chaining value. -/
def initial : Chain :=
  #v[0x6A09E667, 0xBB67AE85, 0x3C6EF372, 0xA54FF53A, 0x510E527F, 0x9B05688C, 0x1F83D9AB, 0x5BE0CD19]

/-- The place that each word of a block takes its value from in the next
round. -/
def permutation : Vector (Fin 16) 16 := #v[2, 6, 3, 10, 7, 0, 4, 13, 1, 11, 12, 5, 9, 14, 15, 8]

/-- Marks the first block of a chunk. -/
def chunkStart : UInt32 := 1

/-- Marks the last block of a chunk. -/
def chunkEnd : UInt32 := 2

/-- Marks the block of an inner node of the tree. -/
def parent : UInt32 := 4

/-- Marks the root of the tree. -/
def root : UInt32 := 8

/-- A word rotated to the right by `n` bits, `n` between 1 and 31. -/
def rotateRight (x n : UInt32) : UInt32 := (x >>> n) ||| (x <<< (32 - n))

/-- Mixes two words of a block into a column or diagonal of the state. -/
def quarter (v : Words) (a b c d : Fin 16) (x y : UInt32) : Words :=
  let v := v.set a (v[a] + v[b] + x)
  let v := v.set d (rotateRight (v[d] ^^^ v[a]) 16)
  let v := v.set c (v[c] + v[d])
  let v := v.set b (rotateRight (v[b] ^^^ v[c]) 12)
  let v := v.set a (v[a] + v[b] + y)
  let v := v.set d (rotateRight (v[d] ^^^ v[a]) 8)
  let v := v.set c (v[c] + v[d])
  v.set b (rotateRight (v[b] ^^^ v[c]) 7)

/-- Mixes all words of a block into the state. -/
def round (v m : Words) : Words :=
  let v := quarter v 0 4 8 12 m[0] m[1]
  let v := quarter v 1 5 9 13 m[2] m[3]
  let v := quarter v 2 6 10 14 m[4] m[5]
  let v := quarter v 3 7 11 15 m[6] m[7]
  let v := quarter v 0 5 10 15 m[8] m[9]
  let v := quarter v 1 6 11 12 m[10] m[11]
  let v := quarter v 2 7 8 13 m[12] m[13]
  quarter v 3 4 9 14 m[14] m[15]

/-- The words of a block in the order of the next round. -/
def permute (m : Words) : Words := permutation.map fun i => m[i]

/-- The state after `n` rounds. -/
def rounds : Nat → Words → Words → Words
  | 0, v, _ => v
  | n + 1, v, m => rounds n (round v m) (permute m)

/-- What is compressed: the chaining value so far, a block with the number of
its bytes, the number of its chunk, and its marks. -/
structure Input where
  chain : Chain
  block : Words
  counter : Nat
  length : Nat
  flags : UInt32

/-- Compresses a block; the first half of the words is a chaining value. -/
def compress (i : Input) : Words :=
  let h := i.chain
  let v : Words := #v[h[0], h[1], h[2], h[3], h[4], h[5], h[6], h[7],
    initial[0], initial[1], initial[2], initial[3],
    UInt32.ofNat i.counter, UInt32.ofNat (i.counter / Nat.pow 2 32), UInt32.ofNat i.length, i.flags]
  let v := rounds 7 v i.block
  Vector.ofFn fun k : Fin 16 =>
    if hk : k.1 < 8 then v[k.1] ^^^ v[k.1 + 8] else v[k] ^^^ h[k.1 - 8]

/-- The chaining value of a compressed block. -/
def chainOf (i : Input) : Chain :=
  let w := compress i
  #v[w[0], w[1], w[2], w[3], w[4], w[5], w[6], w[7]]

/-- The word of four bytes, lowest first. -/
def wordOf (a b c d : UInt8) : UInt32 :=
  a.toUInt32 ||| (b.toUInt32 <<< 8) ||| (c.toUInt32 <<< 16) ||| (d.toUInt32 <<< 24)

/-- The words of bytes, the last one filled up with zeros. -/
def wordsOf : Bytes → List UInt32
  | a :: b :: c :: d :: rest => wordOf a b c d :: wordsOf rest
  | [a, b, c] => [wordOf a b c 0]
  | [a, b] => [wordOf a b 0 0]
  | [a] => [wordOf a 0 0 0]
  | [] => []

/-- The block of at most 64 bytes, filled up with zeros. -/
def blockOf (bytes : Bytes) : Words :=
  let words := wordsOf bytes
  Vector.ofFn fun k : Fin 16 => words.getD k 0

/-- The input cut into pieces of `n + 1` bytes, the last one possibly shorter. -/
def piecesOf (n : Nat) (done : List Bytes) (bytes : Bytes) : List Bytes :=
  match h : bytes with
  | [] => done.reverse
  | _ :: rest => piecesOf n (bytes.take (n + 1) :: done) (rest.drop n)
  termination_by bytes.length
  decreasing_by subst h; simp only [List.length_drop, List.length_cons]; omega

/-- The last compression of a chunk, whose other blocks are compressed into
the chaining value. -/
def chunkFrom (chain : Chain) (counter : Nat) (flags : UInt32) : List Bytes → Input
  | [] => ⟨chain, blockOf [], counter, 0, flags ||| chunkEnd⟩
  | [block] => ⟨chain, blockOf block, counter, block.length, flags ||| chunkEnd⟩
  | block :: rest =>
    chunkFrom (chainOf ⟨chain, blockOf block, counter, block.length, flags⟩) counter 0 rest

/-- The leaf of a chunk. -/
def leaf (counter : Nat) (chunk : Bytes) : Input :=
  chunkFrom initial counter chunkStart (piecesOf 63 [] chunk)

/-- The inner node above two nodes. -/
def join (left right : Input) : Input :=
  let l := chainOf left
  let r := chainOf right
  ⟨initial, #v[l[0], l[1], l[2], l[3], l[4], l[5], l[6], l[7],
    r[0], r[1], r[2], r[3], r[4], r[5], r[6], r[7]], 0, 64, parent⟩

/-- The number of leaves in the left subtree of a tree with `n` leaves: the
greatest power of two below `n`. -/
def leftSize (n : Nat) : Nat := Nat.pow 2 (n - 1).log2

/-- The left half is smaller than the whole. -/
theorem leftSize_lt {n : Nat} (h : 2 ≤ n) : leftSize n < n := by
  have hlog : leftSize n ≤ n - 1 := Nat.log2_self_le (by omega)
  omega

/-- The left half is never empty. -/
theorem leftSize_pos (n : Nat) : 0 < leftSize n := Nat.two_pow_pos _

/-- The root of the tree over leaves; without leaves, the leaf of no bytes. -/
def tree (leaves : List Input) : Input :=
  match _h : leaves with
  | [] => leaf 0 []
  | [i] => i
  | _ :: _ :: _ =>
    join (tree (leaves.take (leftSize leaves.length))) (tree (leaves.drop (leftSize leaves.length)))
  termination_by leaves.length
  decreasing_by
    · have := leftSize_lt (n := leaves.length) (by simp [_h])
      simp only [List.length_take, _h] at *
      omega
    · have := leftSize_pos leaves.length
      simp only [List.length_drop, _h, List.length_cons] at *
      omega

/-- The leaves of the chunks, numbered from `counter`. -/
def leavesFrom (counter : Nat) : List Bytes → List Input
  | [] => []
  | chunk :: rest => leaf counter chunk :: leavesFrom (counter + 1) rest

/-- The four bytes of a word, lowest first. -/
def bytesOfWord (w : UInt32) : Bytes :=
  [w.toUInt8, (w >>> 8).toUInt8, (w >>> 16).toUInt8, (w >>> 24).toUInt8]

/-- The 32 bytes of the hash. -/
def hash (bytes : Bytes) : Bytes :=
  let top := tree (leavesFrom 0 (piecesOf 1023 [] bytes))
  ((compress { top with flags := top.flags ||| root }).toList.take 8).flatMap bytesOfWord

/-- A word has four bytes. -/
theorem length_bytesOfWord (w : UInt32) : (bytesOfWord w).length = 4 := rfl

/-- A hash has eight words of four bytes. -/
theorem length_hash (bytes : Bytes) : (hash bytes).length = 32 := by
  simp [hash, List.length_flatMap, length_bytesOfWord, -List.map_take, List.map_const']

end Promotion.Digest.Blake3
