import Promotion.Archive.Gzip

/-!
# `Promotion.Proofs.Archive.Gzip`: what a gzip member gives back

* `ofLittleEndian_littleEndian`: a number that fits comes back.
* `readBlocks?_blocks`: the blocks of bytes are read up to the last one, and
  what follows them is left alone.
* `decode?_encode`: a member gives back its bytes, of any length.
-/

set_option autoImplicit false

namespace Promotion.Archive.Gzip

open Promotion.Text (Bytes)

/-- A number comes back as far as its bytes hold it. -/
theorem ofLittleEndian_littleEndian (width n : Nat) :
    ofLittleEndian (littleEndian width n) = n % Nat.pow 256 width := by
  induction width generalizing n with
  | zero => simp [littleEndian, ofLittleEndian, Nat.mod_one]
  | succ width ih =>
    have hrest : ofLittleEndian (littleEndian (width + 1) n)
        = n % 256 + 256 * ofLittleEndian (littleEndian width (n / 256)) := by
      simp [littleEndian, ofLittleEndian]
    have hpow : Nat.pow 256 (width + 1) = 256 * Nat.pow 256 width := Nat.mul_comm _ _
    rw [hrest, ih, hpow, Nat.mod_mul]

/-- Two bytes hold the length of a stored block and the complement of it. -/
theorem ofLittleEndian_two {n : Nat} (h : n ≤ blockLimit) :
    ofLittleEndian (littleEndian 2 n) = n := by
  rw [ofLittleEndian_littleEndian]
  exact Nat.mod_eq_of_lt (Nat.lt_succ_of_le h)

/-- Reads one block. A last block is the end; behind another one the reading
goes on. -/
theorem readBlocks?_block (last : Bool) (bytes rest : Bytes) (h : bytes.length ≤ blockLimit) :
    readBlocks? (block last bytes ++ rest)
      = if last then some (bytes, rest)
        else (readBlocks? rest).map fun r => (bytes ++ r.1, r.2) := by
  -- The four bytes of the two lengths, as `readBlocks?` finds them.
  obtain ⟨l₀, l₁, hl⟩ : ∃ l₀ l₁, littleEndian 2 bytes.length = [l₀, l₁] := ⟨_, _, rfl⟩
  obtain ⟨c₀, c₁, hc⟩ : ∃ c₀ c₁, littleEndian 2 (blockLimit - bytes.length) = [c₀, c₁] :=
    ⟨_, _, rfl⟩
  have hlength : ofLittleEndian [l₀, l₁] = bytes.length := by
    rw [← hl, ofLittleEndian_two h]
  have hcomplement : ofLittleEndian [c₀, c₁] = blockLimit - bytes.length := by
    rw [← hc, ofLittleEndian_two (Nat.sub_le _ _)]
  have hsum : bytes.length + (blockLimit - bytes.length) = blockLimit := by omega
  simp only [block, hl, hc, List.cons_append, List.nil_append]
  rw [readBlocks?]
  cases last <;>
    simp [hlength, hcomplement, hsum]

/-- Reading the blocks of bytes gives the bytes and what follows. -/
theorem readBlocks?_blocks (bytes rest : Bytes) :
    readBlocks? (blocks bytes ++ rest) = some (bytes, rest) := by
  induction bytes using blocks.induct with
  | case1 bytes h =>
    rw [blocks, if_pos h, readBlocks?_block true bytes rest h]
    rfl
  | case2 bytes h ih =>
    have htake : (bytes.take blockLimit).length ≤ blockLimit := List.length_take_le _ _
    rw [blocks, if_neg h, List.append_assoc, readBlocks?_block false _ _ htake, ih]
    simp

/-- A member gives back the bytes that it was made of. -/
theorem decode?_encode (bytes : Bytes) : decode? (encode bytes) = some bytes := by
  have hheader : header.isPrefixOf (encode bytes) = true := by
    rw [List.isPrefixOf_iff_prefix, encode, List.append_assoc]
    exact List.prefix_append _ _
  have hrest : (encode bytes).drop header.length = blocks bytes ++ trailer bytes := by
    rw [encode, List.append_assoc, List.drop_left]
  rw [decode?, if_pos hheader, hrest, readBlocks?_blocks]
  simp

end Promotion.Archive.Gzip
