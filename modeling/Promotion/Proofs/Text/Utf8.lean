import Mathlib.Tactic.Common
import Promotion.Text.Utf8

/-!
# `Promotion.Proofs.Text.Utf8`: texts are read back from their bytes

* `stringOf?_bytesOf`: the bytes of a text are well-formed, and they are those
  of no other text.
* `bytesOf_of_stringOf?`: bytes that are read as a text are the bytes of it, so
  that no text has two rows of bytes.
-/

set_option autoImplicit false

namespace Promotion.Text

namespace Utf8

/-- The number of a character is not that of half a surrogate pair. -/
theorem toNat_valid (c : Char) : c.toNat < 0xD800 ∨ 0xDFFF < c.toNat ∧ c.toNat < 0x110000 := c.valid

/-- One more byte of a character adds six bits. -/
theorem tails_succ {b : UInt8} {n : Nat} (hb : b.toNat = n + 0x80) (hn : n < 64)
    (count value : Nat) (rest : Bytes) :
    tails (count + 1) value (b :: rest) = tails count (64 * value + n) rest := by
  rw [tails, hb, if_pos (by simp; omega), Nat.add_sub_cancel]

/-- The first two bytes of a longer character. -/
theorem front_of_leading? {b second : UInt8} {low high count value n : Nat}
    (hlead : leading? b.toNat = some (low, high, count, value)) (hb : 0x80 ≤ b.toNat)
    (hsecond : second.toNat = n + 0x80) (hlow : low ≤ n + 0x80) (hhigh : n + 0x80 ≤ high)
    (rest : Bytes) :
    front b (second :: rest) = tails count (64 * value + n) rest := by
  unfold front
  rw [if_neg (by omega), hlead]
  simp only [hsecond, hlow, hhigh, decide_true, Bool.and_self, if_true, Nat.add_sub_cancel]

/-- The first of two bytes tells that one more follows. -/
theorem leading?_two {n : Nat} (hlow : 2 ≤ n) (hhigh : n < 32) :
    leading? (n + 0xC0) = some (0x80, 0xBF, 0, n) := by
  rw [leading?, if_pos (by simp; omega), Nat.add_sub_cancel]

/-- The first of three bytes. The range of the second leaves out what would be
shorter in two bytes and the halves of surrogate pairs. -/
theorem leading?_three {n : Nat} (h : n < 16) :
    leading? (n + 0xE0) = some (if n = 0 then 0xA0 else 0x80, if n = 0xD then 0x9F else 0xBF, 1, n) := by
  have hall : ∀ n < 16, leading? (n + 0xE0)
      = some (if n = 0 then 0xA0 else 0x80, if n = 0xD then 0x9F else 0xBF, 1, n) := by decide
  exact hall n h

/-- The first of four bytes. The range of the second leaves out what would be
shorter in three bytes and what is no character any more. -/
theorem leading?_four {n : Nat} (h : n < 5) :
    leading? (n + 0xF0) = some (if n = 0 then 0x90 else 0x80, if n = 4 then 0x8F else 0xBF, 2, n) := by
  have hall : ∀ n < 5, leading? (n + 0xF0)
      = some (if n = 0 then 0x90 else 0x80, if n = 4 then 0x8F else 0xBF, 2, n) := by decide
  exact hall n h

/-- A number below 256 is the number of its byte. -/
theorem toNat_ofNat {n : Nat} (h : n < 256) : (UInt8.ofNat n).toNat = n := by
  rw [UInt8.toNat_ofNat', Nat.mod_eq_of_lt h]

/-- The bytes of a character, by the number of bits that it needs. -/
theorem encodeChar_eq (c : Char) : String.utf8EncodeChar c =
    if c.toNat ≤ 0x7F then [UInt8.ofNat c.toNat]
    else if c.toNat ≤ 0x7FF then
      [UInt8.ofNat (c.toNat / 64 % 0x20 + 0xC0), UInt8.ofNat (c.toNat % 0x40 + 0x80)]
    else if c.toNat ≤ 0xFFFF then
      [UInt8.ofNat (c.toNat / 4096 % 0x10 + 0xE0), UInt8.ofNat (c.toNat / 64 % 0x40 + 0x80),
        UInt8.ofNat (c.toNat % 0x40 + 0x80)]
    else
      [UInt8.ofNat (c.toNat / 262144 % 0x08 + 0xF0), UInt8.ofNat (c.toNat / 4096 % 0x40 + 0x80),
        UInt8.ofNat (c.toNat / 64 % 0x40 + 0x80), UInt8.ofNat (c.toNat % 0x40 + 0x80)] := rfl

/-- The bytes of longer characters are 0x80 or above. -/
theorem toNat_eq_of_mem_encodeChar {b : UInt8} {c : Char} (h : b ∈ String.utf8EncodeChar c)
    (hb : b.toNat < 0x80) : c.toNat = b.toNat := by
  -- The bytes of a longer character are all above the range of the short ones.
  have hlong {n : Nat} (hn : 0x80 ≤ n) (hn' : n < 256) : b ≠ UInt8.ofNat n := by
    rintro rfl
    rw [toNat_ofNat hn'] at hb
    omega
  rw [encodeChar_eq] at h
  split at h
  next hshort =>
    rw [List.mem_singleton.mp h, toNat_ofNat (by omega)]
  split at h
  next =>
    simp only [List.mem_cons, List.not_mem_nil, or_false] at h
    rcases h with h | h <;> exact absurd h (hlong (by omega) (by omega))
  split at h
  next =>
    simp only [List.mem_cons, List.not_mem_nil, or_false] at h
    rcases h with h | h | h <;> exact absurd h (hlong (by omega) (by omega))
  next =>
    simp only [List.mem_cons, List.not_mem_nil, or_false] at h
    rcases h with h | h | h | h <;> exact absurd h (hlong (by omega) (by omega))

/-- The bytes of a character are read as that character, whatever follows. -/
theorem exists_front_encodeChar (c : Char) (rest : Bytes) :
    ∃ b more, String.utf8EncodeChar c = b :: more ∧ front b (more ++ rest) = (some c, rest) := by
  have hvalid := toNat_valid c
  -- One case for each number of bytes; in each the parts of the number are put together again.
  rw [encodeChar_eq]
  split
  next h1 =>
    have hbyte := toNat_ofNat (show c.toNat < 256 by omega)
    refine ⟨_, _, rfl, ?_⟩
    unfold front
    rw [if_pos (by omega), hbyte, Char.ofNat_toNat, List.nil_append]
  split
  next h1 h2 =>
    have hfirst := toNat_ofNat (show c.toNat / 64 % 0x20 + 0xC0 < 256 by omega)
    have hsecond := toNat_ofNat (show c.toNat % 0x40 + 0x80 < 256 by omega)
    have hlead := leading?_two (n := c.toNat / 64 % 0x20) (by omega) (by omega)
    have hvalue : 64 * (c.toNat / 64 % 0x20) + c.toNat % 0x40 = c.toNat := by omega
    refine ⟨_, _, rfl, ?_⟩
    rw [List.cons_append, List.nil_append, front_of_leading? (hfirst ▸ hlead) (by omega) hsecond
      (by omega) (by omega), hvalue, tails, Char.ofNat_toNat]
  split
  next h1 h2 h3 =>
    have hfirst := toNat_ofNat (show c.toNat / 4096 % 0x10 + 0xE0 < 256 by omega)
    have hsecond := toNat_ofNat (show c.toNat / 64 % 0x40 + 0x80 < 256 by omega)
    have hthird := toNat_ofNat (show c.toNat % 0x40 + 0x80 < 256 by omega)
    have hlead := leading?_three (n := c.toNat / 4096 % 0x10) (by omega)
    have hvalue : 64 * (64 * (c.toNat / 4096 % 0x10) + c.toNat / 64 % 0x40) + c.toNat % 0x40
        = c.toNat := by omega
    refine ⟨_, _, rfl, ?_⟩
    rw [List.cons_append, List.cons_append, List.nil_append,
      front_of_leading? (hfirst ▸ hlead) (by omega) hsecond (by split <;> omega)
        (by split <;> omega),
      tails_succ hthird (by omega), hvalue, tails, Char.ofNat_toNat]
  next h1 h2 h3 =>
    have hfirst := toNat_ofNat (show c.toNat / 262144 % 0x08 + 0xF0 < 256 by omega)
    have hsecond := toNat_ofNat (show c.toNat / 4096 % 0x40 + 0x80 < 256 by omega)
    have hthird := toNat_ofNat (show c.toNat / 64 % 0x40 + 0x80 < 256 by omega)
    have hfourth := toNat_ofNat (show c.toNat % 0x40 + 0x80 < 256 by omega)
    have hlead := leading?_four (n := c.toNat / 262144 % 0x08) (by omega)
    have hvalue : 64 * (64 * (64 * (c.toNat / 262144 % 0x08) + c.toNat / 4096 % 0x40)
        + c.toNat / 64 % 0x40) + c.toNat % 0x40 = c.toNat := by omega
    refine ⟨_, _, rfl, ?_⟩
    rw [List.cons_append, List.cons_append, List.cons_append, List.nil_append,
      front_of_leading? (hfirst ▸ hlead) (by omega) hsecond (by split <;> omega)
        (by split <;> omega),
      tails_succ hthird (by omega), tails_succ hfourth (by omega), hvalue, tails,
      Char.ofNat_toNat]

/-- The bytes of a text are cut into its characters. -/
theorem pieces_encode (done : List (Option Char)) (s : List Char) :
    pieces done (encode s) = (s.map some).reverse ++ done := by
  induction s generalizing done with
  | nil => rw [encode, List.flatMap_nil, pieces]; rfl
  | cons c s ih =>
    obtain ⟨b, more, hbytes, hfront⟩ := exists_front_encodeChar c (encode s)
    have hencode : encode (c :: s) = b :: (more ++ encode s) := by
      rw [encode, List.flatMap_cons, hbytes]
      rfl
    rw [hencode, pieces, hfront, ih]
    simp

/-- Characters that were all read are collected. -/
theorem collect?_map_some (done s : List Char) :
    collect? done (s.map some) = some (s.reverse ++ done) := by
  induction s generalizing done with
  | nil => rfl
  | cons c s ih => simp [collect?, ih]

/-- What was encoded is decoded again. -/
theorem decode?_encode (s : List Char) : decode? (encode s) = some s := by
  rw [decode?, pieces_encode, List.append_nil, ← List.map_reverse, collect?_map_some,
    List.reverse_reverse, List.append_nil]

/-! ### Well-formed bytes are those of their text -/

/-- A number that is a character is the number of it. -/
theorem toNat_ofNat_of_valid {n : Nat} (h : n < 0xD800 ∨ 0xDFFF < n ∧ n < 0x110000) :
    (Char.ofNat n).toNat = n := by
  have hvalid : n.isValidChar := h
  rw [Char.ofNat, dif_pos hvalid]
  show (Char.ofNatAux n hvalid).val.toNat = n
  rfl

/-- A byte is that of its number. -/
theorem ofNat_eq {b : UInt8} {n : Nat} (h : b.toNat = n) : UInt8.ofNat n = b := by
  rw [← h, UInt8.ofNat_toNat]

/-- A further byte of a character that was read. -/
theorem of_tails_succ {count value : Nat} {bytes rest : Bytes} {c : Char}
    (h : tails (count + 1) value bytes = (some c, rest)) :
    ∃ b more n, bytes = b :: more ∧ b.toNat = n + 0x80 ∧ n < 64 ∧
      tails count (64 * value + n) more = (some c, rest) := by
  cases bytes with
  | nil => cases h
  | cons b more =>
    rw [tails] at h
    split at h
    next hb =>
      simp only [Bool.and_eq_true, decide_eq_true_eq] at hb
      exact ⟨b, more, b.toNat - 0x80, rfl, by omega, by omega, h⟩
    next => cases h

/-- What the first byte of a longer character says, by the number of bytes. -/
theorem of_leading? {first low high count value : Nat} (hfirst : first < 256)
    (h : leading? first = some (low, high, count, value)) :
    0x80 ≤ low ∧ high ≤ 0xBF ∧
      (count = 0 ∧ first = value + 0xC0 ∧ 2 ≤ value ∧ value < 32 ∨
      count = 1 ∧ first = value + 0xE0 ∧ value < 16 ∧
        (value = 0 → 0xA0 ≤ low) ∧ (value = 0xD → high ≤ 0x9F) ∨
      count = 2 ∧ first = value + 0xF0 ∧ value < 5 ∧
        (value = 0 → 0x90 ≤ low) ∧ (value = 4 → high ≤ 0x8F)) := by
  -- One case for each range of first bytes.
  unfold leading? at h
  simp only [Bool.and_eq_true, decide_eq_true_eq, beq_iff_eq] at h
  repeat' split at h
  all_goals
    cases h
    try omega

/-- A character that is read at the front has the bytes that were read. -/
theorem encodeChar_of_front {b : UInt8} {bytes rest : Bytes} {c : Char}
    (h : front b bytes = (some c, rest)) : String.utf8EncodeChar c ++ rest = b :: bytes := by
  unfold front at h
  split at h
  next hb =>
    obtain ⟨rfl, rfl⟩ : Char.ofNat b.toNat = c ∧ bytes = rest := by simpa using h
    have hc := toNat_ofNat_of_valid (n := b.toNat) (by omega)
    rw [encodeChar_eq, hc, if_pos (by omega), UInt8.ofNat_toNat]
    rfl
  next hb =>
    split at h
    · cases h
    · cases h
    next low high count value second more hlead =>
      split at h
      next hsecond =>
        simp only [Bool.and_eq_true, decide_eq_true_eq] at hsecond
        obtain ⟨hlow, hhigh, hcases⟩ := of_leading? b.toNat_lt hlead
        obtain ⟨n, hn, hn'⟩ : ∃ n, second.toNat = n + 0x80 ∧ n < 64 :=
          ⟨second.toNat - 0x80, by omega, by omega⟩
        rw [hn, Nat.add_sub_cancel] at h
        -- One case for each number of bytes that follow; the value is split into the same parts.
        rcases hcases with ⟨rfl, hfirst, hrange⟩ | ⟨rfl, hfirst, hrange⟩ | ⟨rfl, hfirst, hrange⟩
        · obtain ⟨rfl, rfl⟩ : Char.ofNat (64 * value + n) = c ∧ more = rest := by
            simpa [tails] using h
          have hc := toNat_ofNat_of_valid (n := 64 * value + n) (by omega)
          rw [encodeChar_eq, hc, if_neg (by omega), if_pos (by omega), ofNat_eq (b := b) (by omega),
            ofNat_eq (b := second) (by omega)]
          rfl
        · obtain ⟨third, more, m, rfl, hm, hm', h⟩ := of_tails_succ h
          obtain ⟨rfl, rfl⟩ : Char.ofNat (64 * (64 * value + n) + m) = c ∧ more = rest := by
            simpa [tails] using h
          have hc := toNat_ofNat_of_valid (n := 64 * (64 * value + n) + m) (by omega)
          rw [encodeChar_eq, hc, if_neg (by omega), if_neg (by omega), if_pos (by omega),
            ofNat_eq (b := b) (by omega), ofNat_eq (b := second) (by omega),
            ofNat_eq (b := third) (by omega)]
          rfl
        · obtain ⟨third, more, m, rfl, hm, hm', h⟩ := of_tails_succ h
          obtain ⟨fourth, more, l, rfl, hl, hl', h⟩ := of_tails_succ h
          obtain ⟨rfl, rfl⟩ :
              Char.ofNat (64 * (64 * (64 * value + n) + m) + l) = c ∧ more = rest := by
            simpa [tails] using h
          have hc := toNat_ofNat_of_valid (n := 64 * (64 * (64 * value + n) + m) + l) (by omega)
          rw [encodeChar_eq, hc, if_neg (by omega), if_neg (by omega), if_neg (by omega),
            ofNat_eq (b := b) (by omega), ofNat_eq (b := second) (by omega),
            ofNat_eq (b := third) (by omega), ofNat_eq (b := fourth) (by omega)]
          rfl
      next => cases h

/-- Only characters that were all read are collected. -/
theorem collect?_eq_some {done s : List Char} {ps : List (Option Char)}
    (h : collect? done ps = some s) : ∃ cs : List Char, ps = cs.map some ∧ s = cs.reverse ++ done := by
  -- By induction on what was read, with the characters so far generalized.
  induction ps generalizing done with
  | nil =>
    cases h
    exact ⟨[], rfl, rfl⟩
  | cons p ps ih =>
    cases p with
    | none => cases h
    | some c =>
      obtain ⟨cs, rfl, rfl⟩ := ih h
      exact ⟨c :: cs, rfl, by simp⟩

/-- Bytes of which every piece is a character are those of the characters. -/
theorem encode_of_pieces {done : List (Option Char)} {cs : List Char} {bytes : Bytes}
    (h : pieces done bytes = cs.map some) :
    ∃ s before : List Char, done = before.map some ∧ cs = s.reverse ++ before ∧
      encode s = bytes := by
  fun_induction pieces done bytes with
  | case1 done => exact ⟨[], cs, h, rfl, rfl⟩
  | case2 done b rest ih =>
    obtain ⟨s, before, hbefore, rfl, hs⟩ := ih h
    -- The piece at the front is a character too.
    obtain ⟨c, before, rfl, hc, rfl⟩ := List.map_eq_cons_iff.mp hbefore.symm
    refine ⟨c :: s, before, rfl, by simp, ?_⟩
    rw [encode, List.flatMap_cons, ← encode, hs]
    exact encodeChar_of_front (Prod.ext hc.symm rfl)

/-- What can be decoded was encoded like that. -/
theorem encode_of_decode? {bytes : Bytes} {s : List Char} (h : decode? bytes = some s) :
    encode s = bytes := by
  obtain ⟨cs, hpieces, rfl⟩ := collect?_eq_some h
  obtain ⟨s, before, hbefore, rfl, rfl⟩ := encode_of_pieces hpieces
  obtain rfl := List.map_eq_nil_iff.mp hbefore.symm
  simp

end Utf8

/-- A text is read back from its bytes. -/
theorem stringOf?_bytesOf (s : String) : stringOf? (bytesOf s) = some s := by
  rw [stringOf?, bytesOf, Utf8.decode?_encode, Option.map_some, String.ofList_toList]

/-- Well-formed bytes are those of the text that they are read as. -/
theorem bytesOf_of_stringOf? {bytes : Bytes} {s : String} (h : stringOf? bytes = some s) :
    bytesOf s = bytes := by
  obtain ⟨cs, hcs, rfl⟩ := Option.map_eq_some_iff.mp h
  rw [bytesOf, String.toList_ofList, Utf8.encode_of_decode? hcs]

/-- Bytes are a text when they are the bytes of it. -/
theorem stringOf?_eq_some_iff {bytes : Bytes} {s : String} :
    stringOf? bytes = some s ↔ bytes = bytesOf s :=
  ⟨fun h => (bytesOf_of_stringOf? h).symm, fun h => h ▸ stringOf?_bytesOf s⟩

/-- Different texts have different bytes. -/
theorem bytesOf_injective : Function.Injective bytesOf := fun s s' h =>
  Option.some.inj ((stringOf?_bytesOf s).symm.trans (h ▸ stringOf?_bytesOf s'))

/-- A byte below 0x80 is never part of a longer character, so the text has the
character that it stands for. -/
theorem mem_toList_of_mem_bytesOf {b : UInt8} {s : String} (h : b ∈ bytesOf s)
    (hb : b.toNat < 0x80) : Char.ofNat b.toNat ∈ s.toList := by
  obtain ⟨c, hc, hmem⟩ := List.mem_flatMap.mp h
  rw [← Utf8.toNat_eq_of_mem_encodeChar hmem hb, Char.ofNat_toNat]
  exact hc

/-- The bytes of two texts follow each other. -/
theorem bytesOf_append (s s' : String) : bytesOf (s ++ s') = bytesOf s ++ bytesOf s' := by
  simp [bytesOf, Utf8.encode]

end Promotion.Text
