import Promotion.Archive.Basic
import Promotion.Proofs.Archive.Gzip

/-!
# `Promotion.Proofs.Archive.Tar`: what a tape archive gives back

* `ofNumber?_number`: a number comes back from its field, in digits or in
  bytes.
* `Header.decode?_encode`: a header comes back from its block, its path cut to
  what the block has room for.
* `readRecords?_encodeRecord`: a record comes back, also when its path needs a
  record of its own in front (`Record.Fits` says of which records).
* `decode?_encode`: an archive file gives back its records.
-/

set_option autoImplicit false

namespace Promotion.Archive

open Promotion.Text (Bytes)

/-- A record that an archive can hold: the path is not empty and has no zero
byte, which would end it; and the numbers fit into their fields. -/
structure Record.Fits (r : Record) : Prop where
  path_ne_nil : r.path ≠ []
  zero_notMem : 0 ∉ r.path
  path_length : r.path.length < Nat.pow 8 11
  mode : r.mode < Nat.pow 8 7
  owner : r.owner < Nat.pow 8 7
  group : r.group < Nat.pow 8 7
  modified : r.modified < Nat.pow 8 11
  content_length : r.content.length < Nat.pow 2 64

namespace Tar

/-! ### Numbers -/

/-- A number is written with as many octal digits as there is room for. -/
@[simp] theorem length_octal (width n : Nat) : (octal width n).length = width := by
  induction width generalizing n with
  | zero => rfl
  | succ width ih => simp [octal, ih]

/-- A number is written with as many bytes as there is room for. -/
@[simp] theorem length_bigEndian (width n : Nat) : (bigEndian width n).length = width := by
  induction width generalizing n with
  | zero => rfl
  | succ width ih => simp [bigEndian, ih]

/-- A number comes back as far as its bytes hold it. -/
theorem ofBigEndian_bigEndian (width n : Nat) :
    ofBigEndian (bigEndian width n) = n % Nat.pow 256 width := by
  induction width generalizing n with
  | zero => simp [bigEndian, ofBigEndian, Nat.mod_one]
  | succ width ih =>
    have hfront : ofBigEndian (bigEndian (width + 1) n)
        = 256 * ofBigEndian (bigEndian width (n / 256)) + n % 256 := by
      simp [bigEndian, ofBigEndian]
    have hpow : Nat.pow 256 (width + 1) = 256 * Nat.pow 256 width := Nat.mul_comm _ _
    rw [hfront, ih, hpow, Nat.mod_mul, Nat.add_comm]

/-- The byte of an octal digit. -/
theorem toNat_octalDigit (n : Nat) : (UInt8.ofNat (48 + n % 8)).toNat = 48 + n % 8 := by
  rw [UInt8.toNat_ofNat']
  exact Nat.mod_eq_of_lt (by omega)

/-- Octal digits are digits from `0` to `7`. -/
theorem mem_octal {width n : Nat} {b : UInt8} (h : b ∈ octal width n) : 48 ≤ b ∧ b ≤ 55 := by
  -- By induction on the width, since the digits are written from the last one on.
  induction width generalizing n with
  | zero => cases h
  | succ width ih =>
    rw [octal, List.mem_append, List.mem_singleton] at h
    rcases h with h | rfl
    · exact ih h
    · rw [UInt8.le_iff_toNat_le, UInt8.le_iff_toNat_le, toNat_octalDigit]
      constructor
      · exact Nat.le_add_right _ _
      · show 48 + n % 8 ≤ 55
        omega

/-- The digits of a number stand for it as far as they suffice. -/
theorem foldl_octal (width n : Nat) :
    (octal width n).foldl (fun n b => 8 * n + (b.toNat - 48)) 0 = n % Nat.pow 8 width := by
  induction width generalizing n with
  | zero => simp [octal, Nat.mod_one]
  | succ width ih =>
    have hpow : Nat.pow 8 (width + 1) = 8 * Nat.pow 8 width := Nat.mul_comm _ _
    rw [octal, List.foldl_append, ih, hpow, Nat.mod_mul]
    simp only [List.foldl_cons, List.foldl_nil, toNat_octalDigit]
    omega

/-- Octal digits come back when a zero or a space ends them. -/
theorem ofOctal?_octal (width n : Nat) (stop : UInt8) (rest : Bytes) (h : stop = 0 ∨ stop = 32) :
    ofOctal? (octal width n ++ stop :: rest) = some (n % Nat.pow 8 width) := by
  -- All digits are from 48 to 55, so nothing before `stop` ends them.
  have hdigits : (octal width n ++ stop :: rest).takeWhile (fun b => b ≠ 0 && b ≠ 32)
      = octal width n := by
    rw [List.takeWhile_append_of_pos, List.takeWhile_cons_of_neg, List.append_nil]
    · rcases h with rfl | rfl <;> decide
    · intro b hb
      obtain ⟨hlow, -⟩ := mem_octal hb
      have hzero : b ≠ 0 := by rintro rfl; exact absurd hlow (by decide)
      have hspace : b ≠ 32 := by rintro rfl; exact absurd hlow (by decide)
      simp [hzero, hspace]
  have hall : (octal width n).all (fun b => 48 ≤ b && b ≤ 55) = true := by
    rw [List.all_eq_true]
    intro b hb
    simpa using mem_octal hb
  simp only [ofOctal?, hdigits, hall, if_true, foldl_octal]

/-- Both fill the field of the number. -/
theorem length_number {width : Nat} (h : 0 < width) (n : Nat) :
    (number width n).length = width := by
  unfold number
  split <;> simp <;> omega

/-- A number comes back from its field. -/
theorem ofNumber?_number {width n : Nat} (h : n < Nat.pow 256 (width - 1)) :
    ofNumber? (number width n) = some n := by
  unfold number
  split
  · rename_i hsmall
    -- The mark of a number in bytes is neither a digit nor the zero at the end.
    have hhead : (octal (width - 1) n ++ [0]).head? ≠ some binaryMark := by
      intro hhead
      have hmem := List.mem_of_mem_head? hhead
      rw [List.mem_append, List.mem_singleton] at hmem
      rcases hmem with hmem | hmem
      · exact absurd (mem_octal hmem).2 (by decide)
      · exact absurd hmem (by decide)
    rw [ofNumber?, if_neg hhead, ofOctal?_octal _ _ _ _ (.inl rfl), Nat.mod_eq_of_lt hsmall]
  · rw [ofNumber?, List.head?_cons, if_pos rfl, List.tail_cons, ofBigEndian_bigEndian,
      Nat.mod_eq_of_lt h]

/-! ### Headers -/

/-- A text is filled up to the width of its field. -/
@[simp] theorem length_field (width : Nat) (bytes : Bytes) :
    (field width bytes).length = width := by
  simp only [field, List.length_append, List.length_take, List.length_replicate]
  omega

/-- A path comes back from its field, cut to the size of the field. -/
theorem takeWhile_field (width : Nat) (path : Bytes) (h : 0 ∉ path) :
    (field width path).takeWhile (· ≠ 0) = path.take width := by
  rw [field, List.takeWhile_append_of_pos]
  · cases width - path.length <;> simp [List.replicate_succ]
  · intro b hb
    have hne : b ≠ 0 := fun hzero => h (hzero ▸ List.mem_of_mem_take hb)
    simpa using hne

namespace Header

/-- A header whose path has no zero byte and whose numbers fit into their
fields. -/
structure Fits (h : Header) : Prop where
  zero_notMem : 0 ∉ h.path
  mode : h.mode < Nat.pow 256 7
  owner : h.owner < Nat.pow 256 7
  group : h.group < Nat.pow 256 7
  size : h.size < Nat.pow 256 11
  modified : h.modified < Nat.pow 256 11

variable (h : Header)

/-- The length of the fields in front of the checksum. -/
@[simp] theorem length_front : h.front.length = 148 := by
  simp [front, length_number, pathSize]

/-- The length of the fields behind the checksum. -/
@[simp] theorem length_back : h.back.length = 356 := by
  simp [back, blockSize]

/-- The bytes of a header between those in front of the checksum and those
behind it. -/
theorem encode_eq :
    h.encode = h.front ++ ((octal 6 (sum h.front h.back) ++ [0, 32]) ++ h.back) := by
  simp [encode]

/-- A header makes up one block. -/
@[simp] theorem length_encode : h.encode.length = blockSize := by
  simp [encode_eq, blockSize]

/-- The part of some bytes that starts behind `before`. -/
theorem slice_append {start size : Nat} {bytes part after : Bytes} (before : Bytes)
    (hbytes : bytes = before ++ (part ++ after)) (hbefore : before.length = start)
    (hpart : part.length = size) : slice bytes start size = part := by
  subst hbytes hbefore hpart
  simp [slice]

/-- The sum of bytes is at most 255 for each. -/
theorem foldl_add_le (bytes : Bytes) (n : Nat) :
    bytes.foldl (fun n b => n + b.toNat) n ≤ n + 255 * bytes.length := by
  induction bytes generalizing n with
  | nil => simp
  | cons b bytes ih =>
    have hb : b.toNat < 256 := b.toNat_lt
    have hrest := ih (n + b.toNat)
    simp only [List.foldl_cons, List.length_cons]
    omega

/-- The checksum of a header fits into its six digits. -/
theorem sum_lt : sum h.front h.back < Nat.pow 8 6 := by
  have hfront := foldl_add_le h.front 0
  have hback := foldl_add_le h.back 0
  rw [length_front] at hfront
  rw [length_back] at hback
  show _ < 262144
  simp only [sum]
  omega

/-- The mark is the first byte behind the checksum. -/
theorem mark_ofByte? : (h.encode[156]?).bind Mark.ofByte? = some h.mark := by
  have hbyte : h.encode[156]? = some h.mark.byte := by
    have hfront : (h.front ++ (octal 6 (sum h.front h.back) ++ [0, 32])).length = 156 := by simp
    rw [encode_eq, ← List.append_assoc, List.getElem?_append_right (Nat.le_of_eq hfront), hfront]
    simp [back, field, blockSize]
  rw [hbyte, Option.bind_some]
  cases h.mark <;> rfl

/-- A header comes back from its block, its path cut to what the block has
room for. -/
theorem decode?_encode (hfits : h.Fits) :
    decode? h.encode = some { h with path := h.path.take pathSize } := by
  have hchecksum : slice h.encode 148 8 = octal 6 (sum h.front h.back) ++ [0, 32] :=
    slice_append h.front h.encode_eq h.length_front (by simp)
  have hfront : h.encode.take 148 = h.front := by
    rw [encode_eq, ← h.length_front, List.take_left]
  have hback : h.encode.drop 156 = h.back := by
    rw [encode_eq, ← List.append_assoc]
    exact List.drop_left' (by simp)
  have hpath : (h.encode.take pathSize).takeWhile (· ≠ 0) = h.path.take pathSize := by
    have htake : h.encode.take pathSize = field pathSize h.path := by
      simp [encode, front]
    rw [htake, takeWhile_field _ _ hfits.zero_notMem]
  -- The number fields, each behind the ones in front of it.
  let fields : List Bytes := [field pathSize h.path, number 8 h.mode, number 8 h.owner,
    number 8 h.group, number 12 h.size, number 12 h.modified]
  have hmode : slice h.encode 100 8 = number 8 h.mode :=
    slice_append (fields.take 1).flatten (by simp [encode, front, fields]; rfl)
      (by simp [fields, pathSize]) (by simp [length_number])
  have howner : slice h.encode 108 8 = number 8 h.owner :=
    slice_append (fields.take 2).flatten (by simp [encode, front, fields]; rfl)
      (by simp [fields, pathSize, length_number]) (by simp [length_number])
  have hgroup : slice h.encode 116 8 = number 8 h.group :=
    slice_append (fields.take 3).flatten (by simp [encode, front, fields]; rfl)
      (by simp [fields, pathSize, length_number]) (by simp [length_number])
  have hsize : slice h.encode 124 12 = number 12 h.size :=
    slice_append (fields.take 4).flatten (by simp [encode, front, fields]; rfl)
      (by simp [fields, pathSize, length_number]) (by simp [length_number])
  have hmodified : slice h.encode 136 12 = number 12 h.modified :=
    slice_append (fields.take 5).flatten (by simp [encode, front, fields]; rfl)
      (by simp [fields, pathSize, length_number]) (by simp [length_number])
  rw [decode?, hchecksum, hfront, hback, hmode, howner, hgroup, hsize, hmodified, mark_ofByte?,
    hpath, ofOctal?_octal _ _ _ _ (.inl rfl), Nat.mod_eq_of_lt h.sum_lt,
    ofNumber?_number hfits.mode, ofNumber?_number hfits.owner, ofNumber?_number hfits.group,
    ofNumber?_number hfits.size, ofNumber?_number hfits.modified]
  simp

end Header

/-! ### Records -/

/-- A header is no block of zeros when its path is not empty. -/
theorem all_zero_encode (h : Header) (hne : h.path ≠ []) (hzero : 0 ∉ h.path) :
    h.encode.all (· = 0) = false := by
  cases hpath : h.path with
  | nil => exact absurd hpath hne
  | cons b rest =>
    have hb : b ≠ 0 := by
      rintro rfl
      exact hzero (by simp [hpath])
    rw [List.all_eq_false]
    refine ⟨b, ?_, by simpa using hb⟩
    simp [Header.encode, Header.front, field, hpath, pathSize]

/-- Reading goes on behind a header and its content, as the mark of the header
says. -/
theorem readRecords?_header (long : Option Bytes) (h : Header) (content rest : Bytes)
    (hfits : h.Fits) (hne : h.path ≠ []) (hsize : content.length = h.size) :
    readRecords? long (h.encode ++ padded content ++ rest)
      = match h.mark with
        | .longPath => readRecords? (some (content.takeWhile (· ≠ 0))) rest
        | .file => (readRecords? none rest).map
            (⟨long.getD (h.path.take pathSize), .file, h.mode, h.owner, h.group, h.modified,
              content⟩ :: ·)
        | .directory => (readRecords? none rest).map
            (⟨long.getD (h.path.take pathSize), .directory, h.mode, h.owner, h.group, h.modified,
              content⟩ :: ·) := by
  have hlength : h.encode.length = blockSize := h.length_encode
  -- The block, the content and the padding are taken off by their lengths, which the header
  -- tells.
  have htake : (h.encode ++ padded content ++ rest).take blockSize = h.encode := by
    rw [List.append_assoc, ← hlength, List.take_left]
  have hdrop : (h.encode ++ padded content ++ rest).drop blockSize = padded content ++ rest := by
    rw [List.append_assoc, ← hlength, List.drop_left]
  have hcontent : (padded content ++ rest).take h.size = content := by
    rw [padded, List.append_assoc, ← hsize, List.take_left]
  have hnext : (padded content ++ rest).drop (h.size + padding h.size) = rest :=
    List.drop_left' (by simp [padded, hsize])
  have hblock : ¬ (h.encode ++ padded content ++ rest).length < blockSize := by
    simp [hlength]
  have hroom : ¬ (padded content ++ rest).length < h.size := by
    simp [padded, hsize]
  rw [readRecords?, if_neg hblock]
  cases hmark : h.mark <;>
    simp only [htake, hdrop, all_zero_encode h hne hfits.zero_notMem, h.decode?_encode hfits,
      hcontent, hnext, if_neg hroom, Bool.false_eq_true, if_false, hmark]

/-- The end of an archive is read as the end. -/
theorem readRecords?_ending : readRecords? none ending = some [] := by
  have hlength : ¬ ending.length < blockSize := by
    rw [ending, List.length_replicate]
    decide
  have hzero : (ending.take blockSize).all (· = 0) = true := by
    rw [List.all_eq_true]
    intro b hb
    simp [List.eq_of_mem_replicate (List.mem_of_mem_take hb)]
  rw [readRecords?, if_neg hlength]
  simp only [hzero, if_true]

/-- The header of a record. -/
def headerOf (r : Record) : Header :=
  ⟨r.path, r.mode, r.owner, r.group, r.content.length, r.modified, .ofKind r.kind⟩

/-- A number that fits into digits fits into as many bytes. -/
theorem lt_pow_of_lt_pow {n width : Nat} (h : n < Nat.pow 8 width) : n < Nat.pow 256 width :=
  Nat.lt_of_lt_of_le h (Nat.pow_le_pow_left (by decide) width)

/-- The header of a record fits when the record does. -/
theorem headerOf_fits {r : Record} (h : r.Fits) : (headerOf r).Fits where
  zero_notMem := h.zero_notMem
  mode := lt_pow_of_lt_pow h.mode
  owner := lt_pow_of_lt_pow h.owner
  group := lt_pow_of_lt_pow h.group
  size := Nat.lt_of_lt_of_le h.content_length (by decide)
  modified := lt_pow_of_lt_pow h.modified

/-- What is read behind a path that came in front: the record with that path,
then the others. -/
theorem readRecords?_headerOf (long : Option Bytes) {r : Record} (rest : Bytes) (h : r.Fits)
    (hpath : long.getD (r.path.take pathSize) = r.path) :
    readRecords? long ((headerOf r).encode ++ padded r.content ++ rest)
      = (readRecords? none rest).map (r :: ·) := by
  rw [readRecords?_header long (headerOf r) r.content rest (headerOf_fits h) h.path_ne_nil rfl]
  obtain ⟨path, kind, mode, owner, group, modified, content⟩ := r
  cases kind <;> simp_all [headerOf, Mark.ofKind]

/-- The header of the record that holds the path of the next one. -/
def longPathHeader (path : Bytes) : Header :=
  ⟨longPathName, 0o644, 0, 0, path.length + 1, 0, .longPath⟩

/-- The header of a long path fits when the path is not too long. -/
theorem longPathHeader_fits {path : Bytes} (h : path.length < Nat.pow 8 11) :
    (longPathHeader path).Fits where
  zero_notMem := by
    show 0 ∉ longPathName
    decide
  mode := show 0o644 < Nat.pow 256 7 by decide
  owner := show 0 < Nat.pow 256 7 by decide
  group := show 0 < Nat.pow 256 7 by decide
  size := Nat.lt_of_le_of_lt h (by decide)
  modified := show 0 < Nat.pow 256 11 by decide

/-- A record comes back, and reading goes on behind it. -/
theorem readRecords?_encodeRecord {r : Record} (rest : Bytes) (h : r.Fits) :
    readRecords? none (encodeRecord r ++ rest) = (readRecords? none rest).map (r :: ·) := by
  by_cases hlong : r.path.length ≤ pathSize
  · have hbytes : encodeRecord r ++ rest = (headerOf r).encode ++ padded r.content ++ rest := by
      simp [encodeRecord, longPath, hlong, headerOf]
    rw [hbytes, readRecords?_headerOf none rest h (List.take_of_length_le hlong)]
  · -- The path comes first, as the content of a record of its own.
    have hbytes : encodeRecord r ++ rest
        = (longPathHeader r.path).encode ++ padded (r.path ++ [0])
          ++ ((headerOf r).encode ++ padded r.content ++ rest) := by
      simp [encodeRecord, longPath, hlong, headerOf, longPathHeader]
    have hname : (r.path ++ [0]).takeWhile (· ≠ 0) = r.path := by
      rw [List.takeWhile_append_of_pos, List.takeWhile_cons_of_neg (by simp), List.append_nil]
      intro b hb
      have hne : b ≠ 0 := fun hzero => h.zero_notMem (hzero ▸ hb)
      simpa using hne
    have hne : (longPathHeader r.path).path ≠ [] := by
      show longPathName ≠ []
      decide
    rw [hbytes, readRecords?_header none _ _ _ (longPathHeader_fits h.path_length) hne
      (by simp [longPathHeader])]
    show readRecords? (some ((r.path ++ [0]).takeWhile (· ≠ 0))) _ = _
    rw [hname, readRecords?_headerOf (some r.path) rest h rfl]

/-- An archive gives back its records. -/
theorem decode?_encode {records : List Record} (h : ∀ r ∈ records, r.Fits) :
    decode? (encode records) = some records := by
  show readRecords? none (encode records) = some records
  induction records with
  | nil => exact readRecords?_ending
  | cons r records ih =>
    have hrest := ih fun s hs => h s (List.mem_cons_of_mem r hs)
    have hbytes : encode (r :: records) = encodeRecord r ++ encode records := by
      simp [encode]
    rw [hbytes, readRecords?_encodeRecord _ (h r List.mem_cons_self), hrest]
    rfl

end Tar

/-- An archive file gives back its records. -/
theorem decode?_encode {records : List Record} (h : ∀ r ∈ records, r.Fits) :
    decode? (encode records) = some records := by
  rw [decode?, encode, Gzip.decode?_encode, Option.bind_some, Tar.decode?_encode h]

end Promotion.Archive
