import Promotion.Yaml.Resolve

/-!
# `Promotion.Proofs.Yaml.Whole`: how whole numbers are spelt

A plain scalar is a whole number in many spellings: with a sign, in the bases
sixteen, eight and two behind their marks, and as a row of decimal digits. The row
has no zero in front of it, so it is the one that the number is written with.

* `toDigits_ofDigitChars_cons`: such a row is the digits of its value.
* `Marked`: the other spellings start with a sign or with the mark of a base.
* `eq_digits_of_intOf?`: a whole number in no other spelling is its own digits.
-/

set_option autoImplicit false

namespace Promotion.Yaml

variable {s : List Char} {c : Char} {n m : Nat}

/-! ### Rows of digits -/

/-- A digit is the digit of its value. -/
theorem toDigits_of_isDigit (hc : c.isDigit = true) :
    Nat.toDigits 10 (c.toNat - '0'.toNat) = [c] := by
  obtain ⟨hlow, hhigh⟩ : 48 ≤ c.toNat ∧ c.toNat ≤ 57 := Char.isDigit_iff_toNat.mp hc
  have hlt : c.toNat - 48 < 10 := by omega
  have hchar : Nat.digitChar (c.toNat - 48) = c := by
    rw [← Char.toNat_inj, Nat.toNat_digitChar_of_lt_ten hlt]
    omega
  exact (Nat.toDigits_of_lt_base hlt).trans (congrArg ([·]) hchar)

/-- Digits behind those of a positive number are those of the number that the whole
row is. -/
theorem toDigits_append (hn : 0 < n) (hdigits : ∀ c ∈ s, c.isDigit = true) :
    Nat.toDigits 10 n ++ s = Nat.toDigits 10 (Nat.ofDigitChars 10 s n) := by
  -- By induction on the digits, with the number in front of them generalized.
  induction s generalizing n with
  | nil => rw [Nat.ofDigitChars_nil, List.append_nil]
  | cons c s ih =>
    rw [List.forall_mem_cons] at hdigits
    obtain ⟨hc, hdigits⟩ := hdigits
    obtain ⟨hlow, hhigh⟩ : 48 ≤ c.toNat ∧ c.toNat ≤ 57 := Char.isDigit_iff_toNat.mp hc
    have hlt : c.toNat - '0'.toNat < 10 := by
      change c.toNat - 48 < 10
      omega
    calc Nat.toDigits 10 n ++ c :: s
        = Nat.toDigits 10 n ++ Nat.toDigits 10 (c.toNat - '0'.toNat) ++ s := by
          rw [toDigits_of_isDigit hc, List.append_assoc, List.singleton_append]
      _ = Nat.toDigits 10 (10 * n + (c.toNat - '0'.toNat)) ++ s := by
          rw [Nat.toDigits_append_toDigits (by decide) hn hlt]
      _ = Nat.toDigits 10 (Nat.ofDigitChars 10 (c :: s) n) := by
          rw [ih (by omega) hdigits, Nat.ofDigitChars_cons]

/-- A row of digits that does not start with zero is the digits of its value. -/
theorem toDigits_ofDigitChars_cons (hc : c ≠ '0') (hdigits : ∀ d ∈ c :: s, d.isDigit = true) :
    Nat.toDigits 10 (Nat.ofDigitChars 10 (c :: s) 0) = c :: s := by
  rw [List.forall_mem_cons] at hdigits
  obtain ⟨hfirst, hdigits⟩ := hdigits
  have hne : c.toNat ≠ '0'.toNat := fun heq => hc (Char.toNat_inj.mp heq)
  have hpos : 0 < c.toNat - '0'.toNat := by
    have hlow := (Char.isDigit_iff_toNat.mp hfirst).1
    omega
  rw [Nat.ofDigitChars_cons, Nat.mul_zero, Nat.zero_add, ← toDigits_append hpos hdigits,
    toDigits_of_isDigit hfirst, List.singleton_append]

/-- A decimal digit has its value. -/
theorem digitOf?_ten (h : digitOf? 10 c = some n) : c.isDigit = true ∧ n = c.toNat - '0'.toNat := by
  rw [digitOf?, Option.filter_eq_some_iff] at h
  obtain ⟨hn, hlt⟩ := h
  have hlt : n < 10 := of_decide_eq_true hlt
  split at hn
  next hc => exact ⟨hc, (Option.some.inj hn).symm⟩
  -- Letters stand for ten and more.
  split at hn
  · have := Option.some.inj hn
    omega
  split at hn
  · have := Option.some.inj hn
    omega
  · cases hn

/-- A fold that stops at anything but a decimal digit reads a text of digits. -/
theorem ofDigitChars_of_foldl {step : Option Nat → Char → Option Nat}
    (hstep : ∀ {n? c m}, step n? c = some m →
      ∃ k, n? = some k ∧ c.isDigit = true ∧ m = 10 * k + (c.toNat - '0'.toNat))
    {m : Nat} {s : List Char} {n? : Option Nat} (h : s.foldl step n? = some m) :
    ∃ k, n? = some k ∧ (∀ c ∈ s, c.isDigit = true) ∧ m = Nat.ofDigitChars 10 s k := by
  induction s generalizing n? with
  | nil => exact ⟨m, h, nofun, Nat.ofDigitChars_nil.symm⟩
  | cons c s ih =>
    obtain ⟨l, hl, hdigits, hm⟩ := ih h
    obtain ⟨k, hk, hc, rfl⟩ := hstep hl
    exact ⟨k, hk, List.forall_mem_cons.mpr ⟨hc, hdigits⟩, by rw [hm, Nat.ofDigitChars_cons]⟩

/-- A row of decimal digits has the value of the row. -/
theorem digitsOf?_ten (h : digitsOf? 10 s = some n) :
    s ≠ [] ∧ (∀ c ∈ s, c.isDigit = true) ∧ n = Nat.ofDigitChars 10 s 0 := by
  rw [digitsOf?] at h
  split at h
  · cases h
  next hne =>
    -- Each step of the fold takes one decimal digit.
    refine (ofDigitChars_of_foldl ?_ h).elim fun k hfold => ?_
    · intro n? c m hm
      split at hm
      next k d hd =>
        obtain ⟨hc, rfl⟩ := digitOf?_ten hd
        exact ⟨k, rfl, hc, (Option.some.inj hm).symm⟩
      next => cases hm
    · obtain ⟨hk, hdigits, hn⟩ := hfold
      cases hk
      exact ⟨fun hnil => hne (by rw [hnil]; rfl), hdigits, hn⟩

/-! ### Spellings -/

/-- A text that starts with a sign, or with the mark of a base other than ten. -/
inductive Marked : List Char → Prop
  | sign {c : Char} {rest : List Char} (h : c = '+' ∨ c = '-') : Marked (c :: rest)
  | base {c : Char} {rest : List Char} (h : c ∈ ['x', 'o', 'b']) : Marked ('0' :: c :: rest)

/-- A text that is not marked has no base. -/
theorem basedDigits?_of_not_marked (h : ¬ Marked s) : basedDigits? s = none := by
  unfold basedDigits?
  split
  · exact absurd (.base (by simp)) h
  · exact absurd (.base (by simp)) h
  · exact absurd (.base (by simp)) h
  · rfl

/-- A text that is not marked has no sign. -/
theorem unsigned_of_not_marked (h : ¬ Marked s) : unsigned s = s := by
  unfold unsigned
  split
  · exact absurd (.sign (.inl rfl)) h
  · exact absurd (.sign (.inr rfl)) h
  · rfl

/-- A text that is not marked is a whole number when its digits are. -/
theorem wholeOf?_of_not_marked {t : String} (h : ¬ Marked t.toList) :
    wholeOf? t = (magnitude? t.toList).map Int.ofNat := by
  unfold wholeOf?
  split
  next heq => exact absurd (heq ▸ .sign (.inr rfl)) h
  next heq => exact absurd (heq ▸ .sign (.inl rfl)) h
  next => cases magnitude? t.toList <;> rfl

/-- A size that is written without a mark is its digits. -/
theorem eq_toDigits_of_magnitude? (hmarked : ¬ Marked s) (h : magnitude? s = some n) :
    s = Nat.toDigits 10 n := by
  rw [magnitude?, basedDigits?_of_not_marked hmarked] at h
  dsimp only at h
  rw [Option.ite_none_left_eq_some] at h
  obtain ⟨hzero, h⟩ := h
  obtain ⟨hne, hdigits, rfl⟩ := digitsOf?_ten h
  rw [hasLeadingZero, unsigned_of_not_marked hmarked] at hzero
  obtain ⟨c, rest, rfl⟩ := List.exists_cons_of_ne_nil hne
  by_cases hc : c = '0'
  · subst hc
    -- Anything behind a zero in front would be digits.
    cases rest with
    | nil => rfl
    | cons c rest =>
      refine absurd (List.all_eq_true.mpr fun d hd => ?_) hzero
      exact hdigits d (List.mem_cons_of_mem _ hd)
  · exact (toDigits_ofDigitChars_cons hc hdigits).symm

/-- A whole number that is written without a mark is not negative, and is written
as its digits. -/
theorem eq_digits_of_intOf? {t : String} {i : Int} (hmarked : ¬ Marked t.toList)
    (h : intOf? t = some (.fits i)) :
    ∃ n : Nat, i = n ∧ n < Nat.pow 2 64 ∧ t = String.ofList (Nat.toDigits 10 n) := by
  rw [intOf?, wholeOf?_of_not_marked hmarked] at h
  -- Without a mark the magnitude is the number, and its digits are the text.
  cases hsize : magnitude? t.toList with
  | none =>
    rw [hsize] at h
    cases h
  | some n =>
    rw [hsize, Option.map_some] at h
    simp only at h
    split at h
    next hrange =>
      cases h
      have hlt := of_decide_eq_true (Bool.and_eq_true_iff.mp hrange).2
      refine ⟨n, rfl, Int.ofNat_lt.mp hlt, ?_⟩
      rw [← eq_toDigits_of_magnitude? hmarked hsize, String.ofList_toList]
    next => split at h <;> cases h

end Promotion.Yaml
