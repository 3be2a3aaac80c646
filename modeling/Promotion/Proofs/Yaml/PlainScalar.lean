import Promotion.Proofs.Yaml.Folding
import Promotion.Proofs.Yaml.Printer
import Promotion.Yaml.PlainScalar

/-!
# `Promotion.Proofs.Yaml.PlainScalar`: plain scalars are read back

* `read_plain`: a plain scalar at the end of a line, up to the next line.
* `read_word`: a word before a colon.
-/

set_option autoImplicit false

namespace Promotion.Yaml.PlainScalar

open Printer (PlainRest isPrintable exists_row)

variable {flow : Bool} {indent fuel : Nat} {done blanks s spaces rest : List Char} {c : Char}
  {f : Folding} {m : Mark}

/-- A character of the scalar is added, with the white space before it. -/
theorem readFrom_cons (hblank : isBlank c = false) (hbreak : isBreak c = false)
    (hend : c = ':' → atGap rest = false) :
    readFrom false indent (fuel + 1) done f ⟨c :: rest, m⟩
      = readFrom false indent fuel (c :: (f.text.reverse ++ done)) {} ⟨rest, m.advance 1⟩ := by
  have hisEnd : isEnd false c rest = false := by
    by_cases hc : c = ':'
    · simp [isEnd, hend hc]
    · simp [isEnd, hc]
  simp [readFrom, hblank, hbreak, isBadColon, hisEnd]

/-- White space is read up to its end, which may be the end of the scalar. -/
theorem readFrom_fold {f' : Folding} {next : Cursor} (hc : isBlank c = true ∨ isBreak c = true)
    (hfold : Folding.read indent (c :: rest).length f ⟨c :: rest, m⟩ = .ok (f', next)) :
    readFrom false indent (fuel + 1) done f ⟨c :: rest, m⟩
      = if next.mark.column < indent ∨ next.atDocument = true ∨ next.rest.head? = some '#' then
          .ok ⟨done.reverse, f'.broken, next⟩
        else readFrom false indent fuel done f' next := by
  have hgap : (isBlank c || isBreak c) = true := by simpa using hc
  simp only [readFrom, hgap, if_true, hfold]
  simp [or_assoc]

/-- A scalar at the end of a line, of which a part is read. The induction is on
the fuel; white space that was read is followed by a character. -/
theorem readFrom_plain (fuel : Nat) (done blanks : List Char) (hs : PlainRest s)
    (hblanks : blanks = [] ∨ ∃ c ∈ s.head?, c ≠ ' ') (hfuel : s.length < fuel)
    (hcolumn : indent ≤ m.column) (hspaces : ∀ c ∈ spaces, c = ' ') (hindent : spaces.length < indent) (hrest : Folding.Ends rest) :
    ∃ m', m'.column = spaces.length ∧
      readFrom false indent fuel done { blanks := blanks } ⟨s ++ '\n' :: (spaces ++ rest), m⟩
        = .ok ⟨done.reverse ++ blanks ++ s, true, ⟨rest, m'⟩⟩ := by
  induction fuel generalizing s done blanks m with
  | zero => omega
  | succ fuel ih =>
    cases s with
    | nil =>
      obtain rfl : blanks = [] := by simpa using hblanks
      obtain ⟨m', hm', hread⟩ := Folding.read_breaks indent ('\n' :: (spaces ++ rest)).length
        [] (b := '\n') (m := m) hspaces hrest nofun rfl rfl (by simp)
      refine ⟨m', hm', ?_⟩
      rw [List.nil_append, readFrom_fold (.inr rfl) hread, if_pos (.inl (hm' ▸ hindent))]
      simp
    | cons c s =>
      rw [List.length_cons] at hfuel
      by_cases hc : c = ' '
      · subst hc
        obtain rfl : blanks = [] := by simpa using hblanks
        -- A row of spaces; the scalar goes on after it.
        obtain ⟨row, s, rfl, hrow, hhead⟩ := exists_row (· = ' ') s
        simp only [decide_eq_true_eq, decide_eq_false_iff_not] at hrow hhead
        obtain ⟨d, t, rfl, hd⟩ := hs.after_row hrow
        have hdspace : d ≠ ' ' := hhead d rfl
        have ht : PlainRest (d :: t) := hs.tail.append
        have hends : Folding.Ends (d :: t ++ '\n' :: (spaces ++ rest)) :=
          Folding.ends_cons (ht.not_blank hdspace) ht.not_break
        have hfold := Folding.read_spaces indent
          (' ' :: (row ++ (d :: t ++ '\n' :: (spaces ++ rest)))).length (f := {}) (m := m)
          (List.forall_mem_cons.mpr ⟨rfl, hrow⟩) hends rfl (by simp)
        obtain ⟨m', hm', hread⟩ := ih done (' ' :: row)
          (m := m.advance (' ' :: row).length) ht (.inr ⟨d, rfl, hdspace⟩)
          (by simp only [List.length_append] at hfuel; omega)
          (Nat.le_trans hcolumn (Nat.le_add_right ..))
        refine ⟨m', hm', ?_⟩
        rw [List.cons_append, List.append_assoc, readFrom_fold (.inl rfl) hfold, if_neg]
        · simpa using hread
        · have hlt : 0 < (m.advance (' ' :: row).length).column :=
            Nat.lt_of_lt_of_le (Nat.succ_pos _) (Nat.le_add_left ..)
          rintro (hindented | hdocument | hcomment)
          · exact absurd (Nat.le_trans hcolumn (Nat.le_add_right ..)) (Nat.not_le.mpr hindented)
          · rw [Cursor.atDocument_of_column hlt] at hdocument
            cases hdocument
          · exact hd (Option.some.inj hcomment)
      · have hmark : c = ':' → atGap (s ++ '\n' :: (spaces ++ rest)) = false := by
          intro hcolon
          have hgap := hs.not_mark hcolon
          cases s with
          | nil => cases hgap
          | cons d s => exact hgap
        obtain ⟨m', hm', hread⟩ := ih (c :: (blanks.reverse ++ done)) []
          (m := m.advance 1) hs.tail (.inl rfl) (Nat.lt_of_succ_lt_succ hfuel)
          (Nat.le_trans hcolumn (Nat.le_add_right ..))
        refine ⟨m', hm', ?_⟩
        rw [List.cons_append, readFrom_cons (hs.not_blank hc) hs.not_break hmark]
        simp [Folding.text, hread]

/-- A plain scalar at the end of a line is read, and so are the line break and
the indentation of the next line. -/
theorem read_plain (indent : Nat) (hs : PlainRest s) (hcolumn : indent ≤ m.column)
    (hspaces : ∀ c ∈ spaces, c = ' ') (hindent : spaces.length < indent)
    (hrest : Folding.Ends rest) :
    ∃ m', m'.column = spaces.length ∧
      read false indent ⟨s ++ '\n' :: (spaces ++ rest), m⟩ = .ok ⟨s, true, ⟨rest, m'⟩⟩ := by
  simpa [read] using readFrom_plain (s ++ '\n' :: (spaces ++ rest)).length [] [] hs (.inl rfl)
    (by simp) hcolumn hspaces hindent hrest

/-- A word before a colon is read. -/
theorem read_word (indent : Nat) (rest : List Char) (hs : ∀ c ∈ s, c.isAlpha = true) :
    read false indent ⟨s ++ ':' :: ' ' :: rest, m⟩
      = .ok ⟨s, false, ⟨':' :: ' ' :: rest, m.advance s.length⟩⟩ := by
  -- The word so far and the steps that are left are generalized.
  suffices h : ∀ fuel done, s.length < fuel →
      readFrom false indent fuel done {} ⟨s ++ ':' :: ' ' :: rest, m⟩
        = .ok ⟨done.reverse ++ s, false, ⟨':' :: ' ' :: rest, m.advance s.length⟩⟩ from
    h _ [] (by simp)
  intro fuel
  induction fuel generalizing s m with
  | zero => omega
  | succ fuel ih =>
    intro done hfuel
    cases s with
    | nil => simp [readFrom, isBlank, isBreak, isBadColon, isEnd, atGap]
    | cons c s =>
      obtain ⟨hc, hs⟩ := List.forall_mem_cons.mp hs
      have hcolon : c ≠ ':' := ne_of_isAlpha hc rfl
      rw [List.cons_append, readFrom_cons (isBlank_of_isAlpha hc) (isBreak_of_isAlpha hc)
        fun h => absurd h hcolon]
      have hread := ih (m := m.advance 1) hs (c :: done) (Nat.lt_of_succ_lt_succ hfuel)
      simpa [Folding.text, Nat.add_comm] using hread

end Promotion.Yaml.PlainScalar
