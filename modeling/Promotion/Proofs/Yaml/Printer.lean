import Promotion.Proofs.Yaml.Folding

/-!
# `Promotion.Proofs.Yaml.Printer`: what is written for a text

The styles of the printer, as the readers need them: what holds of what is left of
a text while it is read, and how its characters are spread over lines.

* `PlainRest`, `SingleRest`: what is left of a text that is written without
  quotation marks, and of one between single ones.
* `lines_of_ends`: the text of a literal block is made of lines.
* `plain_of_styleOf`, `single_of_styleOf`, `literal_of_styleOf`: what a style says
  about the text.
-/

set_option autoImplicit false

namespace Promotion.Yaml.Printer

variable {s t : List Char} {c d : Char}

/-- Neighbours stay neighbours when a character is put in front. -/
theorem mem_neighbours_cons {x : Char × Char} (h : x ∈ neighbours s) : x ∈ neighbours (c :: s) := by
  cases s with
  | nil => cases h
  | cons d s => exact List.mem_cons_of_mem _ h

/-- The neighbours in what is left of a text are neighbours in the text. -/
theorem mem_neighbours_append {x : Char × Char} (h : x ∈ neighbours t) :
    x ∈ neighbours (s ++ t) := by
  induction s with
  | nil => exact h
  | cons c s ih => exact mem_neighbours_cons ih

/-- A row of characters ends with a neighbour of what follows it. -/
theorem exists_mem_neighbours {row : List Char} (d : Char) (t : List Char) (hrow : row ≠ []) :
    ∃ c ∈ row, (c, d) ∈ neighbours (row ++ d :: t) := by
  refine ⟨row.getLast hrow, List.getLast_mem hrow, ?_⟩
  have heq : row.dropLast ++ row.getLast hrow :: d :: t = row ++ d :: t := by
    rw [List.append_cons, List.dropLast_concat_getLast]
  exact heq ▸ mem_neighbours_append (List.mem_cons_self ..)

/-- A text goes on with a row of characters that satisfy `p`, and then with
another one. -/
theorem exists_row (p : Char → Bool) (s : List Char) :
    ∃ row rest, s = row ++ rest ∧ (∀ c ∈ row, p c = true) ∧ ∀ c ∈ rest.head?, p c = false := by
  refine ⟨s.takeWhile p, s.dropWhile p, List.takeWhile_append_dropWhile.symm,
    List.all_eq_true.mp List.all_takeWhile, ?_⟩
  have hhead := List.head?_dropWhile_not p s
  intro c hc
  rw [Option.mem_def] at hc
  simpa [hc] using hhead

/-! ### Plain scalars -/

/-- What is left of a text that is written without quotation marks. -/
structure PlainRest (s : List Char) : Prop where
  printable : ∀ c ∈ s, isPrintable c = true
  unbroken : ∀ c ∈ s, isBreak c = false
  noComment : (' ', '#') ∉ neighbours s
  noValueMark : hasValueMark.go s = false
  noLastSpace : s.getLast? ≠ some ' '

/-- What is left of a plain scalar after a character is still the end of one. -/
theorem PlainRest.tail (h : PlainRest (c :: s)) : PlainRest s where
  printable := fun d hd => h.printable d (List.mem_cons_of_mem _ hd)
  unbroken := fun d hd => h.unbroken d (List.mem_cons_of_mem _ hd)
  noComment := fun hmem => h.noComment (mem_neighbours_cons hmem)
  noValueMark := (Bool.or_eq_false_iff.mp h.noValueMark).2
  noLastSpace := by
    intro hlast
    refine h.noLastSpace ?_
    rw [List.getLast?_cons, hlast]
    rfl

/-- So it is after any number of characters. -/
theorem PlainRest.append (h : PlainRest (s ++ t)) : PlainRest t := by
  induction s with
  | nil => exact h
  | cons c s ih => exact ih h.tail

/-- A character of a plain scalar that is no space is no blank. -/
theorem PlainRest.not_blank (h : PlainRest (c :: s)) (hc : c ≠ ' ') : isBlank c = false :=
  isBlank_of_ne_space (h.printable c (List.mem_cons_self ..)) hc

/-- A plain scalar has no line break. -/
theorem PlainRest.not_break (h : PlainRest (c :: s)) : isBreak c = false :=
  h.unbroken c (List.mem_cons_self ..)

/-- After a row of spaces a plain scalar goes on, and not like a comment. -/
theorem PlainRest.after_row {row : List Char} (h : PlainRest (' ' :: (row ++ s)))
    (hrow : ∀ c ∈ row, c = ' ') : ∃ d t, s = d :: t ∧ d ≠ '#' := by
  have hspaces : ∀ c ∈ ' ' :: row, c = ' ' := List.forall_mem_cons.mpr ⟨rfl, hrow⟩
  cases s with
  | nil =>
    -- The spaces would be the end of the scalar.
    refine absurd ?_ h.noLastSpace
    rw [List.append_nil, List.getLast?_eq_some_getLast (List.cons_ne_nil ' ' row)]
    exact congrArg some (hspaces _ (List.getLast_mem _))
  | cons d t =>
    refine ⟨d, t, rfl, ?_⟩
    rintro rfl
    -- A `#` would stand after a space, and begin a comment.
    obtain ⟨c, hc, hmem⟩ := exists_mem_neighbours '#' t (List.cons_ne_nil ' ' row)
    obtain rfl := hspaces c hc
    exact h.noComment hmem

/-- A colon in a plain scalar stands before no gap. -/
theorem PlainRest.not_mark (h : PlainRest (c :: s)) (hc : c = ':') : atGap s = false := by
  have hmark := (Bool.or_eq_false_iff.mp h.noValueMark).1
  simpa [hc] using hmark

/-! ### Texts between single quotation marks -/

/-- The margin of a continued line is spaces. -/
theorem eq_of_mem_margin : ∀ c ∈ margin, c = ' ' := by simp [margin]

/-- What is left of a text that is written between single quotation marks. -/
structure SingleRest (s : List Char) : Prop where
  printable : ∀ c ∈ s, isPrintable c = true
  noLineFeed : '\n' ∉ s
  noSpaceBefore : ∀ c, isBreak c = true → (' ', c) ∉ neighbours s
  noSpaceAfter : ∀ c, isBreak c = true → (c, ' ') ∉ neighbours s

/-- What is left of a single-quoted text after a character is still the end of one. -/
theorem SingleRest.tail (h : SingleRest (c :: s)) : SingleRest s where
  printable := fun d hd => h.printable d (List.mem_cons_of_mem _ hd)
  noLineFeed := fun hmem => h.noLineFeed (List.mem_cons_of_mem _ hmem)
  noSpaceBefore := fun d hd hmem => h.noSpaceBefore d hd (mem_neighbours_cons hmem)
  noSpaceAfter := fun d hd hmem => h.noSpaceAfter d hd (mem_neighbours_cons hmem)

/-- So it is after any number of characters. -/
theorem SingleRest.append (h : SingleRest (s ++ t)) : SingleRest t := by
  induction s with
  | nil => exact h
  | cons c s ih => exact ih h.tail

/-- After a row of spaces there is no more white space. -/
theorem SingleRest.after_spaces {row : List Char} (h : SingleRest (' ' :: (row ++ s)))
    (hrow : ∀ c ∈ row, c = ' ') (hs : ∀ c ∈ s.head?, c ≠ ' ') : Folding.Ends s := by
  cases s with
  | nil => exact Folding.ends_nil
  | cons d s =>
    refine Folding.ends_cons ?_ ?_
    · exact isBlank_of_ne_space (h.printable d (by simp)) (hs d rfl)
    · -- A break would stand after a space, which the reader drops.
      by_contra hbreak
      obtain ⟨c, hc, hmem⟩ := exists_mem_neighbours d s (List.cons_ne_nil ' ' row)
      have hspaces : ∀ c ∈ ' ' :: row, c = ' ' := List.forall_mem_cons.mpr ⟨rfl, hrow⟩
      obtain rfl := hspaces c hc
      exact h.noSpaceBefore d (by simpa using hbreak) hmem

/-- After a row of line breaks there is no more white space. -/
theorem SingleRest.after_breaks {row : List Char} (h : SingleRest (c :: (row ++ s)))
    (hrow : ∀ d ∈ c :: row, isBreak d = true) (hs : ∀ d ∈ s.head?, isBreak d = false) :
    Folding.Ends s := by
  cases s with
  | nil => exact Folding.ends_nil
  | cons d s =>
    refine Folding.ends_cons ?_ (hs d rfl)
    by_contra hblank
    obtain rfl := eq_space_of_isBlank (h.printable d (by simp)) (by simpa using hblank)
    obtain ⟨b, hb, hmem⟩ := exists_mem_neighbours ' ' s (List.cons_ne_nil c row)
    exact h.noSpaceAfter b (hrow b hb) hmem

section Rows

variable {row : List Char}

/-- Spaces in single quotes are written as they are. -/
theorem singleQuotedFrom_spaces (hrow : ∀ c ∈ row, c = ' ') (broken : Bool) (t : List Char) :
    singleQuotedFrom broken (row ++ t) = row ++ singleQuotedFrom broken t := by
  induction row with
  | nil => rfl
  | cons c row ih =>
    obtain ⟨rfl, htail⟩ := List.forall_mem_cons.mp hrow
    simp [singleQuotedFrom, isBreak, ih htail]

/-- So are line breaks, and what comes after them starts a new line. -/
theorem singleQuotedFrom_breaks (hc : isBreak c = true) (hrow : ∀ c ∈ row, isBreak c = true)
    (broken : Bool) (t : List Char) :
    singleQuotedFrom broken (c :: row ++ t) = c :: row ++ singleQuotedFrom true t := by
  induction row generalizing c broken with
  | nil => simp [singleQuotedFrom, hc]
  | cons d row ih =>
    obtain ⟨hd, htail⟩ := List.forall_mem_cons.mp hrow
    rw [List.cons_append, singleQuotedFrom, if_pos hc, ih hd htail]
    rfl

end Rows

section Ends

variable (hs : Folding.Ends s)

include hs

/-- The line after line breaks is indented. -/
theorem singleQuotedFrom_margin : singleQuotedFrom true s = margin ++ singleQuotedFrom false s := by
  cases s with
  | nil => rfl
  | cons c s =>
    obtain ⟨hblank, hbreak⟩ := hs c rfl
    have hspace : c ≠ ' ' := ne_space_of_isBlank hblank
    simp [singleQuotedFrom, hbreak, hspace]

/-- What follows a folded part is another character of the text, or the quote at its
end. -/
theorem ends_singleQuotedFrom (rest : List Char) :
    Folding.Ends (singleQuotedFrom false s ++ '\'' :: rest) := by
  cases s with
  | nil => exact Folding.ends_cons rfl rfl
  | cons c s =>
    obtain ⟨hblank, hbreak⟩ := hs c rfl
    have hspace : c ≠ ' ' := ne_space_of_isBlank hblank
    simp only [singleQuotedFrom, hbreak, hspace, Bool.false_eq_true, if_false, List.nil_append]
    split
    · exact Folding.ends_cons rfl rfl
    · exact Folding.ends_cons hblank hbreak

end Ends

/-- Writing a text in single quotes does not shorten it. -/
theorem length_le_singleQuotedFrom (broken : Bool) (s : List Char) :
    s.length ≤ (singleQuotedFrom broken s).length := by
  induction s generalizing broken with
  | nil => exact Nat.zero_le _
  | cons c s ih =>
    rw [singleQuotedFrom]
    split
    · exact Nat.succ_le_succ (ih true)
    split
    · exact Nat.succ_le_succ (ih broken)
    · -- Quotes are doubled, and a margin may be put in.
      have hrest := ih false
      split <;> split <;> simp <;> omega

/-! ### Texts between double quotation marks -/

/-- Spaces in double quotes are written as they are. -/
theorem flatMap_spaces {row : List Char} (hrow : ∀ c ∈ row, c = ' ') :
    row.flatMap doubleQuotedChar = row := by
  induction row with
  | nil => rfl
  | cons c row ih =>
    obtain ⟨rfl, htail⟩ := List.forall_mem_cons.mp hrow
    rw [List.flatMap_cons, ih htail]
    rfl

/-- Writing a text in double quotes does not shorten it. -/
theorem length_le_doubleQuoted (s : List Char) :
    s.length ≤ (s.flatMap doubleQuotedChar).length := by
  induction s with
  | nil => exact Nat.zero_le _
  | cons c s ih =>
    rw [List.flatMap_cons, List.length_append, List.length_cons, Nat.add_comm]
    refine Nat.add_le_add ?_ ih
    unfold doubleQuotedChar
    split <;> simp

/-! ### Literal blocks -/

/-- Line breaks in a literal block are written as they are. -/
theorem literalFrom_breaks {row : List Char} (hrow : ∀ c ∈ row, isBreak c = true) (t : List Char) :
    literalFrom true (row ++ t) = row ++ literalFrom true t := by
  induction row with
  | nil => rfl
  | cons c row ih =>
    obtain ⟨hc, htail⟩ := List.forall_mem_cons.mp hrow
    rw [List.cons_append, literalFrom, if_pos hc, ih htail]
    rfl

/-- The rest of a line in a literal block is written as it is. -/
theorem literalFrom_line {line : List Char} (hline : ∀ c ∈ line, isBreak c = false)
    (t : List Char) :
    literalFrom false (line ++ t) = line ++ literalFrom false t := by
  induction line with
  | nil => rfl
  | cons c line ih =>
    obtain ⟨hc, htail⟩ := List.forall_mem_cons.mp hline
    simp [literalFrom, hc, ih htail]

/-- A line of a literal block is indented. -/
theorem literalFrom_margin (hc : isBreak c = false) (s : List Char) :
    literalFrom true (c :: s) = margin ++ literalFrom false (c :: s) := by
  simp [literalFrom, hc]

/-- The last line of a literal block may be ended after it is written. -/
theorem literalFrom_lineFeed (fresh : Bool) (s : List Char) :
    literalFrom fresh (s ++ ['\n']) = literalFrom fresh s ++ ['\n'] := by
  induction s generalizing fresh with
  | nil => rfl
  | cons c s ih =>
    rw [List.cons_append, literalFrom, literalFrom]
    split
    · rw [ih]
      rfl
    · rw [ih]
      simp

/-- Writing a text as a literal block does not shorten it. -/
theorem length_le_literalFrom (fresh : Bool) (s : List Char) :
    s.length ≤ (literalFrom fresh s).length := by
  induction s generalizing fresh with
  | nil => exact Nat.zero_le _
  | cons c s ih =>
    rw [literalFrom]
    split
    · exact Nat.succ_le_succ (ih true)
    · rw [List.length_append]
      exact Nat.le_trans (Nat.succ_le_succ (ih false)) (Nat.le_add_left ..)

/-- A literal block ends in the last character of its text. -/
theorem getLast?_literalFrom (fresh : Bool) (s : List Char) :
    (literalFrom fresh s).getLast? = s.getLast? := by
  induction s generalizing fresh with
  | nil => rfl
  | cons c s ih =>
    rw [literalFrom]
    split
    · rw [List.getLast?_cons, List.getLast?_cons, ih]
    · rw [List.getLast?_append, List.getLast?_cons, List.getLast?_cons, ih, Option.some_or]

/-- A line that was ended ends with a line break. -/
theorem isBreak_of_endLine : ∀ c ∈ (endLine s).getLast?, isBreak c = true := by
  intro c hc
  unfold endLine at hc
  split at hc
  next h =>
    rw [Option.mem_def] at hc
    simpa [hc] using h
  next =>
    obtain rfl : '\n' = c := by simpa using hc
    rfl

/-- The line break that may be added at the end can be printed. -/
theorem isPrintable_of_endLine (hs : ∀ c ∈ s, isPrintable c = true) :
    ∀ c ∈ endLine s, isPrintable c = true := by
  intro c hc
  unfold endLine at hc
  split at hc
  · exact hs c hc
  · rcases List.mem_append.mp hc with hc | hc
    · exact hs c hc
    · obtain rfl := List.mem_singleton.mp hc
      rfl

/-- Ending the last line leaves the first character where it is. -/
theorem endLine_cons (c : Char) (s : List Char) : ∃ t, endLine (c :: s) = c :: t := by
  unfold endLine
  split
  · exact ⟨s, rfl⟩
  · exact ⟨s ++ ['\n'], rfl⟩

/-- Only the end of a text matters to how its last line is ended. -/
theorem endLine_append (s : List Char) (ht : t ≠ []) : endLine (s ++ t) = s ++ endLine t := by
  have hlast : (s ++ t).getLast? = t.getLast? := by
    rw [List.getLast?_append, List.getLast?_eq_some_getLast ht, Option.some_or]
  rw [endLine, endLine, hlast]
  split
  · rfl
  · rw [List.append_assoc]

/-- A text without line breaks gets one. -/
theorem endLine_of_unbroken (hs : ∀ c ∈ s, isBreak c = false) : endLine s = s ++ ['\n'] := by
  cases hlast : s.getLast? with
  | none => simp [endLine, hlast]
  | some c => simp [endLine, hlast, hs c (List.mem_of_getLast? hlast)]

/-- The line of a quoted text is ended after the second mark. -/
theorem endLine_quoted (hc : isBreak c = false) (s t : List Char) :
    endLine (c :: (s ++ [c])) ++ t = c :: (s ++ c :: '\n' :: t) := by
  have hlast : (c :: (s ++ [c])).getLast? = some c := by
    rw [← List.cons_append, List.getLast?_concat]
  simp [endLine, hlast, hc]

/-- The last line may be ended before the margins are put in or after it. -/
theorem endLine_literalFrom (s : List Char) :
    endLine (literalFrom true s) = literalFrom true (endLine s) := by
  rw [endLine, endLine, getLast?_literalFrom]
  split
  · rfl
  · rw [literalFrom_lineFeed]

/-- Lines that are not empty, each with a row of line breaks after it. -/
inductive Lines : List Char → Prop
  | nil : Lines []
  | cons {c b : Char} {line row t : List Char} (hline : ∀ d ∈ c :: line, isBreak d = false)
      (hrow : ∀ d ∈ b :: row, isBreak d = true) (h : Lines t) :
      Lines (c :: line ++ b :: (row ++ t))

/-- Lines do not start with a line break. -/
theorem Lines.head (h : Lines (c :: s)) : isBreak c = false := by
  cases h with
  | cons hline => exact hline c (List.mem_cons_self ..)

/-- A line of a literal block, and the breaks after it, are written as they are; the
margin stands before the next line. -/
theorem literalFrom_cons {b : Char} {line row : List Char}
    (hline : ∀ d ∈ c :: line, isBreak d = false) (hrow : ∀ d ∈ b :: row, isBreak d = true)
    (t : List Char) : literalFrom false (c :: line ++ b :: (row ++ t))
      = c :: line ++ b :: (row ++ literalFrom true t) := by
  obtain ⟨hb, htail⟩ := List.forall_mem_cons.mp hrow
  rw [literalFrom_line hline, literalFrom, if_pos hb, literalFrom_breaks htail]

/-- A text that starts within a line and ends with a line break is made of lines.
The induction is on its length. -/
theorem lines_of_ends (hstart : ∀ c ∈ s.head?, isBreak c = false)
    (hend : ∀ c ∈ s.getLast?, isBreak c = true) : Lines s := by
  -- By induction on the length: a line and the breaks after it are taken off at a time.
  induction hn : s.length using Nat.strongRecOn generalizing s with
  | ind n ih =>
    obtain ⟨line, t, rfl, hline, hbreak⟩ := exists_row (fun c => !isBreak c) s
    simp only [Bool.not_eq_true', Bool.not_eq_false'] at hline hbreak
    cases line with
    | nil =>
      cases t with
      | nil => exact .nil
      -- An empty line at the start is excluded,
      | cons c t => cases (hstart c rfl).symm.trans (hbreak c rfl)
    | cons c line =>
      cases t with
      | nil =>
        -- and so is an end without a break.
        have hne : c :: line ≠ [] := List.cons_ne_nil c line
        rw [List.append_nil, List.getLast?_eq_some_getLast hne] at hend
        cases (hline _ (List.getLast_mem hne)).symm.trans (hend _ rfl)
      | cons b t =>
        obtain ⟨row, t, rfl, hrow, hnext⟩ := exists_row isBreak t
        refine .cons hline (List.forall_mem_cons.mpr ⟨hbreak b rfl, hrow⟩) (ih _ ?_ hnext ?_ rfl)
        · simp only [← hn, List.length_append, List.length_cons]
          omega
        · intro d hd
          refine hend d ?_
          cases t with
          | nil => cases hd
          | cons e t => simpa [List.getLast?_append, List.getLast?_cons] using hd

/-! ### Styles -/

/-- No space stands before a line break in what is written without escapes. -/
theorem isClean_iff : isClean s = true ↔ (∀ c ∈ s, isPrintable c = true) ∧
    ∀ c, isBreak c = true → (' ', c) ∉ neighbours s := by
  simp only [isClean, Bool.and_eq_true, List.all_eq_true, Bool.not_eq_true', List.any_eq_false,
    decide_eq_true_eq]
  refine and_congr_right fun _ => ⟨fun h c hc hmem => h _ hmem ⟨rfl, hc⟩, ?_⟩
  rintro h ⟨c, d⟩ hmem ⟨hc, hd⟩
  obtain rfl : c = ' ' := hc
  exact h d hd hmem

/-- A text that may stand in single quotes, with no line feed in it, can be read from
there. -/
theorem singleRest_of_singleAllowed (h : singleAllowed s = true) (hs : '\n' ∉ s) :
    SingleRest s := by
  rw [singleAllowed, Bool.and_eq_true, isClean_iff] at h
  refine ⟨h.1.1, hs, h.1.2, fun c hc hmem => ?_⟩
  have hnone := h.2
  simp only [Bool.not_eq_true', List.any_eq_false] at hnone
  exact hnone _ hmem (by simp [hc])

/-- How a plain scalar starts. -/
theorem start_of_plainAllowed (h : plainAllowed (c :: s) = true) :
    c ≠ ' ' ∧ startIndicators.contains c = false ∧
      (gapIndicators.contains c = true → atGap s = false) := by
  simp only [plainAllowed, Bool.and_eq_true, Bool.not_eq_true'] at h
  obtain ⟨⟨⟨-, hgap⟩, -⟩, hindicator⟩ := h
  -- An indicator is allowed at the start only where a character follows that it can stand before.
  simp only [hasIndicator, Bool.or_eq_false_iff] at hindicator
  obtain ⟨⟨⟨-, hstart⟩, -⟩, -⟩ := hindicator
  refine ⟨?_, hstart.1, fun hmem => ?_⟩
  · rintro rfl
    simp [hasOuterGap] at hgap
  · have hnone := hstart.2
    rwa [hmem, Bool.true_and] at hnone

/-- The line break after a text does not matter for whether it starts with a gap. -/
theorem atGap_append_lineFeed (s t : List Char) : atGap (s ++ '\n' :: t) = atGap s := by
  cases s <;> rfl

/-- A text that may stand without quotes is a plain scalar to the reader: it has neither
a comment nor a mark of a value in it. -/
theorem plainRest_of_plainAllowed (h : plainAllowed s = true) : PlainRest s := by
  have hstart : ∀ c t, s = c :: t → gapIndicators.contains c = true → atGap t = false :=
    fun c t hs => (start_of_plainAllowed (hs ▸ h)).2.2
  simp only [plainAllowed, Bool.and_eq_true, Bool.not_eq_true', isClean_iff] at h
  obtain ⟨⟨⟨⟨hprintable, -⟩, hgap⟩, hbreak⟩, hindicator⟩ := h
  rw [List.any_eq_false] at hbreak
  simp only [hasIndicator, Bool.or_eq_false_iff] at hindicator
  obtain ⟨⟨-, hmark⟩, hcomment⟩ := hindicator
  refine ⟨hprintable, fun c hc => by simpa using hbreak c hc, fun hmem => ?_, ?_, fun hlast => ?_⟩
  · rw [List.any_eq_false] at hcomment
    exact hcomment _ hmem (by simp [isBlank])
  · cases s with
    | nil => rfl
    | cons c s =>
      rw [hasValueMark.go, Bool.or_eq_false_iff]
      refine ⟨?_, hmark⟩
      -- A colon at the start is followed by no gap.
      by_cases hcolon : c = ':'
      · rw [hstart c s rfl (hcolon ▸ rfl), Bool.and_false]
      · simp [hcolon]
  · simp [hasOuterGap, hlast] at hgap

/-- The line of a literal block is ended after its last line. -/
theorem endLine_literal (hs : s ≠ []) :
    endLine (literalHeader s ++ '\n' :: literalFrom true s)
      = literalHeader s ++ '\n' :: literalFrom true (endLine s) := by
  have hlines : literalFrom true s ≠ [] := by
    intro hnil
    have hlength := length_le_literalFrom true s
    rw [hnil] at hlength
    exact hs (List.eq_nil_of_length_eq_zero (Nat.le_zero.mp hlength))
  have hline : endLine ('\n' :: literalFrom true s) = '\n' :: endLine (literalFrom true s) :=
    endLine_append ['\n'] hlines
  rw [endLine_append _ (List.cons_ne_nil '\n' _), hline, endLine_literalFrom]

section StyleOf

variable {text : String}

/-- Only texts that stand for nothing else are written plainly. -/
theorem plain_of_styleOf (h : styleOf text = .plain) :
    plainAllowed text.toList = true ∧ isAmbiguous text = false := by
  simp only [styleOf] at h
  split at h
  · split at h <;> cases h
  split at h
  next hplain => simpa [and_comm] using hplain
  · split at h <;> cases h

/-- No text is written as nothing. -/
theorem ne_nil_of_isAmbiguous (h : isAmbiguous text = false) : text.toList ≠ [] := by
  intro hnil
  obtain rfl : text = "" := String.toList_eq_nil_iff.mp hnil
  cases h

/-- Only texts that can be read from there are written in single quotes. -/
theorem single_of_styleOf (h : styleOf text = .singleQuoted) : SingleRest text.toList := by
  simp only [styleOf] at h
  split at h
  · split at h <;> cases h
  next hlines =>
    split at h
    · cases h
    split at h
    next hsingle => exact singleRest_of_singleAllowed hsingle (by simpa using hlines)
    · cases h

/-- Only texts that are not empty, and have no character that must be escaped, are
written as literal blocks. -/
theorem literal_of_styleOf (h : styleOf text = .literal) :
    text.toList ≠ [] ∧ ∀ c ∈ text.toList, isPrintable c = true := by
  simp only [styleOf] at h
  split at h
  -- Only texts with a line feed come to this branch.
  next =>
    split at h
    next hliteral =>
      simp only [literalAllowed, Bool.and_eq_true, isClean_iff] at hliteral
      exact ⟨by simpa using hliteral.1.1, hliteral.1.2.1⟩
    · cases h
  · split at h
    · cases h
    split at h <;> cases h

/-- No text is written as a folded block. -/
theorem styleOf_ne_folded (text : String) : styleOf text ≠ .folded := by
  simp only [styleOf]
  split
  · split <;> nofun
  split
  · nofun
  · split <;> nofun

end StyleOf

/-! ### Printable characters -/

/-- Characters that can be written as they are. -/
def Printable (s : List Char) : Prop := ∀ c ∈ s, isPrintable c = true

/-- Nothing is printable. -/
@[simp] theorem printable_nil : Printable [] := nofun

/-- A text is printable when its first character and the others are. -/
@[simp] theorem printable_cons : Printable (c :: s) ↔ isPrintable c = true ∧ Printable s :=
  List.forall_mem_cons

/-- Texts are printable one after the other when each of them is. -/
@[simp] theorem printable_append : Printable (s ++ t) ↔ Printable s ∧ Printable t :=
  List.forall_mem_append

/-- The margin is printable. -/
theorem printable_margin : Printable margin := by
  have hspace : isPrintable ' ' = true := rfl
  simp [margin, hspace]

/-- A text in single quotes has the characters of the text, quotes and margins. -/
theorem printable_singleQuotedFrom (hs : Printable s) (broken : Bool) :
    Printable (singleQuotedFrom broken s) := by
  induction s generalizing broken with
  | nil => cases broken <;> simp [singleQuotedFrom, printable_margin]
  | cons c s ih =>
    obtain ⟨hc, hs⟩ := printable_cons.mp hs
    rw [singleQuotedFrom]
    split
    · exact printable_cons.mpr ⟨hc, ih hs true⟩
    split
    · exact printable_cons.mpr ⟨hc, ih hs broken⟩
    · -- A quote is doubled, and a margin may stand before the character.
      have hrest := ih hs false
      have hquote : isPrintable '\'' = true := rfl
      split <;> split <;> simp [printable_margin, hc, hrest, hquote]

/-- Hexadecimal digits are printable. -/
theorem printable_hexDigits (count n : Nat) : Printable (hexDigits count n) := by
  have hdigits : ∀ d < 16, isPrintable (Nat.digitChar d).toUpper = true := by decide
  induction count generalizing n with
  | zero => exact printable_nil
  | succ count ih =>
    rw [hexDigits, printable_append, printable_cons]
    exact ⟨ih _, hdigits _ (Nat.mod_lt n (by decide)), printable_nil⟩

/-- So is the escape of any character. -/
theorem printable_escapeOf (c : Char) : Printable (escapeOf c) := by
  unfold escapeOf
  split <;> try exact printable_cons.mpr ⟨rfl, printable_nil⟩
  split
  · exact printable_cons.mpr ⟨rfl, printable_hexDigits 2 _⟩
  split
  · exact printable_cons.mpr ⟨rfl, printable_hexDigits 4 _⟩
  · exact printable_cons.mpr ⟨rfl, printable_hexDigits 8 _⟩

/-- In double quotes everything is printable, since what is not is escaped. -/
theorem printable_doubleQuoted (s : List Char) : Printable (s.flatMap doubleQuotedChar) := by
  -- By induction on the text: a character that cannot be printed is escaped.
  induction s with
  | nil => exact printable_nil
  | cons c s ih =>
    rw [List.flatMap_cons, printable_append]
    refine ⟨?_, ih⟩
    unfold doubleQuotedChar
    split
    · exact printable_cons.mpr ⟨rfl, printable_escapeOf c⟩
    next h =>
      simp only [Bool.or_eq_true, Bool.not_eq_true', not_or, Bool.not_eq_false] at h
      exact printable_cons.mpr ⟨h.1.1.1, printable_nil⟩

/-- A literal block has the characters of its text and margins. -/
theorem printable_literalFrom (hs : Printable s) (fresh : Bool) :
    Printable (literalFrom fresh s) := by
  induction s generalizing fresh with
  | nil => exact printable_nil
  | cons c s ih =>
    obtain ⟨hc, hs⟩ := printable_cons.mp hs
    rw [literalFrom]
    split
    · exact printable_cons.mpr ⟨hc, ih hs true⟩
    · cases fresh <;> simp [printable_margin, hc, ih hs]

end Promotion.Yaml.Printer
