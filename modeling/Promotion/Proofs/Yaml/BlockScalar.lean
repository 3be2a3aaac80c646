import Promotion.Proofs.Yaml.Printer
import Promotion.Yaml.BlockScalar

/-!
# `Promotion.Proofs.Yaml.BlockScalar`: literal blocks are read back

* `read_literal`: a text that is written as a literal block is read, up to the
  next line.
-/

set_option autoImplicit false

namespace Promotion.Yaml.BlockScalar

open Printer

variable {fuel greatest : Nat} {found breaks spaces rest s : List Char} {m : Mark}

/-! ### Empty lines -/

/-- Where the indentation of a line ends: after the four spaces of the block, or
before them at a character of another line. -/
def Margin (spaces rest : List Char) : Prop :=
  (∀ c ∈ spaces, c = ' ') ∧ (∀ c ∈ rest.head?, isBreak c = false) ∧
    (spaces.length = 4 ∨ spaces.length < 4 ∧ Folding.Ends rest)

/-- The indentation of a line is read. -/
theorem readBreaks_margin (hmargin : Margin spaces rest) (hcolumn : m.column = 0) :
    readBreaks (some 4) (fuel + 1) greatest found ⟨spaces ++ rest, m⟩
      = .ok (max greatest spaces.length, found, ⟨rest, m.advance spaces.length⟩) := by
  obtain ⟨hspaces, hrest, hlength⟩ := hmargin
  -- At most four spaces are taken; there are just as many, or fewer before another character.
  have hcount : min ((spaces ++ rest).takeWhile (· = ' ')).length 4 = spaces.length := by
    rw [List.takeWhile_append_of_pos (by simpa using hspaces), List.length_append]
    rcases hlength with hlength | ⟨hlength, hends⟩
    · omega
    · have hnone : rest.takeWhile (· = ' ') = [] := by
        cases rest with
        | nil => rfl
        | cons c rest =>
          have hc : c ≠ ' ' := ne_space_of_isBlank (hends c rfl).1
          simp [hc]
      rw [hnone, List.length_nil]
      omega
  rw [readBreaks]
  simp only [hcolumn, hcount, Nat.sub_zero, Cursor.skipMany_append, Mark.advance_column,
    Nat.zero_add]
  cases rest with
  | nil => rfl
  | cons c rest =>
    -- A tab would be refused within the indentation; where that is short, another line starts.
    have htab : ¬(spaces.length < 4 ∧ c = '\t') := by
      rintro ⟨hshort, rfl⟩
      obtain hlength | ⟨-, hends⟩ := hlength
      · omega
      · cases (hends '\t' rfl).1
    simp [hrest c rfl, htab]

/-- The line breaks of empty lines are read, and the indentation of the line
after them. -/
theorem readBreaks_breaks (fuel greatest : Nat) (found : List Char)
    (hbreaks : ∀ c ∈ breaks, isPrintable c = true ∧ isBreak c = true)
    (hmargin : Margin spaces rest) (hcolumn : m.column = 0) (hfuel : breaks.length < fuel) :
    ∃ g m', m'.column = spaces.length ∧
      readBreaks (some 4) fuel greatest found ⟨breaks ++ (spaces ++ rest), m⟩
        = .ok (g, found ++ breaks, ⟨rest, m'⟩) := by
  -- By induction on the line breaks, each of which starts a line without indentation.
  induction breaks generalizing fuel greatest found m with
  | nil =>
    obtain ⟨fuel, rfl⟩ := Nat.exists_eq_add_of_le' hfuel
    rw [List.nil_append, List.append_nil]
    exact ⟨_, _, by simp [hcolumn], readBreaks_margin hmargin hcolumn⟩
  | cons c breaks ih =>
    obtain ⟨⟨hprintable, hbreak⟩, htail⟩ := List.forall_mem_cons.mp hbreaks
    rw [List.length_cons] at hfuel
    obtain ⟨fuel, rfl⟩ := Nat.exists_eq_add_of_le' (Nat.le_trans (Nat.le_add_left 1 _) hfuel)
    have hspace : c ≠ ' ' := ne_space_of_isBlank (isBlank_of_isBreak hbreak)
    have htab : c ≠ '\t' := ne_tab_of_isBlank (isBlank_of_isBreak hbreak)
    have hstep : readBreaks (some 4) (fuel + 1) greatest found
          ⟨c :: breaks ++ (spaces ++ rest), m⟩
        = readBreaks (some 4) fuel greatest (found ++ [c])
          ⟨breaks ++ (spaces ++ rest), m.nextLine 1⟩ := by
      simp [readBreaks, hspace, htab, hbreak, hcolumn, Cursor.skipMany,
        breakText_of_isPrintable hprintable hbreak, skipBreak_of_isPrintable hprintable hbreak]
    obtain ⟨g, m', hm', hread⟩ := ih fuel greatest (found ++ [c]) htail
      (Mark.nextLine_column m 1) (Nat.lt_of_succ_lt_succ hfuel)
    exact ⟨g, m', hm', by rw [hstep, hread]; simp⟩

/-- Where the indentation is not known, the first line shows it. -/
theorem readBreaks_shown {c : Char} (hc : Folding.Ends (c :: rest)) (hcolumn : m.column = 0) :
    readBreaks none (fuel + 1) 0 [] ⟨margin ++ c :: rest, m⟩
      = .ok (4, [], ⟨c :: rest, m.advance 4⟩) := by
  obtain ⟨hblank, hbreak⟩ := hc c rfl
  have hspace : c ≠ ' ' := ne_space_of_isBlank hblank
  have htab : c ≠ '\t' := ne_tab_of_isBlank hblank
  simp [readBreaks, margin, hspace, htab, hbreak, hcolumn, Cursor.skipMany]

/-! ### Lines -/

/-- What a draft holds, the line breaks at its end included. -/
def Draft.all (d : Draft) : List Char := d.done.reverse ++ d.firstBreak ++ d.moreBreaks

/-- The draft after another line and the line breaks at its end. -/
def Draft.withLine (d : Draft) (indented : Bool) (line : List Char) (b : Char)
    (row : List Char) : Draft :=
  { d.addLine true indented line with firstBreak := [b], moreBreaks := row }

/-- Another line goes to the end of what a draft holds. -/
theorem all_withLine (d : Draft) (indented : Bool) (line : List Char) (b : Char)
    (row : List Char) : (d.withLine indented line b row).all = d.all ++ line ++ b :: row := by
  simp [Draft.withLine, Draft.addLine, Draft.all]

/-- A draft ends with line breaks. -/
def Draft.Ended (d : Draft) : Prop :=
  ∃ b, d.firstBreak = [b] ∧ ∀ c ∈ b :: d.moreBreaks, isBreak c = true

/-- A line is read, with the line breaks at its end and the indentation of the
line after them. -/
theorem readLines_line (fuel : Nat) (d : Draft) {c b : Char} {line : List Char}
    (hline : ∀ d ∈ c :: line, isBreak d = false)
    (hbreaks : ∀ c ∈ b :: breaks, isPrintable c = true ∧ isBreak c = true)
    (hmargin : Margin spaces rest) (hcolumn : m.column = 4) :
    ∃ m', m'.column = spaces.length ∧
      readLines true 4 (fuel + 1) d ⟨c :: line ++ b :: (breaks ++ (spaces ++ rest)), m⟩
        = readLines true 4 fuel (d.withLine (isBlank c) (c :: line) b breaks) ⟨rest, m'⟩ := by
  obtain ⟨⟨hprintable, hbreak⟩, hbreaks⟩ := List.forall_mem_cons.mp hbreaks
  -- The line is taken up to its break, then the empty lines and the next indentation.
  have htaken : Cursor.takeWhile (fun c => !isBreak c)
        ⟨c :: line ++ b :: (breaks ++ (spaces ++ rest)), m⟩
      = (c :: line, ⟨b :: (breaks ++ (spaces ++ rest)), m.advance (c :: line).length⟩) :=
    Cursor.takeWhile_append (by simpa using hline) (by simp [hbreak])
  obtain ⟨g, m', hm', hread⟩ := readBreaks_breaks
    ((b :: (breaks ++ (spaces ++ rest))).length + 1) 0 []
    (m := (m.advance (c :: line).length).nextLine 1) hbreaks hmargin rfl (by simp; omega)
  refine ⟨m', hm', ?_⟩
  rw [List.cons_append] at htaken ⊢
  rw [readLines]
  simp only [hcolumn, ne_eq, not_true_eq_false, if_false, htaken,
    breakText_of_isPrintable hprintable hbreak, skipBreak_of_isPrintable hprintable hbreak, hread]
  rfl

/-- A line that is indented less is none of the block. -/
theorem readLines_stop (fuel : Nat) (d : Draft) (rest : List Char) (hcolumn : m.column ≠ 4) :
    readLines true 4 fuel d ⟨rest, m⟩ = .ok (d, ⟨rest, m⟩) := by
  cases fuel with
  | zero => rfl
  | succ fuel =>
    cases rest with
    | nil => rfl
    | cons c rest => simp [readLines, hcolumn]

/-- Lines are read, up to a line that is not indented so far. -/
theorem readLines_lines (fuel : Nat) (d : Draft) {t : List Char} (ht : Lines t) (hne : t ≠ [])
    (hprintable : ∀ c ∈ t, isPrintable c = true) (hmargin : Margin spaces rest)
    (hshort : spaces.length < 4) (hcolumn : m.column = 4) (hfuel : t.length < fuel) :
    ∃ d' m', m'.column = spaces.length ∧ d'.all = d.all ++ t ∧ d'.Ended ∧
      readLines true 4 fuel d ⟨literalFrom false t ++ (spaces ++ rest), m⟩
        = .ok (d', ⟨rest, m'⟩) := by
  -- By induction on the lines, with the draft generalized: the last one is followed by a short
  -- indentation, where reading stops, every other one by a full one.
  induction ht generalizing d m fuel with
  | nil => exact absurd rfl hne
  | @cons c b line row t hline hrow ht ih =>
    obtain ⟨fuel, rfl⟩ := Nat.exists_eq_add_of_le' (Nat.one_le_of_lt hfuel)
    have hbreaks : ∀ e ∈ b :: row, isPrintable e = true ∧ isBreak e = true :=
      fun e he => ⟨hprintable e (List.mem_append_right _ (List.mem_append_left _ he)), hrow e he⟩
    rw [literalFrom_cons hline hrow]
    cases t with
    | nil =>
      obtain ⟨m', hm', hread⟩ := readLines_line fuel d hline hbreaks hmargin hcolumn
      refine ⟨d.withLine (isBlank c) (c :: line) b row, m', hm', by simp [all_withLine],
        ⟨b, rfl, hrow⟩, ?_⟩
      have hstop := readLines_stop fuel (d.withLine (isBlank c) (c :: line) b row) rest
        (hm' ▸ Nat.ne_of_lt hshort)
      simpa [literalFrom] using hread.trans hstop
    | cons e t =>
      have hnext : Margin margin (literalFrom false (e :: t) ++ (spaces ++ rest)) := by
        refine ⟨eq_of_mem_margin, ?_, .inl rfl⟩
        simp [literalFrom, ht.head]
      obtain ⟨m₁, hm₁, hstep⟩ := readLines_line fuel d hline hbreaks hnext hcolumn
      obtain ⟨d', m', hm', hall, hended, hread⟩ := ih fuel
        (d.withLine (isBlank c) (c :: line) b row) (List.cons_ne_nil e t)
        (fun x hx => hprintable x (by simp only [List.mem_append, List.mem_cons, hx, or_true])) hm₁
        (by simp only [List.length_append, List.length_cons] at hfuel ⊢; omega)
      refine ⟨d', m', hm', by simp [hall, all_withLine], hended, ?_⟩
      rw [literalFrom_margin ht.head]
      simpa using hstep.trans hread

/-! ### The header -/

/-- What becomes of the line breaks at the end of a text for it to be read back. -/
inductive Ending : Chomping → List Char → Prop
  | strip {c : Char} (s : List Char) (hc : isBreak c = false) : Ending .strip (s ++ [c])
  | clip {c d : Char} (s : List Char) (hd : isBreak d = false) (hc : isBreak c = true) :
      Ending .clip (s ++ [d, c])
  | keep {c : Char} (s : List Char) (hc : isBreak c = true) : Ending .keep (s ++ [c])

/-- Whether the indentation of a text is shown by its first line. -/
def shown (s : List Char) : Bool := !s.head?.any fun c => c = ' ' || isBreak c

/-- The indicators of a header. -/
def indicators (chomping : Chomping) (isShown : Bool) : List Char :=
  (if isShown then [] else ['2']) ++ match chomping with
    | .strip => ['-']
    | .clip => []
    | .keep => ['+']

/-- The indicators of the header are read: how the text ends, and whether the
indentation is given. -/
theorem readHeader_indicators (chomping : Chomping) (isShown : Bool) (rest : List Char) (m : Mark) :
    ∃ m', readHeader ⟨indicators chomping isShown ++ '\n' :: rest, m⟩
      = .ok (⟨chomping, if isShown then none else some 2⟩, ⟨'\n' :: rest, m'⟩) := by
  cases chomping <;> cases isShown <;> exact ⟨_, rfl⟩

/-- The header of a text says how the text ends, and gives the indentation unless the
first line shows it. -/
theorem literalHeader_eq (hs : s ≠ []) :
    ∃ chomping, Ending chomping s ∧ literalHeader s = '|' :: indicators chomping (shown s) := by
  have hshown : (if s.head?.any fun c => c = ' ' || isBreak c then ['2'] else [])
      = if shown s then [] else ['2'] := by
    unfold shown
    cases s.head?.any fun c => c = ' ' || isBreak c <;> rfl
  unfold literalHeader
  rw [hshown]
  -- The header looks at the last two characters, so the text is taken from its end.
  obtain ⟨t, rfl⟩ : ∃ t, s = List.reverse t := ⟨s.reverse, (List.reverse_reverse s).symm⟩
  rw [List.reverse_reverse]
  rcases t with _ | ⟨c, _ | ⟨d, t⟩⟩
  · exact absurd rfl hs
  · by_cases hc : isBreak c = true
    · exact ⟨.keep, .keep [] hc, by simp [hc, indicators]⟩
    · exact ⟨.strip, .strip [] (by simpa using hc), by simp [hc, indicators]⟩
  · have htext : (c :: d :: t).reverse = t.reverse ++ [d, c] := by simp
    by_cases hc : isBreak c = true
    · by_cases hd : isBreak d = true
      · refine ⟨.keep, ?_, by simp [hc, hd, indicators]⟩
        simpa using Ending.keep (t.reverse ++ [d]) hc
      · refine ⟨.clip, ?_, by simp [hc, hd, indicators]⟩
        exact htext ▸ Ending.clip t.reverse (by simpa using hd) hc
    · refine ⟨.strip, ?_, by simp [hc, indicators]⟩
      simpa using Ending.strip (t.reverse ++ [d]) (by simpa using hc)

/-- A header can be printed. -/
theorem printable_literalHeader (hs : s ≠ []) : Printable (literalHeader s) := by
  obtain ⟨chomping, -, hheader⟩ := literalHeader_eq hs
  rw [hheader]
  have hall : ('|' :: indicators chomping (shown s)).all isPrintable = true := by
    cases chomping <;> cases shown s <;> decide
  exact List.all_eq_true.mp hall

/-- A header ends with its line. -/
theorem endHeader_lineFeed (rest : List Char) (m : Mark) :
    endHeader ⟨'\n' :: rest, m⟩ = .ok ⟨rest, m.nextLine 1⟩ := by
  have hblank : ∀ c ∈ ('\n' :: rest).head?, isBlank c = false := by simp [isBlank]
  simp [endHeader, Cursor.skipWhile_of_head hblank, Cursor.skipComment, Cursor.skipBreak, atLineEnd,
    isBreak]

/-! ### The end -/

/-- A text that ends with a line break ends there. -/
theorem endLine_of_break {c : Char} (hc : isBreak c = true) : endLine (s ++ [c]) = s ++ [c] := by
  simp [endLine, hc]

/-- A text that ends otherwise gets a line break. -/
theorem endLine_of_not_break {c : Char} (hc : isBreak c = false) :
    endLine (s ++ [c]) = s ++ [c] ++ ['\n'] := by
  simp [endLine, hc]

/-- There is one line break after a line that is not followed by more. -/
theorem moreBreaks_eq_nil {d : Draft} {c e : Char} (hended : d.Ended) (hc : isBreak c = false)
    (hall : d.all = s ++ [c] ++ [e]) : d.moreBreaks = [] := by
  obtain ⟨b, hfirst, hbreaks⟩ := hended
  rcases List.eq_nil_or_concat d.moreBreaks with hnil | ⟨more, x, hmore⟩
  · exact hnil
  · -- Otherwise the character before the last break, `c`, would be a break of the draft.
    rw [hmore, List.concat_eq_append] at hbreaks
    have htext : (d.done.reverse ++ b :: more) ++ [x] = s ++ [c] ++ [e] := by
      rw [← hall, Draft.all, hfirst, hmore]
      simp
    have hlast : (d.done.reverse ++ b :: more).getLast? = some c := by
      rw [(List.append_inj' htext rfl).1]
      simp
    rw [List.getLast?_append, List.getLast?_eq_some_getLast (List.cons_ne_nil b more),
      Option.some_or] at hlast
    have hmem : c ∈ b :: more := Option.some.inj hlast ▸ List.getLast_mem _
    cases hc.symm.trans (hbreaks c (List.mem_append_left [x] hmem))

/-- The text is what the draft holds, as far as the chomping leaves it. -/
theorem finish_eq {d : Draft} {chomping : Chomping} (hs : Ending chomping s) (hended : d.Ended)
    (hall : d.all = endLine s) : d.finish chomping = s := by
  -- The three ways of ending: the break that was added is dropped, the one break of the text
  -- stays, or all breaks stay.
  cases hs with
  | strip s hc =>
    rw [endLine_of_not_break hc] at hall
    have hmore := moreBreaks_eq_nil hended hc hall
    obtain ⟨b, hfirst, -⟩ := hended
    rw [Draft.all, hfirst, hmore, List.append_nil] at hall
    exact (List.append_inj' hall rfl).1
  | @clip c e s he hc =>
    rw [List.append_cons, endLine_of_break hc] at hall
    have hmore := moreBreaks_eq_nil hended he hall
    rw [Draft.all, hmore, List.append_nil] at hall
    rw [Draft.finish, hall, List.append_assoc]
    rfl
  | keep s hc =>
    rw [endLine_of_break hc] at hall
    exact hall

/-- A text that is nothing but line breaks is kept as it is. -/
theorem finish_breaks {chomping : Chomping} {row : List Char} (hs : Ending chomping s)
    (hrow : ∀ c ∈ endLine s, isBreak c = true) (htext : row = endLine s) :
    ({ moreBreaks := row } : Draft).finish chomping = s := by
  subst htext
  -- A text of breaks only keeps all of them; the other endings have another character.
  cases hs with
  | strip s hc =>
    rw [endLine_of_not_break hc] at hrow
    cases hc.symm.trans (hrow _ (by simp))
  | clip s hd hc =>
    rw [List.append_cons, endLine_of_break hc] at hrow
    cases hd.symm.trans (hrow _ (by simp))
  | keep s hc => exact endLine_of_break hc

/-- The lines after a row of line breaks give the text. -/
theorem readLines_finish (fuel : Nat) (row : List Char) {chomping : Chomping} {t : List Char}
    (hs : Ending chomping s)
    (htext : endLine s = row ++ t) (hstart : ∀ c ∈ t.head?, isBreak c = false) (hne : t ≠ [])
    (hprintable : ∀ c ∈ t, isPrintable c = true) (hmargin : Margin spaces rest)
    (hshort : spaces.length < 4) (hcolumn : m.column = 4) (hfuel : t.length < fuel) :
    ∃ d m', m'.column = spaces.length ∧ d.finish chomping = s ∧
      readLines true 4 fuel { moreBreaks := row } ⟨literalFrom false t ++ (spaces ++ rest), m⟩
        = .ok (d, ⟨rest, m'⟩) := by
  -- A text that starts with another character than a break and ends with a break is made of
  -- lines.
  have hlines : Lines t := by
    refine lines_of_ends hstart fun c hc => isBreak_of_endLine (s := s) c ?_
    rw [htext, List.getLast?_append, Option.mem_def.mp hc, Option.some_or]
    rfl
  obtain ⟨d, m', hm', hall, hended, hread⟩ := readLines_lines fuel { moreBreaks := row } hlines
    hne hprintable hmargin hshort hcolumn hfuel
  exact ⟨d, m', hm', finish_eq hs hended (hall.trans htext.symm), hread⟩

/-- The lines after the header are read to a draft. -/
def Body (isShown : Bool) (text : List Char) (m : Mark) (d : Draft) (next : Cursor) : Prop :=
  ∃ greatest breaks c,
    readBreaks (if isShown then none else some 4) (text.length + 1) 0 [] ⟨text, m⟩
        = .ok (greatest, breaks, c) ∧ (isShown = true → greatest = 4) ∧
      readLines true 4 (c.rest.length + 1) { moreBreaks := breaks } c = .ok (d, next)

section Body

variable {chomping : Chomping} (hs : Ending chomping s) (hprintable : ∀ c ∈ s, isPrintable c = true)
  (hmargin : Margin spaces rest) (hshort : spaces.length < 4) (hcolumn : m.column = 0)

include hs hprintable hmargin hshort hcolumn

/-- The body of a text whose first line shows the indentation is read. -/
theorem body_shown (hne : s ≠ []) (hshown : shown s = true) :
    ∃ d m', m'.column = spaces.length ∧ d.finish chomping = s ∧
      Body true (literalFrom true (endLine s) ++ (spaces ++ rest)) m d ⟨rest, m'⟩ := by
  -- The first line starts with a character that is neither a space nor a break.
  obtain ⟨c, t, htext, hends⟩ : ∃ c t, endLine s = c :: t ∧ Folding.Ends [c] := by
    cases s with
    | nil => exact absurd rfl hne
    | cons c s =>
      obtain ⟨t, htext⟩ := endLine_cons c s
      simp only [shown, List.head?_cons, Option.any_some, Bool.not_eq_true', Bool.or_eq_false_iff,
        decide_eq_false_iff_not] at hshown
      exact ⟨c, t, htext, Folding.ends_cons
        (isBlank_of_ne_space (hprintable c (List.mem_cons_self ..)) hshown.1) hshown.2⟩
  obtain ⟨hblank, hbreak⟩ := hends c rfl
  have hall : ∀ e ∈ c :: t, isPrintable e = true := htext ▸ isPrintable_of_endLine hprintable
  obtain ⟨d, m', hm', hfinish, hread⟩ := readLines_finish
    ((literalFrom false (c :: t) ++ (spaces ++ rest)).length + 1) [] (m := m.advance 4) hs htext
    (by simp [hbreak])
    (List.cons_ne_nil c t) hall hmargin hshort (by simp [hcolumn])
    (Nat.lt_succ_of_le (Nat.le_trans (length_le_literalFrom false _) (by simp)))
  have hcons : literalFrom false (c :: t) = c :: literalFrom false t := by
    simp [literalFrom, hbreak]
  refine ⟨d, m', hm', hfinish, 4, [], _, ?_, fun _ => rfl, hread⟩
  rw [htext, literalFrom_margin hbreak, List.append_assoc, hcons]
  exact readBreaks_shown (Folding.ends_cons hblank hbreak) hcolumn

/-- The body of a text is read when the header gives the indentation. -/
theorem body_fixed :
    ∃ d m', m'.column = spaces.length ∧ d.finish chomping = s ∧
      Body false (literalFrom true (endLine s) ++ (spaces ++ rest)) m d ⟨rest, m'⟩ := by
  -- The breaks in front are empty lines; then the text is over, or its first line follows.
  obtain ⟨row, t, htext, hrow, hhead⟩ := exists_row isBreak (endLine s)
  have hall := isPrintable_of_endLine hprintable
  rw [htext] at hall
  rw [htext, literalFrom_breaks hrow, List.append_assoc]
  have hbreaks : ∀ c ∈ row, isPrintable c = true ∧ isBreak c = true :=
    fun c hc => ⟨hall c (List.mem_append_left t hc), hrow c hc⟩
  cases t with
  | nil =>
    obtain ⟨g, m', hm', hread⟩ := readBreaks_breaks
      ((row ++ (spaces ++ rest)).length + 1) 0 [] (m := m) hbreaks hmargin hcolumn
      (Nat.lt_succ_of_le (by simp))
    rw [List.append_nil] at htext
    exact ⟨{ moreBreaks := row }, m', hm', finish_breaks hs (htext ▸ hrow) htext.symm, g, row, _,
      hread, nofun, readLines_stop _ _ _ (hm' ▸ Nat.ne_of_lt hshort)⟩
  | cons c t =>
    have hbreak := hhead c rfl
    have hnext : Margin margin (literalFrom false (c :: t) ++ (spaces ++ rest)) := by
      refine ⟨eq_of_mem_margin, ?_, .inl rfl⟩
      simp [literalFrom, hbreak]
    obtain ⟨g, m₁, hm₁, hbefore⟩ := readBreaks_breaks
      ((row ++ (margin ++ (literalFrom false (c :: t) ++ (spaces ++ rest)))).length + 1) 0 []
      (m := m) hbreaks hnext hcolumn (Nat.lt_succ_of_le (by simp))
    obtain ⟨d, m', hm', hfinish, hread⟩ := readLines_finish
      ((literalFrom false (c :: t) ++ (spaces ++ rest)).length + 1) row (m := m₁) hs htext hhead
      (List.cons_ne_nil c t) (fun e he => hall e (List.mem_append_right row he)) hmargin hshort hm₁
      (Nat.lt_succ_of_le (Nat.le_trans (length_le_literalFrom false _) (by simp)))
    rw [literalFrom_margin hbreak, List.append_assoc]
    exact ⟨d, m', hm', hfinish, g, row, _, hbefore, nofun, hread⟩

/-- The body of a text is read in both ways of indentation. -/
theorem exists_body (hne : s ≠ []) :
    ∃ d m', m'.column = spaces.length ∧ d.finish chomping = s ∧
      Body (shown s) (literalFrom true (endLine s) ++ (spaces ++ rest)) m d ⟨rest, m'⟩ := by
  cases hshown : shown s with
  | true => exact body_shown hs hprintable hmargin hshort hcolumn hne hshown
  | false => exact body_fixed hs hprintable hmargin hshort hcolumn

end Body

/-- A block is read once its header and its lines are. -/
theorem read_of_body {chomping : Chomping} {isShown : Bool} {text : List Char} {m₁ : Mark}
    {d : Draft} {next : Cursor}
    (hheader : readHeader ⟨indicators chomping isShown ++ '\n' :: text, m.advance 1⟩
      = .ok (⟨chomping, if isShown then none else some 2⟩, ⟨'\n' :: text, m₁⟩))
    (hbody : Body isShown text (m₁.nextLine 1) d next) :
    read true 2 ⟨'|' :: indicators chomping isShown ++ '\n' :: text, m⟩
      = .ok (d.finish chomping, next) := by
  obtain ⟨g, breaks, c, hbreaks, hg, hlines⟩ := hbody
  -- The two ways differ in where the indentation of four comes from: the greatest one that was
  -- found, or the header.
  cases isShown with
  | true =>
    obtain rfl : g = 4 := hg rfl
    simp only [if_true] at hheader hbreaks
    have hindent : none.getD (max (max 4 (2 + 1 : Int).toNat) 1) = 4 := rfl
    simp only [read, bind, Except.bind, List.cons_append, Cursor.skip_cons, hheader,
      endHeader_lineFeed, Option.map_none, hbreaks, hindent, hlines]
    rfl
  | false =>
    simp only [Bool.false_eq_true, if_false] at hheader hbreaks
    have hfixed : (some 2).map (fun n => (if (0 : Int) ≤ 2 then (2 : Int).toNat else 0) + n)
      = some 4 := rfl
    simp only [read, bind, Except.bind, List.cons_append, Cursor.skip_cons, hheader,
      endHeader_lineFeed, hfixed, hbreaks, Option.getD_some, hlines]
    rfl

/-- A literal block is read, and so is the indentation of the next line. -/
theorem read_literal (hne : s ≠ []) (hprintable : ∀ c ∈ s, isPrintable c = true)
    (hmargin : Margin spaces rest) (hshort : spaces.length < 4) :
    ∃ m', m'.column = spaces.length ∧
      read true 2 ⟨literalHeader s ++ '\n' :: (literalFrom true (endLine s) ++ (spaces ++ rest)), m⟩
        = .ok (s, ⟨rest, m'⟩) := by
  obtain ⟨chomping, hending, hheader⟩ := literalHeader_eq hne
  obtain ⟨m₁, hread⟩ := readHeader_indicators chomping (shown s)
    (literalFrom true (endLine s) ++ (spaces ++ rest)) (m.advance 1)
  obtain ⟨d, m', hm', hfinish, hbody⟩ :=
    exists_body hending hprintable hmargin hshort (Mark.nextLine_column m₁ 1) hne
  have hblock := read_of_body hread hbody
  rw [hfinish] at hblock
  rw [hheader]
  exact ⟨m', hm', hblock⟩

end Promotion.Yaml.BlockScalar
