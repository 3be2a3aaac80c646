import Promotion.Proofs.Yaml.PlainScalar
import Promotion.Yaml.Lexer

/-!
# `Promotion.Proofs.Yaml.Lexer`: the steps of the lexer over records

Between two tokens the lexer is in one of a few states: it has passed a line
(`AtLine`), has read a key (`AfterKey`), or stands after the colon of an entry
(`AtValue`). One lemma for each token says from which state it is read and to which
one that leads, and how the open collections and the tokens change.

* `next_record`, `next_end`: the hyphen of a record, and the end of the text.
* `next_key`, `next_colon`: the key of an entry, and the colon after it.
-/

set_option autoImplicit false

namespace Promotion.Yaml.Lexer

open Printer

variable {l l' : Lexer} {fuel column : Nat} {spaces rest : List Char} {c : Char} {m : Mark}

/-! ### White space -/

/-- Whether a token starts here, or the text ends. -/
def Ready (rest : List Char) : Prop :=
  ∀ c ∈ rest.head?, isBlank c = false ∧ isBreak c = false ∧ c ≠ '#' ∧ c ≠ '\uFEFF'

/-- A character that starts a token makes a line ready. -/
theorem ready_cons (hblank : isBlank c = false) (hbreak : isBreak c = false) (hcomment : c ≠ '#')
    (hmark : c ≠ '\uFEFF') (rest : List Char) : Ready (c :: rest) := by
  intro d hd
  obtain rfl := Option.some.inj hd
  exact ⟨hblank, hbreak, hcomment, hmark⟩

/-- Where a line is ready, a fold ends. -/
theorem Ready.ends (h : Ready rest) : Folding.Ends rest := fun c hc => ⟨(h c hc).1, (h c hc).2.1⟩

/-- Spaces before a token are passed over. -/
theorem toNextToken_spaces (spaces : List Char) (hspaces : ∀ c ∈ spaces, c = ' ')
    (hrest : Ready rest) (hcursor : l.cursor = ⟨spaces ++ rest, m⟩) :
    l.toNextToken (fuel + 1) = { l with cursor := ⟨rest, m.advance spaces.length⟩ } := by
  -- No mark, comment or break stands before the token, so only the spaces are skipped.
  have hmark : (spaces ++ rest).head? ≠ some '\uFEFF' := by
    cases spaces with
    | nil => exact fun h => (hrest _ h).2.2.2 rfl
    | cons c spaces =>
      obtain rfl := hspaces c (List.mem_cons_self ..)
      simp
  have hcomment : rest.head? ≠ some '#' := fun h => (hrest _ h).2.2.1 rfl
  have hgap : ¬(atLineEnd rest = true ∧ rest.isEmpty = false) := by
    rintro ⟨hend, hempty⟩
    cases rest with
    | nil => cases hempty
    | cons c rest => cases (hrest c rfl).2.1.symm.trans hend
  have hskip : l.cursor.skipWhile (fun c => c = ' ' || (c = '\t' && (l.flow ≠ 0 || !l.keyAllowed)))
      = ⟨rest, m.advance spaces.length⟩ := by
    rw [hcursor]
    refine Cursor.skipWhile_append (by simpa using fun c hc => .inl (hspaces c hc)) fun c hc => ?_
    have hblank := (hrest c hc).1
    simp only [isBlank, Bool.or_eq_false_iff, decide_eq_false_iff_not] at hblank
    simp [hblank.1, hblank.2]
  rw [hcursor] at hskip
  rw [toNextToken]
  simp only [hcursor, hmark, Bool.and_eq_true, if_false, hskip, Cursor.skipComment_of_head hcomment,
    Bool.not_eq_true', hgap, decide_false, Bool.and_false, Bool.false_eq_true]

/-- After a line break a key may start. -/
theorem toNextToken_lineFeed (hflow : l.flow = 0) (hcursor : l.cursor = ⟨'\n' :: rest, m⟩) :
    l.toNextToken (fuel + 1)
      = { l with cursor := ⟨rest, m.nextLine 1⟩, keyAllowed := true }.toNextToken fuel := by
  have hmark : ('\n' :: rest).head? ≠ some '\uFEFF' := by simp
  rw [toNextToken]
  simp only [hcursor, hmark, decide_false, Bool.and_false, Bool.false_eq_true, if_false, hflow,
    decide_true, Bool.or_true]
  rfl

/-! ### Lines -/

/-- The lexer has passed a line, or stands at its end: the next token starts at
`column` of the next line. -/
structure AtLine (l : Lexer) (rest : List Char) (column : Nat) : Prop where
  flow : l.flow = 0
  keys : l.keys = [none]
  next : ∃ m : Mark, m.column = column ∧ l.toNextToken (l.cursor.rest.length + 1)
    = { l with cursor := ⟨rest, m⟩, keyAllowed := true }

/-- Behind the indentation the reader is at the start of a line. -/
theorem atLine_spaces (spaces : List Char) (hspaces : ∀ c ∈ spaces, c = ' ') (hrest : Ready rest)
    (hcursor : l.cursor = ⟨spaces ++ rest, m⟩) (hflow : l.flow = 0) (hkeys : l.keys = [none])
    (hkey : l.keyAllowed = true) : AtLine l rest (m.column + spaces.length) where
  flow := hflow
  keys := hkeys
  next := by
    refine ⟨m.advance spaces.length, rfl, ?_⟩
    rw [toNextToken_spaces spaces hspaces hrest hcursor, ← hkey]

/-- The lexer stands at the token that starts the line. -/
theorem atLine_token (hrest : Ready rest) (hcursor : l.cursor = ⟨rest, m⟩) (hflow : l.flow = 0)
    (hkeys : l.keys = [none]) (hkey : l.keyAllowed = true) : AtLine l rest m.column :=
  atLine_spaces [] (List.forall_mem_nil _) hrest hcursor hflow hkeys hkey

/-- Behind the end of a line the reader is at the start of the next one. -/
theorem atLine_lineFeed (hspaces : ∀ c ∈ spaces, c = ' ') (hrest : Ready rest)
    (hcursor : l.cursor = ⟨'\n' :: (spaces ++ rest), m⟩) (hflow : l.flow = 0)
    (hkeys : l.keys = [none]) : AtLine l rest spaces.length where
  flow := hflow
  keys := hkeys
  next := by
    refine ⟨(m.nextLine 1).advance spaces.length, by simp, ?_⟩
    rw [toNextToken_lineFeed hflow hcursor, hcursor]
    exact toNextToken_spaces spaces hspaces hrest rfl

/-- The kinds of the tokens so far, last first. -/
def kinds (l : Lexer) : List Token.Kind := l.tokens.map (·.kind)

/-- The indentations of the open block collections, innermost first. -/
def indents (l : Lexer) : List Int := l.indent :: l.outer

/-- The lexer stands at a token that may be a key. -/
structure AtToken (l : Lexer) (rest : List Char) (column : Nat) : Prop where
  flow : l.flow = 0
  keys : l.keys = [none]
  keyAllowed : l.keyAllowed = true
  rest : l.cursor.rest = rest
  column : l.mark.column = column

/-- A cursor is the rest of the text and its place. -/
theorem cursor_eq {s : List Char} (h : l.cursor.rest = s) : l.cursor = ⟨s, l.mark⟩ := h ▸ rfl

/-- A key is kept while the lexer is on its line and not too far from it. -/
theorem dropStaleKeys_of_fresh {o : Option OpenKey} (h : l.keys = [o])
    (hfresh : ∀ k ∈ o, l.mark.line ≤ k.mark.line ∧ l.mark.index ≤ k.mark.index + 1024) :
    l.dropStaleKeys = .ok l := by
  have hself : ({ l with keys := [o] } : Lexer) = l := h ▸ rfl
  rw [dropStaleKeys, h]
  cases o with
  | none => exact congrArg Except.ok hself
  | some k =>
    obtain ⟨hline, hindex⟩ := hfresh k rfl
    simp only [List.mapM_cons, Nat.not_lt.mpr hline, Nat.not_lt.mpr hindex]
    exact congrArg Except.ok hself

/-- Without a key that is open, none becomes stale. -/
theorem dropStaleKeys_of_none (h : l.keys = [none]) : l.dropStaleKeys = .ok l :=
  dropStaleKeys_of_fresh h (by simp)

/-- Without a key that is open, none is dropped. -/
theorem dropKey_of_none (h : l.keys = [none]) : l.dropKey = .ok l := by rw [dropKey, h]

/-- The next token after a line. -/
theorem next_atLine (h : AtLine l rest column) : ∃ l', AtToken l' rest column ∧
    l'.indents = l.indents ∧ l'.kinds = l.kinds ∧
      l.next = (l'.closeBlocks column).readToken := by
  obtain ⟨m, hm, hnext⟩ := h.next
  refine ⟨{ l with cursor := ⟨rest, m⟩, keyAllowed := true }, ⟨h.flow, h.keys, rfl, rfl, hm⟩, rfl,
    rfl, ?_⟩
  have hkeys : ({ l with cursor := ⟨rest, m⟩, keyAllowed := true } : Lexer).dropStaleKeys
      = .ok { l with cursor := ⟨rest, m⟩, keyAllowed := true } := dropStaleKeys_of_none h.keys
  rw [next, hnext, hkeys, ← hm]
  rfl

/-- A line that is indented far enough closes no block. -/
theorem closeBlocks_of_le (h : l.indent ≤ column) : l.closeBlocks column = l := by
  unfold closeBlocks
  split
  · cases houter : l.outer with
    | nil => rw [closeBlocks.close]
    | cons indent outer => rw [closeBlocks.close, if_neg (Int.not_lt.mpr h)]
  · rfl

/-- The innermost block collection is closed where a line is indented less. -/
theorem closeBlocks_inner {column inner outer : Int} {more : List Int} (hflow : l.flow = 0)
    (hindents : l.indents = inner :: outer :: more) (hlt : column < inner) (hle : outer ≤ column) :
    l.closeBlocks column
      = { l.push .blockEnd l.mark l.mark with indent := outer, outer := more } := by
  obtain ⟨hindent, houter⟩ := List.cons.inj hindents
  rw [closeBlocks, if_pos hflow, houter, closeBlocks.close, if_pos (hindent ▸ hlt)]
  cases more with
  | nil => rw [closeBlocks.close]
  | cons indent more => rw [closeBlocks.close, if_neg (Int.not_lt.mpr hle)]

/-- The mapping of a record is closed where a line is not indented. -/
theorem closeBlocks_mapping (h : AtToken l rest 0) (hindents : l.indents = [2, 0, -1]) :
    ∃ l', l.closeBlocks 0 = l' ∧ AtToken l' rest 0 ∧ l'.indents = [0, -1] ∧
      l'.kinds = .blockEnd :: l.kinds :=
  ⟨_, closeBlocks_inner h.flow hindents (by decide) (by decide),
    ⟨h.flow, h.keys, h.keyAllowed, h.rest, h.column⟩, rfl, rfl⟩

/-! ### Records -/

/-- The first record opens the list, the others find it open. -/
theorem openBlock_list (hflow : l.flow = 0) (hkeys : l.keys = [none])
    (hindents : l.indents = [-1] ∨ l.indents = [0, -1]) :
    ∃ l', l.openBlock 0 l.count .blockSequenceStart l.mark = l' ∧ l'.cursor = l.cursor ∧
      l'.flow = 0 ∧ l'.keys = [none] ∧ l'.indents = [0, -1] ∧
      l'.kinds = (if l.indents = [-1] then [.blockSequenceStart] else []) ++ l.kinds := by
  rcases hindents with hindents | hindents
  · obtain ⟨hindent, houter⟩ := List.cons.inj hindents
    exact ⟨_, rfl, by simp [openBlock, hflow, hindent, insert, hkeys, indents, kinds, houter]⟩
  · obtain ⟨hindent, houter⟩ := List.cons.inj hindents
    exact ⟨_, rfl, by simp [openBlock, hflow, hindent, hkeys, hindents, kinds]⟩

/-- The hyphen of a record is read; the first one opens the list. -/
theorem readToken_hyphen (h : AtToken l ('-' :: ' ' :: rest) 0) (hrest : Ready rest)
    (hindents : l.indents = [-1] ∨ l.indents = [0, -1]) :
    ∃ l', l.readToken = .ok l' ∧ AtLine l' rest 2 ∧ l'.indents = [0, -1] ∧
      l'.kinds = .blockEntry ::
        ((if l.indents = [-1] then [.blockSequenceStart] else []) ++ l.kinds) := by
  obtain ⟨l₁, hopen, hcursor, hflow, hkeys, hindents₁, hkinds⟩ :=
    openBlock_list h.flow h.keys hindents
  have hread : l.readToken = .ok ({ l₁ with keyAllowed := true }.indicator .blockEntry 1) := by
    -- A hyphen with a space is neither a marker of a document nor a scalar.
    have hstart : l.cursor.atMarker ['-', '-', '-'] = false := by
      simp [Cursor.atMarker, h.rest]
    have hend : l.cursor.atMarker ['.', '.', '.'] = false := by
      simp [Cursor.atMarker, h.rest]
    have hdrop : l₁.dropKey = .ok l₁ := dropKey_of_none hkeys
    have hgap : atGap (' ' :: rest) = true := rfl
    rw [readToken]
    simp only [hstart, hend]
    simp [readBlockEntry, h.flow, h.keyAllowed, h.rest, h.column, hopen, hdrop, hgap]
  have hcursor₁ : l₁.cursor.skip = ⟨' ' :: rest, l.mark.advance 1⟩ := by
    rw [hcursor, cursor_eq h.rest]
    rfl
  have hline := atLine_spaces [' '] (l := { l₁ with keyAllowed := true }.indicator .blockEntry 1)
    (m := l.mark.advance 1) (by simp) hrest hcursor₁ hflow hkeys rfl
  rw [Mark.advance_column, show l.mark.column = 0 from h.column] at hline
  exact ⟨_, hread, hline, hindents₁, congrArg _ hkinds⟩

/-- The hyphen of a record is read; it opens the list, or closes the record before
it. -/
theorem next_record (h : AtLine l ('-' :: ' ' :: rest) 0) (hrest : Ready rest)
    (hindents : l.indents = [-1] ∨ l.indents = [2, 0, -1]) :
    ∃ l', l.next = .ok l' ∧ AtLine l' rest 2 ∧ l'.indents = [0, -1] ∧
      l'.kinds = .blockEntry ::
        (if l.indents = [-1] then .blockSequenceStart else .blockEnd) :: l.kinds := by
  obtain ⟨l₁, htoken, hindents₁, hkinds₁, hnext⟩ := next_atLine h
  rw [hnext]
  -- The first record opens the list; every other one closes the mapping before it.
  rcases hindents with hindents | hindents
  · have hindent : l₁.indent = -1 := (List.cons.inj (hindents₁.trans hindents)).1
    rw [closeBlocks_of_le (by simp [hindent])]
    obtain ⟨l', hread, hline, hindents', hkinds⟩ :=
      readToken_hyphen htoken hrest (.inl (hindents₁.trans hindents))
    refine ⟨l', hread, hline, hindents', ?_⟩
    rw [hkinds, hindents₁, hkinds₁, hindents]
    rfl
  · obtain ⟨l₂, hclose, htoken₂, hindents₂, hkinds₂⟩ :=
      closeBlocks_mapping htoken (hindents₁.trans hindents)
    rw [Int.natCast_zero, hclose]
    obtain ⟨l', hread, hline, hindents', hkinds⟩ :=
      readToken_hyphen htoken₂ hrest (.inr hindents₂)
    refine ⟨l', hread, hline, hindents', ?_⟩
    rw [hkinds, hindents₂, hkinds₂, hkinds₁, hindents]
    rfl

/-- At the end of the text the record and the list are closed. -/
theorem next_end (h : AtLine l [] 0) (hindents : l.indents = [2, 0, -1]) :
    ∃ l', l.next = .ok l' ∧ l'.kinds = .streamEnd :: .blockEnd :: .blockEnd :: l.kinds := by
  obtain ⟨l₁, htoken₁, hindents₁, hkinds₁, hnext⟩ := next_atLine h
  obtain ⟨l₂, hclose, htoken, hindents₂, hkinds₂⟩ :=
    closeBlocks_mapping htoken₁ (hindents₁.trans hindents)
  have hcursor := cursor_eq htoken.rest
  -- The end of the text closes the mapping and the list.
  obtain ⟨l₃, hlist, hkeys₃, hkinds₃⟩ : ∃ l₃, l₂.closeBlocks (-1) = l₃ ∧ l₃.keys = [none] ∧
      l₃.kinds = .blockEnd :: l₂.kinds :=
    ⟨_, closeBlocks_inner htoken.flow hindents₂ (by decide) (by decide), htoken.keys, rfl⟩
  have hend : l₂.readToken
      = .ok ({ l₃ with keyAllowed := false }.push .streamEnd l₂.mark l₂.mark) := by
    rw [readToken]
    simp only [htoken.rest]
    rw [readEnd]
    simp only [htoken.column, if_true, ← hcursor, hlist, dropKey_of_none hkeys₃]
    rfl
  rw [hnext, Int.natCast_zero, hclose, hend]
  refine ⟨_, rfl, ?_⟩
  rw [← hkinds₁, ← hkinds₂, ← hkinds₃]
  rfl

/-! ### Plain scalars -/

/-- Within a line, a plain scalar starts with a character that means nothing
else there. -/
theorem readToken_plain (hrest : l.cursor.rest = c :: rest) (hcolumn : 0 < l.mark.column)
    (hflow : l.flow = 0) (hstart : startsPlain false c rest = true)
    (hgap : c = '-' → atGap rest = false) (hblank : isBlank c = false) :
    l.readToken = l.readPlain := by
  have hmarker := Cursor.atMarker_of_column (c := l.cursor) hcolumn
  have hne : l.mark.column ≠ 0 := Nat.ne_of_gt hcolumn
  rw [readToken]
  simp only [hmarker, hrest]
  -- A hyphen, a question mark or a colon starts a scalar only before a character that is no gap.
  by_cases hhyphen : c = '-'
  · subst hhyphen
    simp [hflow, hgap rfl, hstart, hblank]
  by_cases hmark : c = '?' ∨ c = ':'
  · have hopen : atGap rest = false := by
      simpa [startsPlain, hhyphen, hmark] using hstart
    rcases hmark with rfl | rfl <;> simp [hflow, hopen, hstart, hblank]
  · rw [not_or] at hmark
    have hplain : "-?:,[]\x7b\x7d#&*!|>'\"%@`".toList.contains c = false := by
      simpa [startsPlain, hhyphen, hmark] using hstart
    simp only [String.reduceToList, List.contains_cons, Bool.or_eq_false_iff,
      beq_eq_false_iff_ne] at hplain
    simp [hflow, hstart, hblank, hhyphen, hmark, hplain]

/-- A plain scalar is saved as a possible key and read. -/
theorem readPlain_eq {r : PlainScalar.Result} (hsave : l.saveKey = .ok l')
    (hread : PlainScalar.read (l'.flow ≠ 0) (l'.indent + 1).toNat l'.cursor = .ok r) :
    l.readPlain = .ok ({ l' with cursor := r.cursor, keyAllowed := r.broken }.push
      (.scalar r.text .plain) l.mark r.cursor.mark) := by
  rw [readPlain, hsave]
  exact congrArg (Except.map _) hread

/-- A plain scalar starts with anything but an indicator. -/
theorem startsPlain_of_start (hstart : startIndicators.contains c = false)
    (hgap : gapIndicators.contains c = true → atGap rest = false) :
    startsPlain false c rest = true := by
  by_cases hhyphen : c = '-'
  · subst hhyphen
    have hopen := hgap rfl
    cases rest with
    | nil => cases hopen
    | cons d rest =>
      obtain ⟨hblank, -⟩ := Bool.or_eq_false_iff.mp hopen
      simp [startsPlain, hblank]
  by_cases hmark : c = '?' ∨ c = ':'
  · have hopen : atGap rest = false := by
      rcases hmark with rfl | rfl
      · exact hgap rfl
      · exact hgap rfl
    simp [startsPlain, hhyphen, hmark, hopen]
  · have hplain : "-?:,[]\x7b\x7d#&*!|>'\"%@`".toList.contains c = false := by
      -- Every indicator is one of the two kinds that the printer avoids.
      have hall : "-?:,[]\x7b\x7d#&*!|>'\"%@`".toList.all (fun d =>
          startIndicators.contains d || gapIndicators.contains d) = true := by decide
      by_contra hmem
      rw [Bool.not_eq_false, List.contains_iff_mem] at hmem
      have hindicator := List.all_eq_true.mp hall c hmem
      rw [hstart, Bool.false_or, List.contains_iff_mem] at hindicator
      simp [gapIndicators, hhyphen, not_or.mp hmark] at hindicator
    simp only [startsPlain, hhyphen, decide_eq_true_eq, Bool.or_eq_true, hmark, if_false, hplain]
    rfl

/-- A plain scalar may start with a letter. -/
theorem startsPlain_of_isAlpha (hc : c.isAlpha = true) (rest : List Char) :
    startsPlain false c rest = true := by
  have hplain : "-?:,[]\x7b\x7d#&*!|>'\"%@`".toList.contains c = false := by
    have hnone : "-?:,[]\x7b\x7d#&*!|>'\"%@`".toList.any Char.isAlpha = false := by decide
    by_contra hmem
    rw [Bool.not_eq_false, List.contains_iff_mem] at hmem
    exact List.any_eq_false.mp hnone c hmem hc
  simp only [startsPlain, ne_of_isAlpha hc (d := '-') rfl, ne_of_isAlpha hc (d := '?') rfl,
    ne_of_isAlpha hc (d := ':') rfl, hplain]
  rfl

/-! ### Keys -/

/-- A key: a word of at most 1024 letters. -/
structure IsKey (key : List Char) : Prop where
  nonempty : key ≠ []
  letters : key.all Char.isAlpha = true
  length : key.length ≤ 1024

/-- The lexer has read a scalar that becomes a key with the colon that follows. -/
structure AfterKey (l : Lexer) (k : OpenKey) (rest : List Char) : Prop where
  flow : l.flow = 0
  keys : l.keys = [some k]
  position : l.count = k.position + 1
  rest : l.cursor.rest = ':' :: ' ' :: rest
  line : l.mark.line = k.mark.line
  index : l.mark.index ≤ k.mark.index + 1024
  keyColumn : k.mark.column = 2
  column : 2 < l.mark.column

/-- The key of an entry is read, and kept open as a key. -/
theorem next_key {key : List Char} (h : AtLine l (key ++ ':' :: ' ' :: rest) 2) (hkey : IsKey key)
    (hindents : l.indents = [0, -1] ∨ l.indents = [2, 0, -1]) :
    ∃ l' k, l.next = .ok l' ∧ AfterKey l' k rest ∧ l'.indents = l.indents ∧
      l'.kinds = .scalar key .plain :: l.kinds := by
  obtain ⟨l₁, htoken, hindents₁, hkinds, hnext⟩ := next_atLine h
  obtain ⟨c, key, rfl⟩ := List.exists_cons_of_ne_nil hkey.nonempty
  have hletter : c.isAlpha = true := List.all_eq_true.mp hkey.letters c (List.mem_cons_self ..)
  have hindent : l₁.indent ≤ (2 : Nat) := by
    rw [← hindents₁] at hindents
    rcases hindents with hindents | hindents <;> rw [(List.cons.inj hindents).1] <;> decide
  have hcursor := cursor_eq htoken.rest
  have hread := PlainScalar.read_word (l₁.indent + 1).toNat rest (m := l₁.mark)
    (List.all_eq_true.mp hkey.letters)
  rw [← hcursor] at hread
  -- The scalar may turn out to be a key, so its place is kept.
  have hsave : l₁.saveKey = .ok { l₁ with
      keys := [some ⟨l₁.flow = 0 && l₁.indent = l₁.mark.column, l₁.count, l₁.mark⟩] } := by
    rw [saveKey, if_pos htoken.keyAllowed, dropKey_of_none htoken.keys]
    simp [bind, Except.bind, pure, Except.pure, htoken.keys]
  have hflow : decide (l₁.flow ≠ 0) = false := by simp [htoken.flow]
  rw [hnext, closeBlocks_of_le hindent, readToken_plain htoken.rest (by simp [htoken.column])
    htoken.flow (startsPlain_of_isAlpha hletter _) (fun h => absurd h (ne_of_isAlpha hletter rfl))
    (isBlank_of_isAlpha hletter), readPlain_eq hsave (by rw [hflow]; exact hread)]
  refine ⟨_, _, rfl, ⟨htoken.flow, rfl, rfl, rfl, rfl, ?_, htoken.column, ?_⟩, hindents₁,
    congrArg _ hkinds⟩
  · exact Nat.add_le_add_left hkey.length _
  · have hcolumn : l₁.mark.column = 2 := htoken.column
    exact hcolumn ▸ Nat.lt_add_of_pos_right (Nat.succ_pos key.length)

/-- The lexer stands after the colon of an entry. -/
structure AtValue (l : Lexer) (rest : List Char) : Prop where
  flow : l.flow = 0
  keys : l.keys = [none]
  keyAllowed : l.keyAllowed = false
  rest : l.cursor.rest = ' ' :: rest
  column : 2 < l.mark.column
  indents : l.indents = [2, 0, -1]

/-- The token that marks a key is put in before it, after the one that opens the
mapping if this is its first key. -/
theorem mark_key {k : OpenKey} {scalar : Token.Kind} {before : List Token.Kind}
    (h : AfterKey l k rest) (hindents : l.indents = [0, -1] ∨ l.indents = [2, 0, -1])
    (hkinds : l.kinds = scalar :: before) :
    ∃ l', (l.insert k.position .key k.mark).openBlock k.mark.column k.position .blockMappingStart
        k.mark = l' ∧ l'.cursor = l.cursor ∧ l'.flow = 0 ∧ l'.indents = [2, 0, -1] ∧
      l'.kinds = scalar :: .key ::
        ((if l.indents = [0, -1] then [.blockMappingStart] else []) ++ before) := by
  obtain ⟨t, ts, htokens, rfl, rfl⟩ := List.map_eq_cons_iff.mp hkinds
  have hfirst : l.count - k.position = 1 := by
    rw [h.position]
    omega
  have hsecond : l.count + 1 - k.position = 2 := by
    rw [h.position]
    omega
  -- The first key of a mapping opens it; at every other one it is open already.
  rcases hindents with hindents | hindents
  · obtain ⟨hindent, houter⟩ := List.cons.inj hindents
    refine ⟨_, rfl, ?_⟩
    simp [openBlock, insert, h.flow, h.keyColumn, hindent, houter, htokens, hfirst, hsecond,
      indents, kinds]
  · obtain ⟨hindent, houter⟩ := List.cons.inj hindents
    refine ⟨_, rfl, ?_⟩
    simp [openBlock, insert, h.flow, h.keyColumn, hindent, houter, htokens, hfirst, indents, kinds]

/-- Nothing stands between a key and its colon. -/
theorem next_afterKey {k : OpenKey} (h : AfterKey l k rest)
    (hindents : l.indents = [0, -1] ∨ l.indents = [2, 0, -1]) : l.next = l.readToken := by
  have hready : Ready (':' :: ' ' :: rest) := ready_cons rfl rfl (by decide) (by decide) _
  have hcursor := cursor_eq h.rest
  have hskip : l.toNextToken (l.cursor.rest.length + 1) = l := by
    rw [toNextToken_spaces [] (List.forall_mem_nil _) hready hcursor, List.length_nil,
      Mark.advance_zero, ← hcursor]
  -- The key is on this line and not too long, so it is not stale.
  have hkeys : l.dropStaleKeys = .ok l := by
    refine dropStaleKeys_of_fresh h.keys fun k' hk => ?_
    obtain rfl := Option.some.inj hk
    exact ⟨Nat.le_of_eq h.line, h.index⟩
  have hindent : l.indent ≤ l.mark.column := by
    have hcolumn := h.column
    rcases hindents with hindents | hindents <;> rw [(List.cons.inj hindents).1] <;> omega
  rw [next, hskip, hkeys]
  exact congrArg readToken (closeBlocks_of_le hindent)

/-- The colon marks the scalar before it as a key; the first key of a record opens
the mapping. -/
theorem next_colon {k : OpenKey} {scalar : Token.Kind} {before : List Token.Kind}
    (h : AfterKey l k rest) (hindents : l.indents = [0, -1] ∨ l.indents = [2, 0, -1])
    (hkinds : l.kinds = scalar :: before) :
    ∃ l', l.next = .ok l' ∧ AtValue l' rest ∧
      l'.kinds = .value :: scalar :: .key ::
        ((if l.indents = [0, -1] then [.blockMappingStart] else []) ++ before) := by
  obtain ⟨l₁, hmark, hcursor, hflow, hindents₁, hkinds₁⟩ := mark_key h hindents hkinds
  -- The colon turns the scalar before it into a key.
  have hread : l.readToken
      = .ok ({ l₁ with keys := [none], keyAllowed := false }.indicator .value 1) := by
    have hmarker := Cursor.atMarker_of_column (c := l.cursor) (Nat.zero_lt_of_lt h.column)
    have hvalue : l.readToken = l.readValue := by
      rw [readToken]
      simp only [hmarker, h.rest]
      simp [atGap, isBlank]
    rw [hvalue, readValue, h.keys]
    simp only [hmark]
    rfl
  have hskip : l₁.cursor.skip = ⟨' ' :: rest, l.mark.advance 1⟩ := by
    rw [hcursor, cursor_eq h.rest]
    rfl
  have hcolumn : 2 < l₁.cursor.skip.mark.column := by
    rw [hskip]
    exact Nat.lt_succ_of_lt h.column
  exact ⟨_, (next_afterKey h hindents).trans hread,
    ⟨hflow, rfl, rfl, congrArg Cursor.rest hskip, hcolumn, hindents₁⟩, congrArg _ hkinds₁⟩

end Promotion.Yaml.Lexer
