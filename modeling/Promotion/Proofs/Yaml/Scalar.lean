import Promotion.Proofs.Yaml.BlockScalar
import Promotion.Proofs.Yaml.Lexer
import Promotion.Proofs.Yaml.QuotedScalar

/-!
# `Promotion.Proofs.Yaml.Scalar`: the token of a value

A text or truth value after the colon of an entry is one token, in the style in
which it was written, and the lexer stands at the next line after it.

* `next_value`: the value of an entry is read.
-/

set_option autoImplicit false

namespace Promotion.Yaml.Lexer

open Printer

variable {l : Lexer} {spaces rest : List Char} {m : Mark}

/-- The lexer stands at the value of an entry. -/
structure AtScalar (l : Lexer) (rest : List Char) : Prop where
  flow : l.flow = 0
  keys : l.keys = [none]
  keyAllowed : l.keyAllowed = false
  rest : l.cursor.rest = rest
  column : 2 < l.mark.column
  indents : l.indents = [2, 0, -1]

/-- Behind the colon and the space, the next token is a scalar. -/
theorem next_atValue (h : AtValue l rest) (hrest : Ready rest) :
    ∃ l', AtScalar l' rest ∧ l'.kinds = l.kinds ∧ l.next = l'.readToken := by
  have hcursor : l.cursor = ⟨[' '] ++ rest, l.mark⟩ := cursor_eq h.rest
  -- Only the space behind the colon is skipped, and no block is closed.
  have hskip : l.toNextToken (l.cursor.rest.length + 1)
      = { l with cursor := ⟨rest, l.mark.advance 1⟩ } :=
    toNextToken_spaces [' '] (by simp) hrest hcursor
  have hscalar : AtScalar { l with cursor := ⟨rest, l.mark.advance 1⟩ } rest :=
    ⟨h.flow, h.keys, h.keyAllowed, rfl, Nat.lt_succ_of_lt h.column, h.indents⟩
  have hkeys : ({ l with cursor := ⟨rest, l.mark.advance 1⟩ } : Lexer).dropStaleKeys
      = .ok { l with cursor := ⟨rest, l.mark.advance 1⟩ } := dropStaleKeys_of_none h.keys
  refine ⟨_, hscalar, rfl, ?_⟩
  rw [next, hskip, hkeys]
  refine congrArg readToken (closeBlocks_of_le ?_)
  rw [(List.cons.inj hscalar.indents).1]
  exact Int.ofNat_le.mpr (Nat.le_of_lt hscalar.column)

/-- The value of an entry is no key. -/
theorem AtScalar.saveKey (h : AtScalar l rest) : l.saveKey = .ok l := by
  rw [Lexer.saveKey, if_neg (by simp [h.keyAllowed])]

/-- A step reads a token and comes to `column` of the next line. -/
def ReadsTo (l : Lexer) (step : Except Problem Lexer) (kind : Token.Kind) (rest : List Char)
    (column : Nat) : Prop :=
  ∃ l', step = .ok l' ∧ AtLine l' rest column ∧ l'.indents = [2, 0, -1] ∧
    l'.kinds = kind :: l.kinds

/-- The step from the colon to the next line reads the token after the space. -/
theorem readsTo_next {s : List Char} {kind : Token.Kind} {column : Nat} (h : AtValue l s)
    (hs : Ready s) (hread : ∀ l', AtScalar l' s → ReadsTo l' l'.readToken kind rest column) :
    ReadsTo l l.next kind rest column := by
  obtain ⟨l', hscalar, hkinds, hnext⟩ := next_atValue h hs
  rw [hnext, ReadsTo, ← hkinds]
  exact hread l' hscalar

section Scalar

variable {s text : List Char} (hspaces : ∀ c ∈ spaces, c = ' ') (hrest : Ready rest)

include hspaces hrest

/-- A plain text is read up to the next line. -/
theorem readToken_plainText (h : AtScalar l (s ++ '\n' :: (spaces ++ rest)))
    (hindent : spaces.length ≤ 2) (hs : plainAllowed s = true) (hne : s ≠ []) :
    ReadsTo l l.readToken (.scalar s .plain) rest spaces.length := by
  have hcursor := cursor_eq h.rest
  have hflow : decide (l.flow ≠ 0) = false := by simp [h.flow]
  -- The next line is indented less than the scalar would have to go on.
  have hindent₂ : (l.indent + 1).toNat = 3 := by
    rw [(List.cons.inj h.indents).1]
    rfl
  obtain ⟨m', hm', hread⟩ := PlainScalar.read_plain 3 (m := l.mark)
    (plainRest_of_plainAllowed hs) h.column hspaces (Nat.lt_succ_of_le hindent) hrest.ends
  rw [← hcursor] at hread
  obtain ⟨c, s, rfl⟩ := List.exists_cons_of_ne_nil hne
  obtain ⟨hspace, hstart, hgap⟩ := start_of_plainAllowed hs
  rw [← atGap_append_lineFeed s (spaces ++ rest)] at hgap
  have hblank : isBlank c = false := (plainRest_of_plainAllowed hs).not_blank hspace
  rw [readToken_plain h.rest (Nat.zero_lt_of_lt h.column) h.flow (startsPlain_of_start hstart hgap)
    (fun hc => hgap (hc ▸ rfl)) hblank, readPlain_eq h.saveKey (by rw [hflow, hindent₂]; exact hread)]
  refine ⟨_, rfl, ?_, h.indents, rfl⟩
  exact hm' ▸ atLine_token hrest rfl h.flow h.keys rfl

/-- A text in quotes is read up to the next line. -/
theorem readQuoted_eq {quote : Char} {style : Style} (h : AtScalar l (quote :: s))
    (hread : QuotedScalar.read quote l.cursor = .ok (text, ⟨'\n' :: (spaces ++ rest), m⟩)) :
    ReadsTo l (l.readQuoted style quote) (.scalar text style) rest spaces.length := by
  have hquoted : l.readQuoted style quote
      = .ok ({ l with cursor := ⟨'\n' :: (spaces ++ rest), m⟩, keyAllowed := false }.push
        (.scalar text style) l.mark m) := by
    rw [readQuoted, h.saveKey]
    exact congrArg (Except.map _) hread
  exact ⟨_, hquoted, atLine_lineFeed hspaces hrest rfl h.flow h.keys, h.indents, rfl⟩

/-- A text in single quotes is the next token. -/
theorem readToken_single (hs : SingleRest text)
    (h : AtScalar l ('\'' :: (singleQuotedFrom false text ++ '\'' :: '\n' :: (spaces ++ rest)))) :
    ReadsTo l l.readToken (.scalar text .singleQuoted) rest spaces.length := by
  have hmarker := Cursor.atMarker_of_column (c := l.cursor) (Nat.zero_lt_of_lt h.column)
  -- The quote decides how the scalar is read.
  have hread : l.readToken = l.readQuoted .singleQuoted '\'' := by
    rw [readToken]
    simp only [hmarker, h.rest]
    simp
  obtain ⟨m', hquoted⟩ := QuotedScalar.read_single ('\n' :: (spaces ++ rest)) l.mark hs (by simp)
  rw [← h.rest] at hquoted
  rw [hread]
  exact readQuoted_eq hspaces hrest h hquoted

/-- A text in double quotes is the next token. -/
theorem readToken_double
    (h : AtScalar l ('"' :: (text.flatMap doubleQuotedChar ++ '"' :: '\n' :: (spaces ++ rest)))) :
    ReadsTo l l.readToken (.scalar text .doubleQuoted) rest spaces.length := by
  have hmarker := Cursor.atMarker_of_column (c := l.cursor) (Nat.zero_lt_of_lt h.column)
  -- The quote decides how the scalar is read.
  have hread : l.readToken = l.readQuoted .doubleQuoted '"' := by
    rw [readToken]
    simp only [hmarker, h.rest]
    simp
  obtain ⟨m', hquoted⟩ := QuotedScalar.read_double text ('\n' :: (spaces ++ rest)) l.mark
  rw [← h.rest] at hquoted
  rw [hread]
  exact readQuoted_eq hspaces hrest h hquoted

/-- A literal block is the next token. -/
theorem readToken_literal (hindent : spaces.length ≤ 2) (hne : text ≠ [])
    (hprintable : ∀ c ∈ text, isPrintable c = true)
    (h : AtScalar l (literalHeader text ++
      '\n' :: (literalFrom true (endLine text) ++ (spaces ++ rest)))) :
    ReadsTo l l.readToken (.scalar text .literal) rest spaces.length := by
  have hmarker := Cursor.atMarker_of_column (c := l.cursor) (Nat.zero_lt_of_lt h.column)
  have hread : l.readToken = l.readBlockScalar .literal := by
    rw [readToken]
    simp only [hmarker, h.rest, literalHeader, List.cons_append]
    simp [h.flow]
  -- The next line ends the block, since it is indented less.
  have hmargin : BlockScalar.Margin spaces rest :=
    ⟨hspaces, fun c hc => (hrest c hc).2.1, .inr ⟨by omega, hrest.ends⟩⟩
  obtain ⟨m', hm', hblock⟩ :=
    BlockScalar.read_literal (m := l.mark) hne hprintable hmargin (by omega)
  rw [← h.rest] at hblock
  have hblockScalar : l.readBlockScalar .literal
      = .ok ({ l with cursor := ⟨rest, m'⟩, keyAllowed := true }.push (.scalar text .literal)
        l.mark m') := by
    have hindent₂ : l.indent = 2 := (List.cons.inj h.indents).1
    have hread₂ : BlockScalar.read (Style.literal = .literal) l.indent l.cursor
        = .ok (text, ⟨rest, m'⟩) := hindent₂ ▸ hblock
    rw [readBlockScalar, dropKey_of_none h.keys]
    exact congrArg (Except.map _) hread₂
  rw [hread]
  refine ⟨_, hblockScalar, ?_, h.indents, rfl⟩
  exact hm' ▸ atLine_token hrest rfl h.flow h.keys rfl

end Scalar

/-- The values of entries: texts and truth values. -/
inductive Leaf : Value → Prop
  | text (s : String) : Leaf (.text s)
  | bool (b : Bool) : Leaf (.bool b)

/-- The token of a value. -/
def scalarKind : Value → Token.Kind
  | .text s => .scalar s.toList (styleOf s)
  | v => .scalar (scalarOf v) .plain

/-- A scalar is not the end of the stream. -/
theorem scalarKind_ne_streamEnd (v : Value) : scalarKind v ≠ .streamEnd := by
  unfold scalarKind
  split <;> nofun

/-- A text that may be plain starts like a token. -/
theorem ready_of_plainAllowed {s : List Char} (hs : plainAllowed s = true) (hne : s ≠ [])
    (rest : List Char) : Ready (s ++ rest) := by
  obtain ⟨c, s, rfl⟩ := List.exists_cons_of_ne_nil hne
  obtain ⟨hspace, hstart, -⟩ := start_of_plainAllowed hs
  have hplain := plainRest_of_plainAllowed hs
  refine ready_cons (hplain.not_blank hspace) hplain.not_break ?_ ?_ _
  · rintro rfl
    cases hstart
  · rintro rfl
    cases hplain.printable _ (List.mem_cons_self ..)

section Value

variable (hspaces : ∀ c ∈ spaces, c = ' ') (hindent : spaces.length ≤ 2) (hrest : Ready rest)

include hspaces hindent hrest

/-- A plain value is the next token. -/
theorem next_plain {s : List Char} (hs : plainAllowed s = true) (hne : s ≠ [])
    (h : AtValue l (endLine s ++ (spaces ++ rest))) :
    ReadsTo l l.next (.scalar s .plain) rest spaces.length := by
  rw [endLine_of_unbroken (plainRest_of_plainAllowed hs).unbroken, List.append_assoc,
    List.singleton_append] at h
  exact readsTo_next h (ready_of_plainAllowed hs hne _) fun l' hscalar =>
    readToken_plainText hspaces hrest hscalar hindent hs hne

/-- The value of an entry is read up to the next line. -/
theorem next_value {v : Value} (hv : Leaf v)
    (h : AtValue l (endLine (scalarOf v) ++ (spaces ++ rest))) :
    ReadsTo l l.next (scalarKind v) rest spaces.length := by
  cases hv with
  | bool b => cases b <;> exact next_plain hspaces hindent hrest rfl (by decide) h
  | text text =>
    rw [scalarOf, textOf] at h
    rw [scalarKind]
    -- One case for each style the printer uses; it never folds.
    cases hstyle : styleOf text with
    | plain =>
      obtain ⟨hplain, hclear⟩ := plain_of_styleOf hstyle
      rw [hstyle] at h
      exact next_plain hspaces hindent hrest hplain (ne_nil_of_isAmbiguous hclear) h
    | singleQuoted =>
      simp only [hstyle] at h
      rw [endLine_quoted rfl] at h
      exact readsTo_next h (ready_cons rfl rfl (by decide) (by decide) _) fun l' hscalar =>
        readToken_single hspaces hrest (single_of_styleOf hstyle) hscalar
    | doubleQuoted =>
      simp only [hstyle] at h
      rw [endLine_quoted rfl] at h
      exact readsTo_next h (ready_cons rfl rfl (by decide) (by decide) _) fun l' hscalar =>
        readToken_double hspaces hrest hscalar
    | literal =>
      obtain ⟨hne, hprintable⟩ := literal_of_styleOf hstyle
      simp only [hstyle] at h
      rw [endLine_literal hne, List.append_assoc, List.cons_append] at h
      exact readsTo_next h (ready_cons rfl rfl (by decide) (by decide) _) fun l' hscalar =>
        readToken_literal hspaces hrest hindent hne hprintable hscalar
    | folded => exact absurd hstyle (styleOf_ne_folded text)

end Value

/-- A value is written in characters that are printable. -/
theorem printable_scalarOf {v : Value} (hv : Leaf v) : Printable (scalarOf v) := by
  have hsingle : isPrintable '\'' = true := rfl
  have hdouble : isPrintable '"' = true := rfl
  have hlineFeed : isPrintable '\n' = true := rfl
  cases hv with
  | bool b => cases b <;> exact (plainRest_of_plainAllowed rfl).printable
  | text text =>
    rw [scalarOf, textOf]
    -- One case for each style the printer uses.
    cases hstyle : styleOf text with
    | plain => exact (plainRest_of_plainAllowed (plain_of_styleOf hstyle).1).printable
    | singleQuoted =>
      simp [hsingle, printable_singleQuotedFrom (single_of_styleOf hstyle).printable]
    | doubleQuoted => simp [hdouble, printable_doubleQuoted]
    | literal =>
      obtain ⟨hne, hprintable⟩ := literal_of_styleOf hstyle
      simp [hlineFeed, BlockScalar.printable_literalHeader hne, printable_literalFrom hprintable]
    | folded => exact absurd hstyle (styleOf_ne_folded text)

/-- No value is written as nothing. -/
theorem scalarOf_ne_nil {v : Value} (hv : Leaf v) : scalarOf v ≠ [] := by
  cases hv with
  | bool b => cases b <;> exact List.cons_ne_nil _ _
  | text text =>
    rw [scalarOf, textOf]
    cases hstyle : styleOf text with
    | plain => exact ne_nil_of_isAmbiguous (plain_of_styleOf hstyle).2
    | singleQuoted => exact List.cons_ne_nil _ _
    | doubleQuoted => exact List.cons_ne_nil _ _
    | literal => exact List.cons_ne_nil _ _
    | folded => exact absurd hstyle (styleOf_ne_folded text)

end Promotion.Yaml.Lexer
