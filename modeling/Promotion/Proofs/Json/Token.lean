import Mathlib.Tactic.Common
import Promotion.Json.Printer
import Promotion.Json.Token

/-!
# `Promotion.Proofs.Json.Token`: the tokens of what is written

The lexer goes through a text one character at a time. What the printer writes
for a value is cut into the tokens of that value (`tokens`), whatever stands
after it.

* `scan_quote`: a quoted text is a single token that gives the text back, for
  any characters.
* `scan_lines`: a value on several lines, at any level of indentation.
-/

set_option autoImplicit false

namespace Promotion.Json

open Token

/-- A value that can be written: texts, truth values and nothing, in lists and
mappings that are at most `depth` deep. The keys of mappings are texts. -/
inductive Writable : Nat → Value → Prop
  | null (depth : Nat) : Writable depth .null
  | bool (depth : Nat) (b : Bool) : Writable depth (.bool b)
  | text (depth : Nat) (s : String) : Writable depth (.text s)
  | list {depth : Nat} {items : List Value} (h : ∀ v ∈ items, Writable depth v) :
      Writable (depth + 1) (.list items)
  | map {depth : Nat} {entries : List (Value × Value)}
      (hkeys : ∀ e ∈ entries, ∃ key, e.1 = .text key)
      (h : ∀ e ∈ entries, Writable depth e.2) : Writable (depth + 1) (.map entries)

mutual

/-- The tokens of a value. -/
def tokens : Value → List Token
  | .list [] => [openList, closeList]
  | .list (v :: rest) => openList :: (tokens v ++ itemTokens rest ++ [closeList])
  | .map [] => [openMap, closeMap]
  | .map ((k, v) :: rest) =>
    openMap :: value k :: colon :: (tokens v ++ entryTokens rest ++ [closeMap])
  | v => [value v]

/-- The tokens of the items of a list after the first. -/
def itemTokens : List Value → List Token
  | [] => []
  | v :: rest => comma :: (tokens v ++ itemTokens rest)

/-- The tokens of the entries of a mapping after the first. -/
def entryTokens : List (Value × Value) → List Token
  | [] => []
  | (k, v) :: rest => comma :: value k :: colon :: (tokens v ++ entryTokens rest)

end

/-! ### Between tokens -/

section Between

variable (rest : List Char)

/-- The start of a list is a token. -/
@[simp] theorem scan_openList :
    scan .between ('[' :: rest) = (scan .between rest).map (openList :: ·) := rfl

/-- The end of a list is a token. -/
@[simp] theorem scan_closeList :
    scan .between (']' :: rest) = (scan .between rest).map (closeList :: ·) := rfl

/-- The start of a mapping is a token. -/
@[simp] theorem scan_openMap :
    scan .between ('\x7b' :: rest) = (scan .between rest).map (openMap :: ·) := rfl

/-- The end of a mapping is a token. -/
@[simp] theorem scan_closeMap :
    scan .between ('\x7d' :: rest) = (scan .between rest).map (closeMap :: ·) := rfl

/-- A colon is a token. -/
@[simp] theorem scan_colon :
    scan .between (':' :: rest) = (scan .between rest).map (colon :: ·) := rfl

/-- A comma is a token. -/
@[simp] theorem scan_comma :
    scan .between (',' :: rest) = (scan .between rest).map (comma :: ·) := rfl

/-- Spaces between values are skipped. -/
@[simp] theorem scan_space : scan .between (' ' :: rest) = scan .between rest := by
  simp [scan, step, start, isSpace]

/-- Line feeds between values are skipped. -/
@[simp] theorem scan_lineFeed : scan .between ('\n' :: rest) = scan .between rest := by
  simp [scan, step, start, isSpace]

/-- A line feed is skipped with the indentation after it. -/
@[simp] theorem scan_newLine (level : Nat) :
    scan .between (newLine level ++ rest) = scan .between rest := by
  rw [newLine, List.cons_append, scan_lineFeed]
  induction 2 * level with
  | zero => rfl
  | succ n ih => rw [List.replicate_succ, List.cons_append, scan_space, ih]

end Between

/-! ### Texts -/

/-- A digit that was written is read as its value. -/
theorem hexDigit?_hexDigit (n : Nat) : hexDigit? (hexDigit n) = some (n % 16) := by
  have hdigits : ∀ d < 16, hexDigit? (Nat.digitChar d) = some d := by decide
  exact hdigits (n % 16) (Nat.mod_lt n (by decide))

/-- A character that was written in a text is read back. -/
theorem scan_escapeChar (read : List Char) (c : Char) (rest : List Char) :
    scan (.string read) (escapeChar c ++ rest) = scan (.string (c :: read)) rest := by
  unfold escapeChar
  split
  next h => subst h; simp [scan, step, escaped?]
  split
  next h => subst h; simp [scan, step, escaped?]
  split
  next h => subst h; simp [scan, step, escaped?]
  split
  next h => subst h; simp [scan, step, escaped?]
  split
  next h => subst h; simp [scan, step, escaped?]
  split
  next h => subst h; simp [scan, step, escaped?]
  split
  next h => subst h; simp [scan, step, escaped?]
  split
  next hcontrol =>
    -- Two of the four digits are zeros; the others are those of the number of `c`.
    have hvalue : 16 * (c.toNat / 16 % 16) + c.toNat % 16 = c.toNat := by omega
    have hzero : hexDigit? '0' = some 0 := by decide
    have hunit : ¬ (0xD800 ≤ c.toNat ∧ c.toNat < 0xDC00) := by omega
    have hunit' : ¬ (0xDC00 ≤ c.toNat ∧ c.toNat < 0xE000) := by omega
    simp [scan, step, hexDigit?_hexDigit, hzero, hvalue, unit, hunit, hunit', Char.ofNat_toNat]
  next hquote hbackslash _ _ _ _ _ hcontrol =>
    simp [scan, step, hquote, hbackslash, hcontrol]

/-- The characters of a text are read back. -/
theorem scan_escaped (read s : List Char) (rest : List Char) :
    scan (.string read) (s.flatMap escapeChar ++ rest) = scan (.string (s.reverse ++ read)) rest := by
  induction s generalizing read with
  | nil => rfl
  | cons c s ih => simp [scan_escapeChar, ih]

/-- A text in quotation marks is one token. -/
theorem scan_quote (s rest : List Char) :
    scan .between (quote s ++ rest)
      = (scan .between rest).map (value (.text (String.ofList s)) :: ·) := by
  have hopen (t : List Char) : scan .between ('"' :: t) = scan (.string []) t := by
    simp [scan, step, start, isSpace]
  rw [quote, List.cons_append, hopen, List.append_assoc, scan_escaped]
  simp [scan, step]

/-! ### Words -/

/-- A word ends where no letter follows. -/
theorem scan_word (read : List Char) {v : Value} {rest : List Char}
    (hword : word? read.reverse = some v) (hrest : ∀ c ∈ rest.head?, c.isAlpha = false) :
    scan (.word read) rest = (scan .between rest).map (value v :: ·) := by
  -- The word ends with the text, or before a character that starts the next token.
  cases rest with
  | nil => simp [scan, close, hword]
  | cons c rest =>
    have hc : c.isAlpha = false := hrest c rfl
    cases hstart : start c with
    | none => simp [scan, step, hc, close, hword, hstart]
    | some after =>
      obtain ⟨next, tokens⟩ := after
      cases hnext : scan next rest <;> simp [scan, step, hc, close, hword, hstart, hnext]

/-- The word `null` is one token. -/
theorem scan_null {rest : List Char} (hrest : ∀ c ∈ rest.head?, c.isAlpha = false) :
    scan .between ('n' :: 'u' :: 'l' :: 'l' :: rest)
      = (scan .between rest).map (value .null :: ·) := by
  rw [← scan_word ['l', 'l', 'u', 'n'] rfl hrest]
  simp [scan, step, start, isSpace]

/-- The word `true` is one token. -/
theorem scan_true {rest : List Char} (hrest : ∀ c ∈ rest.head?, c.isAlpha = false) :
    scan .between ('t' :: 'r' :: 'u' :: 'e' :: rest)
      = (scan .between rest).map (value (.bool true) :: ·) := by
  rw [← scan_word ['e', 'u', 'r', 't'] rfl hrest]
  simp [scan, step, start, isSpace]

/-- The word `false` is one token. -/
theorem scan_false {rest : List Char} (hrest : ∀ c ∈ rest.head?, c.isAlpha = false) :
    scan .between ('f' :: 'a' :: 'l' :: 's' :: 'e' :: rest)
      = (scan .between rest).map (value (.bool false) :: ·) := by
  rw [← scan_word ['e', 's', 'l', 'a', 'f'] rfl hrest]
  simp [scan, step, start, isSpace]

/-! ### Values -/

/-- Wherever it stands, the value is cut into its tokens. -/
def Scans (v : Value) : Prop :=
  ∀ (level : Nat) (rest : List Char), (∀ c ∈ rest.head?, c.isAlpha = false) →
    scan .between (lines level v ++ rest) = (scan .between rest).map (tokens v ++ ·)

/-- A new line does not start with a letter. -/
theorem head?_newLine (level : Nat) (s : List Char) :
    ∀ c ∈ (newLine level ++ s).head?, c.isAlpha = false := by
  intro c hc
  obtain rfl : '\n' = c := Option.some.inj hc
  decide

section Rows

variable {rest : List Char} (hrest : ∀ c ∈ rest.head?, c.isAlpha = false)

include hrest

/-- What follows an item of a list, or an entry, does not start with a letter. -/
theorem head?_itemLines (level : Nat) (items : List Value) :
    ∀ c ∈ (itemLines level items ++ rest).head?, c.isAlpha = false := by
  cases items with
  | nil => exact hrest
  | cons v items =>
    intro c hc
    obtain rfl : ',' = c := Option.some.inj hc
    decide

/-- What follows an entry does not go on with a letter. -/
theorem head?_entryLines (level : Nat) (entries : List (Value × Value)) :
    ∀ c ∈ (entryLines level entries ++ rest).head?, c.isAlpha = false := by
  cases entries with
  | nil => exact hrest
  | cons e entries =>
    intro c hc
    obtain rfl : ',' = c := Option.some.inj hc
    decide

/-- The items after the first one are scanned, each after its comma. -/
theorem scan_itemLines (level : Nat) {items : List Value} (h : ∀ v ∈ items, Scans v) :
    scan .between (itemLines level items ++ rest)
      = (scan .between rest).map (itemTokens items ++ ·) := by
  induction items with
  | nil => simp [itemLines, itemTokens]
  | cons v items ih =>
    rw [List.forall_mem_cons] at h
    have hv := h.1 level (itemLines level items ++ rest) (head?_itemLines hrest level items)
    simp [itemLines, itemTokens, hv, ih h.2, Function.comp_def]

/-- The entries after the first one are scanned, each after its comma. -/
theorem scan_entryLines (level : Nat) {entries : List (Value × Value)}
    (hkeys : ∀ e ∈ entries, ∃ key, e.1 = .text key) (h : ∀ e ∈ entries, Scans e.2) :
    scan .between (entryLines level entries ++ rest)
      = (scan .between rest).map (entryTokens entries ++ ·) := by
  -- By induction on the entries: comma, key, colon and value.
  induction entries with
  | nil => simp [entryLines, entryTokens]
  | cons e entries ih =>
    rw [List.forall_mem_cons] at h hkeys
    obtain ⟨⟨key, hkey⟩, hkeys⟩ := hkeys
    obtain ⟨k, v⟩ := e
    subst hkey
    have hv := h.1 level (entryLines level entries ++ rest) (head?_entryLines hrest level entries)
    simp [entryLines, entryTokens, scalar, scan_quote, hv, ih hkeys h.2, Function.comp_def]

end Rows

/-- A value that can be written is cut into its tokens. -/
theorem scan_lines {depth : Nat} {v : Value} (hv : Writable depth v) : Scans v := by
  -- By induction on the value, at every level of indentation.
  induction hv with
  | null =>
    intro level rest hrest
    simp [lines, scalar, tokens, scan_null hrest]
  | bool _ b =>
    intro level rest hrest
    cases b <;> simp [lines, scalar, tokens, scan_true hrest, scan_false hrest]
  | text _ s =>
    intro level rest hrest
    simp [lines, scalar, tokens, scan_quote]
  | @list _ items _ ih =>
    intro level rest hrest
    cases items with
    | nil => simp [lines, tokens, Function.comp_def]
    | cons v items =>
      rw [List.forall_mem_cons] at ih
      have hv := fun s => ih.1 (level + 1) _
        (head?_itemLines (head?_newLine level s) (level + 1) items)
      have hitems := fun s => scan_itemLines (head?_newLine level s) (level + 1) ih.2
      simp [lines, tokens, hv, hitems, Function.comp_def]
  | @map _ entries hkeys _ ih =>
    intro level rest hrest
    cases entries with
    | nil => simp [lines, tokens, Function.comp_def]
    | cons e entries =>
      rw [List.forall_mem_cons] at ih hkeys
      obtain ⟨⟨key, hkey⟩, hkeys⟩ := hkeys
      obtain ⟨k, v⟩ := e
      subst hkey
      have hv := fun s => ih.1 (level + 1) _
        (head?_entryLines (head?_newLine level s) (level + 1) entries)
      have hentries := fun s => scan_entryLines (head?_newLine level s) (level + 1) hkeys ih.2
      simp [lines, tokens, scalar, scan_quote, hv, hentries, Function.comp_def]

end Promotion.Json
