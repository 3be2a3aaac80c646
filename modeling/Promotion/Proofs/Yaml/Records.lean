import Promotion.Proofs.Yaml.Scalar

/-!
# `Promotion.Proofs.Yaml.Records`: the tokens of a list of records

* `tokensOf_records`: the tokens of what is written for a list of records.
-/

set_option autoImplicit false

namespace Promotion.Yaml

open Printer

namespace Lexer

variable {l l' l'' : Lexer} {n k : Nat} {spaces rest tail : List Char}

/-! ### Steps -/

/-- One state of the lexer leads to another in `n` steps. -/
def Leads (l l' : Lexer) (n : Nat) : Prop := ∀ fuel, l.readAll (fuel + n) = l'.readAll fuel

/-- Reading on from where reading has led leads further. -/
theorem Leads.trans (h : Leads l l' n) (h' : Leads l' l'' k) : Leads l l'' (k + n) :=
  fun fuel => (congrArg (fun m => l.readAll m) (Nat.add_assoc fuel k n)).symm.trans
    ((h (fuel + k)).trans (h' fuel))

/-- One token that is not the last one is one step. -/
theorem leads_next (h : l.next = .ok l') (hkinds : l'.kinds.head? ≠ some .streamEnd) :
    Leads l l' 1 := by
  intro fuel
  rw [readAll, h]
  simp only
  split
  next htokens => exact absurd (by simp [kinds, htokens]) hkinds
  next => rfl

/-- The end of the stream ends the reading. -/
theorem readAll_end {fuel : Nat} {before : List Token.Kind} (h : l.next = .ok l')
    (hkinds : l'.kinds = .streamEnd :: before) :
    l.readAll (fuel + 1) = .ok l'.tokens.reverse := by
  obtain ⟨⟨kind, start, stop⟩, ts, htokens, hkind, -⟩ := List.map_eq_cons_iff.mp hkinds
  obtain rfl : kind = .streamEnd := hkind
  rw [readAll, h]
  simp only [htokens]

end Lexer

/-! ### Records -/

/-- An entry that is read back: its key is a word, its value is on its line. -/
structure IsEntry (e : String × Value) : Prop where
  key : Lexer.IsKey e.1.toList
  value : Lexer.Leaf e.2

/-- The kinds of the tokens of an entry. -/
def entryKinds (e : String × Value) : List Token.Kind :=
  [.key, .scalar e.1.toList .plain, .value, Lexer.scalarKind e.2]

/-- The kinds of the tokens of a record, but for the one that closes it. -/
def recordKinds (r : List (String × Value)) : List Token.Kind :=
  .blockEntry :: .blockMappingStart :: r.flatMap entryKinds

/-- The line of an entry: its key, a colon and its value. -/
theorem entryLine_eq {e : String × Value} (he : IsEntry e) :
    entryLine e = e.1.toList ++ ':' :: ' ' :: endLine (scalarOf e.2) := by
  have hne : scalarOf e.2 ≠ [] := Lexer.scalarOf_ne_nil he.value
  have hline := endLine_append (e.1.toList ++ [':', ' ']) hne
  simpa [entryLine] using hline

/-- A line has at least three characters, as many as its tokens. -/
theorem three_le_entryLine {e : String × Value} (he : IsEntry e) : 3 ≤ (entryLine e).length := by
  have hkey : 0 < e.1.toList.length := List.length_pos_iff.mpr he.key.nonempty
  rw [entryLine_eq he, List.length_append, List.length_cons, List.length_cons]
  omega

namespace Lexer

variable {l : Lexer} {spaces rest tail : List Char}

/-- A line of an entry starts with a letter. -/
theorem ready_entryLine {e : String × Value} (he : IsEntry e) (rest : List Char) :
    Ready (entryLine e ++ rest) := by
  obtain ⟨c, key, hkey⟩ := List.exists_cons_of_ne_nil he.key.nonempty
  have hletter : c.isAlpha = true :=
    List.all_eq_true.mp he.key.letters c (hkey ▸ List.mem_cons_self ..)
  rw [entryLine_eq he, hkey, List.append_assoc, List.cons_append]
  exact ready_cons (isBlank_of_isAlpha hletter) (isBreak_of_isAlpha hletter)
    (ne_of_isAlpha hletter rfl) (ne_of_isAlpha hletter rfl) _

/-- The line of an entry leads through its tokens to the next line. -/
theorem leads_entry (spaces : List Char) {e : String × Value} (he : IsEntry e)
    (h : AtLine l (entryLine e ++ (spaces ++ rest)) 2)
    (hindents : l.indents = [0, -1] ∨ l.indents = [2, 0, -1]) (hspaces : ∀ c ∈ spaces, c = ' ')
    (hindent : spaces.length ≤ 2) (hrest : Ready rest) :
    ∃ l', Leads l l' 3 ∧ AtLine l' rest spaces.length ∧ l'.indents = [2, 0, -1] ∧
      l'.kinds = (entryKinds e).reverse ++
        ((if l.indents = [0, -1] then [.blockMappingStart] else []) ++ l.kinds) := by
  rw [entryLine_eq he, List.append_assoc, List.cons_append, List.cons_append] at h
  -- Three tokens in a row: the key, the colon, the value.
  obtain ⟨l₁, k, hnext₁, hkey, hindents₁, hkinds₁⟩ := next_key h he.key hindents
  rw [← hindents₁] at hindents
  obtain ⟨l₂, hnext₂, hvalue, hkinds₂⟩ := next_colon hkey hindents hkinds₁
  obtain ⟨l₃, hnext₃, hline, hindents₃, hkinds₃⟩ :=
    next_value hspaces hindent hrest he.value hvalue
  have hleads₁ : Leads l l₁ 1 := leads_next hnext₁ (by simp [hkinds₁])
  have hleads₂ : Leads l₁ l₂ 1 := leads_next hnext₂ (by simp [hkinds₂])
  have hleads₃ : Leads l₂ l₃ 1 := leads_next hnext₃ (by simp [hkinds₃, scalarKind_ne_streamEnd])
  refine ⟨l₃, (hleads₁.trans hleads₂).trans hleads₃, hline, hindents₃, ?_⟩
  rw [hkinds₃, hkinds₂, hindents₁]
  rfl

/-- The entries of a record after the first one, and what follows them. -/
theorem leads_entries {es : List (String × Value)} {e : String × Value} (he : IsEntry e)
    (hes : ∀ e ∈ es, IsEntry e)
    (h : AtLine l (entryLine e ++ (es.flatMap (fun e => ' ' :: ' ' :: entryLine e) ++ tail)) 2)
    (hindents : l.indents = [0, -1] ∨ l.indents = [2, 0, -1]) (htail : Ready tail) :
    ∃ l' n, n ≤ (entryLine e ++ es.flatMap fun e => ' ' :: ' ' :: entryLine e).length ∧
      Leads l l' n ∧ AtLine l' tail 0 ∧ l'.indents = [2, 0, -1] ∧
      l'.kinds = ((e :: es).flatMap entryKinds).reverse ++
        ((if l.indents = [0, -1] then [.blockMappingStart] else []) ++ l.kinds) := by
  have hlength := three_le_entryLine he
  -- By induction on the entries after the first one, which stands behind the hyphen.
  induction es generalizing l e with
  | nil =>
    obtain ⟨l', hleads, hline, hindents', hkinds⟩ :=
      leads_entry [] he h hindents nofun (Nat.zero_le _) htail
    exact ⟨l', 3, by simpa using hlength, hleads, hline, hindents', by simpa using hkinds⟩
  | cons e' es ih =>
    obtain ⟨he', hes'⟩ := List.forall_mem_cons.mp hes
    rw [List.flatMap_cons, List.append_assoc] at h
    obtain ⟨l₁, hleads₁, hline₁, hindents₁, hkinds₁⟩ :=
      leads_entry [' ', ' '] he h hindents (by simp) (Nat.le_refl 2)
        (ready_entryLine he' _)
    obtain ⟨l', n, hn, hleads, hline, hindents', hkinds⟩ :=
      ih he' hes' hline₁ (.inr hindents₁) (three_le_entryLine he')
    refine ⟨l', n + 3, ?_, hleads₁.trans hleads, hline, hindents', ?_⟩
    · simp only [List.length_append, List.flatMap_cons, List.length_cons] at hn ⊢
      omega
    · rw [hkinds, hindents₁, hkinds₁]
      simp

/-- A record is read, and what closes the one before it. -/
theorem leads_record {r : List (String × Value)} (hr : r ≠ []) (hes : ∀ e ∈ r, IsEntry e)
    (h : AtLine l (recordLines r ++ tail) 0) (hindents : l.indents = [-1] ∨ l.indents = [2, 0, -1])
    (htail : Ready tail) :
    ∃ l' n, n ≤ (recordLines r).length ∧ Leads l l' n ∧ AtLine l' tail 0 ∧
      l'.indents = [2, 0, -1] ∧
      l'.kinds = (recordKinds r).reverse ++
        (if l.indents = [-1] then .blockSequenceStart else .blockEnd) :: l.kinds := by
  obtain ⟨e, es, rfl⟩ := List.exists_cons_of_ne_nil hr
  obtain ⟨he, hes⟩ := List.forall_mem_cons.mp hes
  -- The hyphen of the record comes first, with its own indentation.
  have hlines : recordLines (e :: es) ++ tail = '-' :: ' ' ::
      (entryLine e ++ (es.flatMap (fun e => ' ' :: ' ' :: entryLine e) ++ tail)) := by
    simp [recordLines]
  rw [hlines] at h
  obtain ⟨l₁, hnext, hline₁, hindents₁, hkinds₁⟩ := next_record h (ready_entryLine he _) hindents
  obtain ⟨l', n, hn, hleads, hline, hindents', hkinds⟩ :=
    leads_entries he hes hline₁ (.inl hindents₁) htail
  refine ⟨l', n + 1, ?_, (leads_next hnext (by simp [hkinds₁])).trans hleads, hline, hindents', ?_⟩
  · simp only [recordLines, List.length_cons]
    omega
  · rw [hkinds, hindents₁, hkinds₁]
    simp [recordKinds]

/-- The lines of a record start with a hyphen. -/
theorem ready_recordLines {r : List (String × Value)} (hr : r ≠ []) (rest : List Char) :
    Ready (recordLines r ++ rest) := by
  obtain ⟨e, es, rfl⟩ := List.exists_cons_of_ne_nil hr
  exact ready_cons rfl rfl (by decide) (by decide) _

/-- The lines of several records start with a hyphen, or there are none. -/
theorem ready_records {rs : List (List (String × Value))}
    (hrs : ∀ r ∈ rs, r ≠ [] ∧ ∀ e ∈ r, IsEntry e) : Ready (rs.flatMap recordLines) := by
  cases rs with
  | nil => exact nofun
  | cons r rs => exact ready_recordLines (hrs r (List.mem_cons_self ..)).1 _

/-- The records after the first one. -/
theorem leads_records {rs : List (List (String × Value))}
    (hrs : ∀ r ∈ rs, r ≠ [] ∧ ∀ e ∈ r, IsEntry e) (h : AtLine l (rs.flatMap recordLines) 0)
    (hindents : l.indents = [2, 0, -1]) :
    ∃ l' n, n ≤ (rs.flatMap recordLines).length ∧ Leads l l' n ∧ AtLine l' [] 0 ∧
      l'.indents = [2, 0, -1] ∧
      l'.kinds = (rs.flatMap fun r => .blockEnd :: recordKinds r).reverse ++ l.kinds := by
  -- By induction on the records; each one ends the mapping before it.
  induction rs generalizing l with
  | nil => exact ⟨l, 0, Nat.le_refl 0, fun _ => rfl, h, hindents, rfl⟩
  | cons r rs ih =>
    obtain ⟨⟨hr, hes⟩, hrs'⟩ := List.forall_mem_cons.mp hrs
    have htail := ready_records hrs'
    obtain ⟨l₁, n₁, hn₁, hleads₁, hline₁, hindents₁, hkinds₁⟩ :=
      leads_record hr hes h (.inr hindents) htail
    obtain ⟨l', n, hn, hleads, hline, hindents', hkinds⟩ := ih hrs' hline₁ hindents₁
    refine ⟨l', n + n₁, ?_, hleads₁.trans hleads, hline, hindents', ?_⟩
    · rw [List.flatMap_cons, List.length_append]
      omega
    · rw [hkinds, hkinds₁, hindents]
      simp

end Lexer

/-- The kinds of the tokens of a list of records. -/
def recordsKinds (rs : List (List (String × Value))) : List Token.Kind :=
  .blockSequenceStart :: (rs.flatMap fun r => recordKinds r ++ [.blockEnd])
    ++ [.blockEnd, .streamEnd]

/-- The line of an entry can be printed. -/
theorem printable_entryLine {e : String × Value} (he : IsEntry e) : Printable (entryLine e) := by
  have hcolon : isPrintable ':' = true := rfl
  have hspace : isPrintable ' ' = true := rfl
  have hkey : Printable e.1.toList :=
    fun c hc => isPrintable_of_isAlpha (List.all_eq_true.mp he.key.letters c hc)
  have hvalue : Printable (endLine (scalarOf e.2)) :=
    isPrintable_of_endLine (Lexer.printable_scalarOf he.value)
  simp [entryLine_eq he, hcolon, hspace, hkey, hvalue]

/-- The lines of a record can be printed. -/
theorem printable_recordLines {r : List (String × Value)} (hr : r ≠ [])
    (hes : ∀ e ∈ r, IsEntry e) : Printable (recordLines r) := by
  obtain ⟨e, es, rfl⟩ := List.exists_cons_of_ne_nil hr
  obtain ⟨he, hes⟩ := List.forall_mem_cons.mp hes
  have hhyphen : isPrintable '-' = true := rfl
  have hspace : isPrintable ' ' = true := rfl
  -- The further lines are indented.
  have hmore : Printable (es.flatMap fun e => ' ' :: ' ' :: entryLine e) := by
    intro c hc
    obtain ⟨e, hmem, hc⟩ := List.mem_flatMap.mp hc
    have hline : Printable (' ' :: ' ' :: entryLine e) := by
      simp [hspace, printable_entryLine (hes e hmem)]
    exact hline c hc
  simp [recordLines, hhyphen, hspace, printable_entryLine he, hmore]

/-- The tokens that close a record may be counted to it or to the next one. -/
theorem recordsKinds_cons (r : List (String × Value)) (rs : List (List (String × Value))) :
    recordsKinds (r :: rs) = .blockSequenceStart ::
      (recordKinds r ++ (rs.flatMap fun r => .blockEnd :: recordKinds r)
        ++ [.blockEnd, .blockEnd, .streamEnd]) := by
  -- The end of a mapping is written before the next record, and counted at the end of its own.
  have hshift : .blockEnd :: (rs.flatMap fun r => recordKinds r ++ [.blockEnd])
      = (rs.flatMap fun r => .blockEnd :: recordKinds r) ++ [.blockEnd] := by
    induction rs with
    | nil => rfl
    | cons r rs ih => simp [ih]
  have hkinds := congrArg (fun ks => .blockSequenceStart :: (recordKinds r ++
    (ks ++ [.blockEnd, .streamEnd]))) hshift
  simpa [recordsKinds] using hkinds

/-- The tokens of what is written for a list of records. -/
theorem tokensOf_records {rs : List (List (String × Value))} (hne : rs ≠ [])
    (hrs : ∀ r ∈ rs, r ≠ [] ∧ ∀ e ∈ r, IsEntry e) :
    ∃ tokens, tokensOf (records rs) = .ok tokens ∧ tokens.map (·.kind) = recordsKinds rs := by
  have hallowed : (records rs).find? (fun c => !isAllowed c) = none := by
    rw [List.find?_eq_none]
    intro c hc
    rw [records, if_neg (by simpa using hne)] at hc
    obtain ⟨r, hmem, hc⟩ := List.mem_flatMap.mp hc
    have hprintable := printable_recordLines (hrs r hmem).1 (hrs r hmem).2 c hc
    simp [isAllowed_of_isPrintable hprintable]
  obtain ⟨r, rs, rfl⟩ := List.exists_cons_of_ne_nil hne
  obtain ⟨⟨hr, hes⟩, hrs'⟩ := List.forall_mem_cons.mp hrs
  have htext : records (r :: rs) = recordLines r ++ rs.flatMap recordLines := by
    simp [records]
  have hready := Lexer.ready_recordLines hr (rs.flatMap recordLines)
  have hstart : Lexer.AtLine (.ofText (records (r :: rs)))
      (recordLines r ++ rs.flatMap recordLines) 0 :=
    Lexer.atLine_token (m := .start) hready (by rw [htext]; rfl) rfl rfl rfl
  obtain ⟨l₁, n₁, hn₁, hleads₁, hline₁, hindents₁, hkinds₁⟩ :=
    Lexer.leads_record hr hes hstart (.inl rfl) (Lexer.ready_records hrs')
  obtain ⟨l₂, n₂, hn₂, hleads₂, hline₂, hindents₂, hkinds₂⟩ :=
    Lexer.leads_records hrs' hline₁ hindents₁
  obtain ⟨l₃, hnext, hkinds₃⟩ := Lexer.next_end hline₂ hindents₂
  refine ⟨l₃.tokens.reverse, ?_, ?_⟩
  · -- No step is made without a character of its own, so the fuel suffices.
    have hlength : n₂ + n₁ ≤ (records (r :: rs)).length := by
      rw [htext, List.length_append]
      omega
    obtain ⟨fuel, hfuel⟩ : ∃ fuel, (records (r :: rs)).length + 2 = (fuel + 1) + (n₂ + n₁) :=
      ⟨(records (r :: rs)).length + 1 - (n₂ + n₁), by omega⟩
    rw [tokensOf, hallowed, hfuel]
    exact (hleads₁.trans hleads₂ (fuel + 1)).trans (Lexer.readAll_end hnext hkinds₃)
  · have hreverse : l₃.tokens.reverse.map (·.kind) = l₃.kinds.reverse := List.map_reverse
    rw [hreverse, hkinds₃, hkinds₂, hkinds₁, recordsKinds_cons]
    simp [Lexer.kinds, Lexer.indents, Lexer.ofText]

end Promotion.Yaml
