import Promotion.Proofs.Yaml.Records
import Promotion.Yaml.Reader

/-!
# `Promotion.Proofs.Yaml.Reader`: the document of what was written

The tokens of a list of records are read as a sequence of mappings, whatever the
places of the tokens are.

* `documentOf_records`: the document of what is written for a list of records.
-/

set_option autoImplicit false

namespace Promotion.Yaml

namespace Reader

/-- A node without tag and anchor. -/
def plainInfo (m : Mark) : Info := ⟨m, none, none⟩

/-- The nodes of an entry. -/
def IsEntryNode (e : String × Value) (n : Node × Node) : Prop :=
  (∃ m, n.1 = .scalar (plainInfo m) e.1 .plain) ∧
    ∃ m text style, Lexer.scalarKind e.2 = .scalar text style ∧
      n.2 = .scalar (plainInfo m) (String.ofList text) style

/-- The node of a record. -/
def IsRecordNode (r : List (String × Value)) (n : Node) : Prop :=
  ∃ m entries, n = .mapping (plainInfo m) entries ∧ List.Forall₂ IsEntryNode r entries

/-- A leaf is written as a scalar. -/
theorem scalarKind_eq {v : Value} (hv : Lexer.Leaf v) :
    ∃ text style, Lexer.scalarKind v = .scalar text style := by
  cases hv with
  | text s => exact ⟨_, _, rfl⟩
  | bool b => exact ⟨_, _, rfl⟩

variable (handles : Handles) (fuel : Nat) (anchors : List (List Char × Nat)) {ts : List Token}
  {kinds : List Token.Kind} {text : List Char} {style : Style}

/-- An entry is read: its key, then its value. -/
theorem readBlockEntries_entry {e : String × Value}
    (hvalue : Lexer.scalarKind e.2 = .scalar text style)
    (h : ts.map (·.kind) = entryKinds e ++ kinds) :
    ∃ n ts', IsEntryNode e n ∧ ts'.map (·.kind) = kinds ∧
      (readBlockEntries handles (fuel + 3)).run ⟨ts, anchors⟩
        = (do return n :: (← readBlockEntries handles (fuel + 2))).run ⟨ts', anchors⟩ := by
  rw [entryKinds, hvalue] at h
  -- The four tokens of the entry are taken off one by one.
  obtain ⟨⟨_, start₀, stop₀⟩, ts₀, rfl, rfl, h₀⟩ := List.map_eq_cons_iff.mp h
  obtain ⟨⟨_, start₁, stop₁⟩, ts₁, rfl, rfl, h₁⟩ := List.map_eq_cons_iff.mp h₀
  obtain ⟨⟨_, start₂, stop₂⟩, ts₂, rfl, rfl, h₂⟩ := List.map_eq_cons_iff.mp h₁
  obtain ⟨⟨_, start₃, stop₃⟩, ts₃, rfl, rfl, h₃⟩ := List.map_eq_cons_iff.mp h₂
  refine ⟨(.scalar (plainInfo start₁) (String.ofList e.1.toList) .plain,
    .scalar (plainInfo start₃) (String.ofList text) style), ts₃,
    ⟨⟨start₁, by rw [String.ofList_toList]⟩, start₃, text, style, hvalue, rfl⟩, h₃, ?_⟩
  rw [readBlockEntries]
  rfl

/-- The entries of a record are read, and so is what closes it. -/
theorem readBlockEntries_entries {es : List (String × Value)} (hes : ∀ e ∈ es, IsEntry e)
    (h : ts.map (·.kind) = es.flatMap entryKinds ++ .blockEnd :: kinds)
    (hfuel : es.length + 2 < fuel) :
    ∃ ns ts', List.Forall₂ IsEntryNode es ns ∧ ts'.map (·.kind) = kinds ∧
      (readBlockEntries handles fuel).run ⟨ts, anchors⟩ = .ok (ns, ⟨ts', anchors⟩) := by
  -- By induction on the entries, with the tokens and the fuel generalized.
  induction es generalizing ts fuel with
  | nil =>
    obtain ⟨⟨_, start, stop⟩, ts', rfl, rfl, hkinds⟩ := List.map_eq_cons_iff.mp h
    obtain ⟨fuel, rfl⟩ : ∃ f, fuel = f + 1 := ⟨fuel - 1, by omega⟩
    refine ⟨[], ts', .nil, hkinds, ?_⟩
    rw [readBlockEntries]
    rfl
  | cons e es ih =>
    obtain ⟨he, hes⟩ := List.forall_mem_cons.mp hes
    rw [List.length_cons] at hfuel
    obtain ⟨fuel, rfl⟩ : ∃ f, fuel = f + 3 := ⟨fuel - 3, by omega⟩
    obtain ⟨text, style, hvalue⟩ := scalarKind_eq he.value
    rw [List.flatMap_cons, List.append_assoc] at h
    obtain ⟨n, ts₁, hn, hkinds₁, hread₁⟩ := readBlockEntries_entry handles fuel anchors hvalue h
    obtain ⟨ns, ts', hns, hkinds, hread⟩ := ih (fuel + 2) hes hkinds₁ (by omega)
    refine ⟨n :: ns, ts', .cons hn hns, hkinds, ?_⟩
    rw [hread₁, StateT.run_bind, hread]
    rfl

/-- A mapping is read from its start. -/
theorem readNode_mapping (h : ts.map (·.kind) = .blockMappingStart :: kinds) :
    ∃ (m : Mark) (ts' : List Token), ts'.map (·.kind) = kinds ∧
      (readNode handles true false (fuel + 1)).run ⟨ts, anchors⟩
        = (do return Node.mapping (plainInfo m) (← readBlockEntries handles fuel)).run
          ⟨ts', anchors⟩ := by
  obtain ⟨⟨_, start, stop⟩, ts', rfl, rfl, hkinds⟩ := List.map_eq_cons_iff.mp h
  refine ⟨start, ts', hkinds, ?_⟩
  rw [readNode]
  rfl

/-- A list is read from its start. -/
theorem readNode_sequence (h : ts.map (·.kind) = .blockSequenceStart :: kinds) :
    ∃ (m : Mark) (ts' : List Token), ts'.map (·.kind) = kinds ∧
      (readNode handles true false (fuel + 1)).run ⟨ts, anchors⟩
        = (do return Node.sequence (plainInfo m) (← readBlockItems handles fuel)).run
          ⟨ts', anchors⟩ := by
  obtain ⟨⟨_, start, stop⟩, ts', rfl, rfl, hkinds⟩ := List.map_eq_cons_iff.mp h
  refine ⟨start, ts', hkinds, ?_⟩
  rw [readNode]
  rfl

/-- An item that is a mapping starts with its mark. -/
theorem readBlockItems_mapping
    (h : ts.map (·.kind) = .blockEntry :: .blockMappingStart :: kinds) :
    ∃ ts' : List Token, ts'.map (·.kind) = .blockMappingStart :: kinds ∧
      (readBlockItems handles (fuel + 1)).run ⟨ts, anchors⟩
        = (do
          let item ← readNode handles true false fuel
          return item :: (← readBlockItems handles fuel)).run ⟨ts', anchors⟩ := by
  obtain ⟨⟨_, start₀, stop₀⟩, ts₀, rfl, rfl, h₀⟩ := List.map_eq_cons_iff.mp h
  obtain ⟨⟨_, start₁, stop₁⟩, ts₁, rfl, rfl, h₁⟩ := List.map_eq_cons_iff.mp h₀
  refine ⟨_, h₀, ?_⟩
  rw [readBlockItems]
  rfl

/-- Every entry has four tokens. -/
theorem length_entryKinds (r : List (String × Value)) :
    (r.flatMap entryKinds).length = 4 * r.length := by
  induction r with
  | nil => rfl
  | cons e r ih =>
    rw [List.flatMap_cons, List.length_append, ih]
    simp [entryKinds]
    omega

/-- The list is read record by record. -/
theorem readBlockItems_records {rs : List (List (String × Value))}
    (hrs : ∀ r ∈ rs, ∀ e ∈ r, IsEntry e)
    (h : ts.map (·.kind) = (rs.flatMap fun r => recordKinds r ++ [.blockEnd]) ++ .blockEnd :: kinds)
    (hfuel : ts.length < fuel) :
    ∃ ns ts', List.Forall₂ IsRecordNode rs ns ∧ ts'.map (·.kind) = kinds ∧
      (readBlockItems handles fuel).run ⟨ts, anchors⟩ = .ok (ns, ⟨ts', anchors⟩) := by
  induction rs generalizing ts fuel with
  | nil =>
    obtain ⟨⟨_, start, stop⟩, ts', rfl, rfl, hkinds⟩ := List.map_eq_cons_iff.mp h
    obtain ⟨fuel, rfl⟩ : ∃ f, fuel = f + 1 := ⟨fuel - 1, by omega⟩
    refine ⟨[], ts', .nil, hkinds, ?_⟩
    rw [readBlockItems]
    rfl
  | cons r rs ih =>
    obtain ⟨hes, hrs'⟩ := List.forall_mem_cons.mp hrs
    rw [List.flatMap_cons, recordKinds] at h
    simp only [List.cons_append, List.append_assoc, List.nil_append] at h
    -- A record takes fewer calls than it has tokens, so the fuel lasts for the rest.
    have hlength := congrArg List.length h
    simp only [List.length_map, List.length_append, List.length_cons, length_entryKinds] at hlength
    obtain ⟨fuel, rfl⟩ : ∃ f, fuel = f + 2 := ⟨fuel - 2, by omega⟩
    obtain ⟨ts₁, h₁, hread₁⟩ := readBlockItems_mapping handles (fuel + 1) anchors h
    obtain ⟨m, ts₂, h₂, hread₂⟩ := readNode_mapping handles fuel anchors h₁
    obtain ⟨entries, ts₃, hentries, h₃, hread₃⟩ := readBlockEntries_entries handles
      fuel anchors hes h₂ (by omega)
    have hlength₃ := congrArg List.length h₃
    simp only [List.length_map, List.length_append, List.length_cons] at hlength₃
    obtain ⟨ns, ts', hns, hkinds, hread⟩ := ih (fuel + 1) hrs' h₃ (by omega)
    refine ⟨.mapping (plainInfo m) entries :: ns, ts', .cons ⟨m, entries, rfl, hentries⟩ hns,
      hkinds, ?_⟩
    rw [hread₁, StateT.run_bind, hread₂, StateT.run_bind, hread₃]
    exact congrArg (· >>= fun p => .ok (.mapping (plainInfo m) entries :: p.1, p.2)) hread

/-- What follows the content of a document without markers. -/
def finish (root : Node) : Read Document := do
  modify fun s => { s with tokens := s.tokens.dropWhile fun t => t.kind = .documentEnd }
  let t ← peek
  if t.kind = .streamEnd then return ⟨some root, root.mark⟩
  else problem "did not find the end of the document" t.start

/-- The tokens of a list of records are read as a sequence of mappings. -/
theorem readDocument_records {rs : List (List (String × Value))}
    (hrs : ∀ r ∈ rs, ∀ e ∈ r, IsEntry e) (h : ts.map (·.kind) = recordsKinds rs)
    (hfuel : ts.length < fuel) :
    ∃ m ns s, List.Forall₂ IsRecordNode rs ns ∧
      (readDocument (fuel + 1)).run ⟨ts, []⟩
        = .ok (⟨some (.sequence (plainInfo m) ns), m⟩, s) := by
  rw [recordsKinds, List.cons_append] at h
  obtain ⟨m, ts₁, h₁, hread₁⟩ := readNode_sequence standardHandles fuel [] h
  have hlength := congrArg List.length h
  have hlength₁ := congrArg List.length h₁
  simp only [List.length_map, List.length_cons] at hlength hlength₁
  obtain ⟨ns, ts', hns, hkinds, hread⟩ := readBlockItems_records standardHandles
    fuel [] hrs h₁ (by omega)
  obtain ⟨⟨_, start, stop⟩, ts₂, rfl, rfl, h₂⟩ := List.map_eq_cons_iff.mp h
  obtain ⟨⟨_, start', stop'⟩, ts₃, rfl, rfl, h₃⟩ := List.map_eq_cons_iff.mp hkinds
  -- The list is read up to the end of the stream.
  have hnode : (readNode standardHandles true false (fuel + 1)).run
        ⟨⟨.blockSequenceStart, start, stop⟩ :: ts₂, []⟩
      = .ok (.sequence (plainInfo m) ns, ⟨⟨.streamEnd, start', stop'⟩ :: ts₃, []⟩) := by
    rw [hread₁, StateT.run_bind, hread]
    rfl
  refine ⟨m, ns, ⟨⟨.streamEnd, start', stop'⟩ :: ts₃, []⟩, hns, ?_⟩
  have hdoc : (readDocument (fuel + 1)).run ⟨⟨.blockSequenceStart, start, stop⟩ :: ts₂, []⟩
      = (readNode standardHandles true false (fuel + 1)).run
          ⟨⟨.blockSequenceStart, start, stop⟩ :: ts₂, []⟩ >>= fun p => (finish p.1).run p.2 := by
    rw [readDocument]
    rfl
  rw [hdoc, hnode]
  rfl

end Reader

/-- No records are written as an empty list in brackets. -/
theorem documentOf_nil :
    documentOf (Printer.records [])
      = .ok ⟨some (.sequence (Reader.plainInfo .start) []), .start⟩ := by
  have htokens : tokensOf (Printer.records []) = .ok [⟨.flowSequenceStart, .start, ⟨1, 0, 1⟩⟩,
      ⟨.flowSequenceEnd, ⟨1, 0, 1⟩, ⟨2, 0, 2⟩⟩, ⟨.streamEnd, ⟨3, 1, 0⟩, ⟨3, 1, 0⟩⟩] := by decide
  rw [documentOf, htokens]
  rfl

/-- What is written for a list of records is read as a sequence of mappings. -/
theorem documentOf_records {rs : List (List (String × Value))}
    (hrs : ∀ r ∈ rs, r ≠ [] ∧ ∀ e ∈ r, IsEntry e) :
    ∃ m ns, documentOf (Printer.records rs)
        = .ok ⟨some (.sequence (Reader.plainInfo m) ns), m⟩ ∧
      List.Forall₂ Reader.IsRecordNode rs ns := by
  -- Without records, the list is written in brackets.
  by_cases hne : rs = []
  · subst hne
    exact ⟨.start, [], documentOf_nil, .nil⟩
  obtain ⟨tokens, htokens, hkinds⟩ := tokensOf_records hne hrs
  obtain ⟨m, ns, s, hns, hread⟩ := Reader.readDocument_records
    (4 * tokens.length + 15) (fun r hr => (hrs r hr).2) hkinds (by omega)
  refine ⟨m, ns, ?_, hns⟩
  rw [documentOf, htokens]
  exact congrArg (Except.map Prod.fst) hread

end Promotion.Yaml
