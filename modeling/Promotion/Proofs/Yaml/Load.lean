import Mathlib.Data.List.Forall2
import Promotion.Proofs.Document.Loaded
import Promotion.Proofs.Yaml.Reader
import Promotion.Yaml.Load

/-!
# `Promotion.Proofs.Yaml.Load`: records are read back

A plain scalar is written for a text only where it reads as that text, and every
other style reads as a text whatever it holds. So the scalars of a document that
was written load as what was written, and with them its entries and records.

* `read_records`: a list of records is read back from what is written for it.
-/

set_option autoImplicit false

namespace Promotion.Yaml

open Printer

/-! ### Scalars -/

/-- A scalar that reads as a text reads as its own. -/
theorem eq_of_resolve?_text {s t : String} (h : resolve? s = some (.text t)) : t = s := by
  cases means_of_resolve? h
  rfl

/-- A text that may be written plainly reads as a text. -/
theorem resolve?_of_isAmbiguous {s : String} (h : isAmbiguous s = false) :
    resolve? s = some (.text s) := by
  unfold isAmbiguous at h
  split at h
  next t hresolve => rw [hresolve, eq_of_resolve?_text hresolve]
  next => cases h

namespace Load

variable {α β : Type} {document : Document} {d k : Nat} {v : Value} {m : Mark}

/-- A scalar loads as the value it was written for. -/
theorem scalarValue_leaf {text : List Char} {style : Style} (hv : Lexer.Leaf v)
    (h : Lexer.scalarKind v = .scalar text style) :
    scalarValue (Reader.plainInfo m) (String.ofList text) style = some v := by
  cases hv with
  | bool b =>
    cases h
    cases b <;> rfl
  | text s =>
    cases h
    rw [String.ofList_toList]
    -- A plain text is one that would be read as nothing else; in quotes or in a block any text is
    -- itself.
    cases hstyle : styleOf s with
    | plain =>
      have hresolve := resolve?_of_isAmbiguous (plain_of_styleOf hstyle).2
      simp [scalarValue, Reader.plainInfo, ownTag?, Scalar.read, Scalar.readPlain, hresolve]
    | _ => rfl

/-- A scalar is loaded as its value, at any depth. -/
theorem run_load_scalar {text : String} {style : Style} {info : Info}
    (h : scalarValue info text style = some v) :
    (load document d (.scalar info text style)).run k = some (v, k) := by
  cases d with
  | zero =>
    rw [load_zero]
    exact congrArg (Option.bind · fun v => some (v, k)) h
  | succ d =>
    rw [load_succ]
    exact congrArg (Option.bind · fun v => some (v, k)) h

/-! ### Collections -/

/-- What loads one by one loads as a list. -/
theorem run_mapM {f : β → Loader α} {xs : List β} {as : List α}
    (h : List.Forall₂ (fun a x => (f x).run k = some (a, k)) as xs) :
    (xs.mapM f).run k = some (as, k) := by
  induction h with
  | nil => rfl
  | cons hx _ ih =>
    rw [List.mapM_cons, StateT.run_bind, hx]
    exact congrArg (Option.bind · _) ih

/-- The entries of a record as those of a mapping. -/
def entriesOf (r : List (String × Value)) : List (Value × Value) := r.map fun e => (.text e.1, e.2)

/-- Keys that differ as texts differ as values. -/
theorem distinct_entriesOf {r : List (String × Value)} (h : (r.map (·.1)).Nodup) :
    mapping?.distinct (entriesOf r) = true := by
  induction r with
  | nil => rfl
  | cons e r ih =>
    rw [List.map_cons, List.nodup_cons] at h
    -- The key of the first entry is none of the others.
    have hother : ∀ e' ∈ r, (Value.text e.1).same (.text e'.1) = false := by
      intro e' he'
      rw [Value.same, beq_eq_false_iff_ne]
      exact fun heq => h.1 (heq ▸ List.mem_map_of_mem he')
    have hnone : (entriesOf r).any (fun e' => (Value.text e.1).same e'.1) = false := by
      simpa [entriesOf, List.any_eq_false] using hother
    have hrest := ih h.2
    rw [entriesOf, List.map_cons, mapping?.distinct]
    rw [entriesOf] at hnone hrest
    rw [hnone, hrest]
    rfl

/-- A record that is read back: its keys are words of their own that stand for
nothing else. -/
structure IsRecord (r : List (String × Value)) : Prop where
  nonempty : r ≠ []
  entries : ∀ e ∈ r, IsEntry e
  keys : ∀ e ∈ r, isAmbiguous e.1 = false
  nodup : (r.map (·.1)).Nodup

/-- Loading an entry: its key, then its value. -/
def loadEntry (document : Document) (depth : Nat) (n : Node × Node) : Loader (Value × Value) := do
  return (← load document depth n.1, ← load document depth n.2)

/-- An entry is loaded when its key and its value are. -/
theorem run_loadEntry_of_run {n : Node × Node} {e : Value × Value}
    (hkey : (load document d n.1).run k = some (e.1, k))
    (hvalue : (load document d n.2).run k = some (e.2, k)) :
    (loadEntry document d n).run k = some (e, k) := by
  rw [loadEntry, StateT.run_bind, hkey, Option.bind_eq_bind, Option.bind_some, StateT.run_bind,
    hvalue]
  rfl

/-- A word that stands for nothing else loads as itself. -/
theorem scalarValue_word {s : String} (h : isAmbiguous s = false) :
    scalarValue (Reader.plainInfo m) s .plain = some (.text s) := by
  simp [scalarValue, Reader.plainInfo, ownTag?, Scalar.read, Scalar.readPlain,
    resolve?_of_isAmbiguous h]

/-- The nodes of an entry are loaded as the entry. -/
theorem run_loadEntry {e : String × Value} {n : Node × Node} (he : IsEntry e)
    (hkey : isAmbiguous e.1 = false) (hn : Reader.IsEntryNode e n) :
    (loadEntry document d n).run k = some ((.text e.1, e.2), k) := by
  obtain ⟨key, value⟩ := n
  obtain ⟨⟨m, rfl⟩, m', text, style, hkind, rfl⟩ := hn
  exact run_loadEntry_of_run (run_load_scalar (scalarValue_word hkey))
    (run_load_scalar (scalarValue_leaf he.value hkind))

/-- A mapping of entries that load loads as them, unless two have the same key. -/
theorem run_load_mapping {ns : List (Node × Node)} {es : List (Value × Value)}
    (hns : List.Forall₂ (fun e n => (loadEntry document d n).run k = some (e, k)) es ns)
    (hdistinct : mapping?.distinct es = true) :
    (load document (d + 1) (.mapping (Reader.plainInfo m) ns)).run k = some (.map es, k) := by
  have hload : load document (d + 1) (.mapping (Reader.plainInfo m) ns)
      = (ns.mapM (loadEntry document d) >>= fun loaded =>
          withTag (Reader.plainInfo m) <$> (mapping? loaded : Loader Value)) := by
    rw [load_succ]
    rfl
  -- With keys that differ, the entries make up a mapping.
  have hmapping : mapping? es = some (.map es) := if_pos hdistinct
  rw [hload, StateT.run_bind, run_mapM hns, Option.bind_eq_bind, Option.bind_some, hmapping]
  rfl

/-- A sequence of items that load loads as them. -/
theorem run_load_sequence {ns : List Node} {vs : List Value}
    (hns : List.Forall₂ (fun v n => (load document d n).run k = some (v, k)) vs ns) :
    (load document (d + 1) (.sequence (Reader.plainInfo m) ns)).run k = some (.list vs, k) := by
  have hload : load document (d + 1) (.sequence (Reader.plainInfo m) ns)
      = (ns.mapM (load document d) >>= fun items =>
          return withTag (Reader.plainInfo m) (.list items)) := by
    rw [load_succ]
    rfl
  rw [hload, StateT.run_bind, run_mapM hns]
  rfl

/-- A record loads as a mapping of its entries. -/
theorem run_load_record {r : List (String × Value)} {n : Node} (hr : IsRecord r)
    (hn : Reader.IsRecordNode r n) :
    (load document (d + 1) n).run k = some (.map (entriesOf r), k) := by
  obtain ⟨m, ns, rfl, hns⟩ := hn
  refine run_load_mapping (List.forall₂_map_left_iff.mpr ?_) (distinct_entriesOf hr.nodup)
  have hentries := (List.forall₂_and_left r ns).mpr
    ⟨fun e he => And.intro (hr.entries e he) (hr.keys e he), hns⟩
  exact hentries.imp fun e n h => run_loadEntry h.1.1 h.1.2 h.2

/-- Records load as a list of mappings. -/
theorem run_load_records {rs : List (List (String × Value))} {ns : List Node}
    (hrs : ∀ r ∈ rs, IsRecord r) (hns : List.Forall₂ Reader.IsRecordNode rs ns) :
    (load document (d + 2) (.sequence (Reader.plainInfo m) ns)).run k
      = some (.list (rs.map fun r => .map (entriesOf r)), k) := by
  refine run_load_sequence (List.forall₂_map_left_iff.mpr ?_)
  have hrecords := (List.forall₂_and_left rs ns).mpr ⟨hrs, hns⟩
  exact hrecords.imp fun r n h => run_load_record h.1 h.2

end Load

/-- A list of records is read back from what is written for it. -/
theorem read_records {rs : List (List (String × Value))} (hrs : ∀ r ∈ rs, Load.IsRecord r) :
    read (records rs) = .ok (.list (rs.map fun r => .map (Load.entriesOf r))) := by
  obtain ⟨m, ns, hdocument, hns⟩ := documentOf_records
    fun r hr => ⟨(hrs r hr).nonempty, (hrs r hr).entries⟩
  have hvalue : Document.value? ⟨some (.sequence (Reader.plainInfo m) ns), m⟩
      = some (.list (rs.map fun r => .map (Load.entriesOf r))) := by
    rw [Document.value?]
    exact congrArg (Option.map Prod.fst) (Load.run_load_records (d := 126) hrs hns)
  rw [read, hdocument]
  simp only [hvalue]

end Promotion.Yaml
