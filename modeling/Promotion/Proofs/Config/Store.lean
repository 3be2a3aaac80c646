import Promotion.Config.Store
import Promotion.Proofs.Except
import Promotion.Proofs.Session

/-!
# `Promotion.Proofs.Config.Store`: the configuration that a workspace has

Reading the configuration leaves the file system as it is and depends on nothing
else (`contentOf`). The strategy it comes to is read off the document in the
configuration file without its reader: it is the one that the entry `strategy` names,
and the standard one where no such entry or no such file is (`Settles`).

* `readEntries_strategy`: reading the entries one by one finds what the first entry
  `strategy` names.
* `settles_of_contentOf`: so the strategy of the configuration is the one that the
  workspace settles.
* `load_eq_ok`, `load_eq_error`: how reading ends.
-/

set_option autoImplicit false

namespace Promotion

namespace Yaml

/-- The text of a scalar. -/
def Node.text? : Node → Option String
  | scalar _ text _ => some text
  | _ => none

/-- The entries of a document that is a mapping. -/
def Document.rootEntries (d : Document) : List (Node × Node) :=
  match d.root.map (Typed.target d) with
  | some (.mapping _ entries) => entries
  | _ => []

/-- The first value among entries whose key is a text. -/
def Document.valueOf? (d : Document) (key : String) (entries : List (Node × Node)) :
    Option Node :=
  (entries.find? fun e => (Typed.target d e.1).text? = some key).map (·.2)

/-- What a node names: the document's own tag on it, or else its text. -/
def Document.name? (d : Document) (n : Node) : Option String :=
  ((Typed.target d n).info?.bind fun info => ownTag? info.tag).or (Typed.target d n).text?

namespace Typed

variable {d : Document} {path known : List String} {n : Node}

/-- A text that is read is that of the node. -/
theorem text_eq_ok {expected text : String} (h : Typed.text d path expected n = .ok text) :
    (target d n).text? = some text := by
  unfold Typed.text at h
  split at h
  next htarget =>
    cases h
    rw [htarget, Node.text?]
  · cases h

/-- The name of a choice is the text of the node, or of the only key of it. -/
theorem name?_of_choiceName {name : String} {tagged : Bool}
    (h : choiceName path (target d n) = .ok (name, tagged)) : d.name? n = some name := by
  unfold choiceName at h
  split at h
  next htag =>
    cases h
    rw [Document.name?, htag, Option.some_or]
  next htag htarget =>
    cases h
    rw [Document.name?, htag, htarget, Option.none_or, Node.text?]
  · cases h

/-- What is chosen is what the node names. -/
theorem choice_eq_ok {α : Type} {find? : String → Option α} {a : α}
    (h : choice d path known find? n = .ok a) :
    ∃ name, d.name? n = some name ∧ find? name = some a := by
  simp only [choice] at h
  split at h
  · cases h
  next name tagged hname =>
  refine ⟨name, name?_of_choiceName hname, ?_⟩
  split at h
  · cases h
  next a' hfind =>
  -- After a tag nothing must follow, which does not change what is chosen.
  split at h
  · obtain ⟨_, -, rfl⟩ := map_eq_ok_iff.mp h
    exact hfind
  · cases h
    exact hfind

/-- The entries that are read of the root are those of the document. -/
theorem rootEntries_of_entries {expected : String} {entries : List (Node × Node)}
    (hroot : d.root = some n) (h : Typed.entries d path expected n = .ok entries) :
    d.rootEntries = entries := by
  unfold Typed.entries at h
  rw [Document.rootEntries, hroot, Option.map_some]
  split at h
  next htarget =>
    cases h
    rw [htarget]
  next htarget =>
    -- An empty text stands for a mapping without entries.
    split at h
    · cases h
      rw [htarget]
    · cases h
  · cases h

end Typed

end Yaml

namespace Config

open Yaml (Document Node Typed.target documentOf)

/-! ### The strategy of a document -/

/-- What a document says of the strategy. -/
inductive Names (d : Document) : Strategy → Prop
  /-- It has no such entry, so the strategy is the standard one. -/
  | standard (h : d.valueOf? "strategy" d.rootEntries = none) : Names d .skipOldVersions
  /-- It has one, and that gives the strategy its name. -/
  | entry {strategy : Strategy} {n : Node} (h : d.valueOf? "strategy" d.rootEntries = some n)
      (hname : d.name? n = some strategy.name) : Names d strategy

variable {d : Document} {c c' : Draft} {path known : List String} {mark : Yaml.Mark}
  {key : String} {v : Node} {entries : List (Node × Node)}

/-- The first entry `strategy` gives the strategy it names. -/
theorem readEntry_strategy (h : readEntry d c path "strategy" v = .ok (some c')) :
    c.strategy = none ∧
      ∃ strategy, c'.strategy = some strategy ∧ d.name? v = some strategy.name := by
  rw [readEntry, if_pos rfl] at h
  split at h
  · cases h
  next hnone =>
    obtain ⟨strategy, hchoice, hdraft⟩ := map_eq_ok_iff.mp h
    cases hdraft
    obtain ⟨name, hname, hfind⟩ := Yaml.Typed.choice_eq_ok hchoice
    have hstrategy : strategy.name = name := by simpa using List.find?_some hfind
    exact ⟨by simpa using hnone, strategy, rfl, hstrategy ▸ hname⟩

/-- The other entries leave the strategy as it is. -/
theorem readEntry_keeps_strategy (hkey : key ≠ "strategy")
    (h : readEntry d c path key v = .ok (some c')) : c'.strategy = c.strategy := by
  rw [readEntry, if_neg hkey] at h
  split at h
  · cases h
  · obtain ⟨settings, -, hdraft⟩ := map_eq_ok_iff.mp h
    cases hdraft
    rfl

/-- Reading all entries gives the strategy that was read before, or else the one that
the first entry `strategy` names. -/
theorem readEntries_strategy
    (h : Yaml.Typed.readEntries d path known mark (readEntry d) c entries = .ok c') :
    c'.strategy.map (fun strategy => some strategy.name)
      = (c.strategy.map fun strategy => some strategy.name).or
        ((d.valueOf? "strategy" entries).map d.name?) := by
  -- By induction on the entries: the one with the key is read, and all others keep the strategy.
  induction entries generalizing c with
  | nil =>
    cases h
    simp [Document.valueOf?]
  | cons e entries ih =>
    obtain ⟨k, v⟩ := e
    rw [Yaml.Typed.readEntries] at h
    split at h
    · cases h
    next key hkey =>
    have htext := Yaml.Typed.text_eq_ok hkey
    split at h
    · split at h
      · cases h
      · cases h
      next draft hread =>
        rw [ih h]
        by_cases hstrategy : key = "strategy"
        · subst hstrategy
          obtain ⟨hnone, strategy, hsome, hname⟩ := readEntry_strategy hread
          simp [Document.valueOf?, htext, hnone, hsome, hname]
        · rw [readEntry_keeps_strategy hstrategy hread]
          simp [Document.valueOf?, htext, hstrategy]
    · cases h

/-- The strategy of a configuration is what its document says. -/
theorem names_of_ofDocument {config : Config} (h : ofDocument d = .ok config) :
    Names d config.strategy := by
  unfold ofDocument at h
  split at h
  next hroot =>
    cases h
    exact .standard (by simp [Document.valueOf?, Document.rootEntries, hroot])
  next root hroot =>
    obtain ⟨draft, hdraft, rfl⟩ := map_eq_ok_iff.mp h
    unfold Yaml.Typed.record at hdraft
    split at hdraft
    · cases hdraft
    next entries hentries =>
    have hread := readEntries_strategy hdraft
    rw [← Yaml.Typed.rootEntries_of_entries hroot hentries] at hread
    -- The draft has a strategy when there is an entry for it.
    cases hstrategy : draft.strategy with
    | none =>
      rw [hstrategy] at hread
      exact .standard (by simpa using hread.symm)
    | some strategy =>
      rw [hstrategy] at hread
      obtain ⟨n, hvalue, hname⟩ := Option.map_eq_some_iff.mp
        (show (d.valueOf? "strategy" d.rootEntries).map d.name? = some (some strategy.name) by
          simpa using hread.symm)
      exact .entry hvalue hname

/-! ### The configuration of a workspace -/

/-- What a workspace settles as the strategy of the reviews in it. -/
inductive Settles (t : FileTree) (workspace : Path) : Strategy → Prop
  /-- Without a configuration file it is the standard one. -/
  | absent (hfile : t.isFile (workspace.join (.ofString fileName)) = false) :
    Settles t workspace .skipOldVersions
  /-- Otherwise the document in the file says it. -/
  | stated {text : String} {d : Document} {strategy : Strategy}
    (hfile : t.isFile (workspace.join (.ofString fileName)) = true)
    (htext : t.readText (workspace.join (.ofString fileName)) = .ok text)
    (hd : documentOf text.toList = .ok d) (hnames : Names d strategy) :
    Settles t workspace strategy

/-- The configuration of a workspace, as its files say it. -/
def contentOf (t : FileTree) (workspace : Path) : Except Failure Config :=
  let path := workspace.join (.ofString fileName)
  if t.isFile path then
    match t.readText path with
    | .error fault => .error (.configReadFailed path fault.message)
    | .ok text => ofYaml text path
  else .ok {}

variable {s s' : Session} {e : Failure} {workspace : Path} {config : Config} {t : FileTree}

/-- The configuration of a text is that of its document. -/
theorem ofDocument_of_ofYaml {text : String} {origin : Path} (h : ofYaml text origin = .ok config) :
    ∃ d, documentOf text.toList = .ok d ∧ ofDocument d = .ok config := by
  unfold ofYaml at h
  split at h
  · cases h
  next config' hread =>
  obtain ⟨_, -, rfl⟩ := map_eq_ok_iff.mp h
  -- A text with an error is refused, and the settings are checked last.
  unfold read at hread
  split at hread
  · cases hread
  next d hd =>
  split at hread
  next hdocument =>
    cases hread
    exact ⟨d, hd, hdocument⟩
  · split at hread <;> cases hread

/-- The strategy of the configuration is the one that the workspace settles. -/
theorem settles_of_contentOf (h : contentOf t workspace = .ok config) :
    Settles t workspace config.strategy := by
  simp only [contentOf] at h
  split at h
  -- A file that is there has to be read, and what it says is what its document says.
  next hfile =>
    split at h
    · cases h
    next text htext =>
      obtain ⟨d, hd, hdocument⟩ := ofDocument_of_ofYaml h
      exact .stated hfile htext hd (names_of_ofDocument hdocument)
  next hfile =>
    cases h
    exact .absent (eq_false_of_ne_true hfile)

/-- A workspace without a configuration file has the standard configuration. -/
theorem contentOf_of_isFile (hfile : t.isFile (workspace.join (.ofString fileName)) = false) :
    contentOf t workspace = .ok {} := by
  simp only [contentOf, hfile, Bool.false_eq_true, if_false]

/-- A configuration that was read is the one that the files say, and they are as
before. -/
theorem load_eq_ok (h : (load workspace).run s = .ok config s') :
    contentOf s.tree workspace = .ok config ∧ s'.tree = s.tree := by
  rw [load, Action.run_tree_bind] at h
  simp only [contentOf]
  split at h
  next hnone =>
    rw [Action.run_tell_bind] at h
    obtain ⟨rfl, rfl⟩ := Action.pure_eq_ok_iff.mp h
    rw [if_neg (by simpa using hnone)]
    exact ⟨rfl, rfl⟩
  -- With a file, loading is reading it and the document in it.
  next hsome =>
    obtain ⟨⟨text, htext, hconfig⟩, rfl⟩ := Action.document_eq_ok_iff.mp h
    rw [if_pos (by simpa using hsome), htext]
    exact ⟨hconfig, rfl⟩

/-- Where reading fails, the files say why, and they are as before. -/
theorem load_eq_error (h : (load workspace).run s = .error e s') :
    contentOf s.tree workspace = .error e ∧ s'.tree = s.tree := by
  rw [load, Action.run_tree_bind] at h
  simp only [contentOf]
  split at h
  next => cases h
  next hsome =>
    rw [if_pos (by simpa using hsome)]
    -- The file cannot be read, or its text is refused.
    obtain ⟨⟨fault, hfault, rfl⟩ | ⟨text, htext, hconfig⟩, rfl⟩ :=
      Action.document_eq_error_iff.mp h
    · rw [hfault]
      exact ⟨rfl, rfl⟩
    · rw [htext]
      exact ⟨hconfig, rfl⟩

/-- A configuration that the files say is read. -/
theorem exists_load (h : contentOf s.tree workspace = .ok config) :
    ∃ s', (load workspace).run s = .ok config s' ∧ s'.tree = s.tree := by
  cases hrun : (load workspace).run s with
  | ok config' s' =>
    obtain ⟨hconfig, htree⟩ := load_eq_ok hrun
    cases h.symm.trans hconfig
    exact ⟨s', rfl, htree⟩
  | error e s' => cases h.symm.trans (load_eq_error hrun).1

end Config

end Promotion
