import Mathlib.Tactic.Common
import Promotion.Config.Document
import Promotion.Proofs.Except
import Promotion.Proofs.Path.Above
import Promotion.Proofs.Text.Utf8

/-!
# `Promotion.Proofs.Config.Layout`: where the names of a configuration lead

The descriptor and the payload of a bundle lie in its root under the names that
the configuration gives them. A configuration is accepted when each name has a
character and no separator. That makes it a single piece of a path, whatever
characters it is made of; and two of the pieces are no names of entries.

* `Path.isEntryOf_iff`: an entry of a directory, by its parent and its file name
  or by its components.
* `leadsFrom_join`: where a single piece leads from a directory.
* `Config.layout_leads`: so both paths of a bundle are entries of its root unless
  the configuration says `.` or `..`.
* `Config.not_forall_layout_isEntryOf`: a configuration that says `..` is
  accepted.

Names are checked character by character and paths are read byte by byte. That
no byte of another character looks like a separator is
`Text.mem_toList_of_mem_bytesOf`.
-/

set_option autoImplicit false

namespace Promotion

open Promotion.Text (Bytes bytesOf)

namespace Path

variable {p root : Path} {name : Name}

/-! ### Entries of a directory -/

/-- The path of the entry `name` of the directory `root`: `root` is its parent, and
`name` is its file name. -/
structure IsEntryOf (p root : Path) (name : Name) : Prop where
  parent : ∃ parent, p.parent? = some parent ∧ parent.same root = true
  fileName : p.fileName? = some name

/-- An entry of a directory has one component more, its name. -/
theorem isEntryOf_iff : p.IsEntryOf root name ↔ p.components = root.components ++ [.name name] := by
  constructor
  · rintro ⟨⟨parent, hparent, hsame⟩, hname⟩
    obtain ⟨k, hk, hcomponents⟩ := parent?_of_fileName? hname
    obtain rfl : ⟨p.bytes.take k⟩ = parent := Option.some.inj (hk.symm.trans hparent)
    rw [hcomponents, beq_iff_eq.mp hsame]
  · intro h
    have hname := fileName?_of_components h
    obtain ⟨k, hk, hcomponents⟩ := parent?_of_fileName? hname
    have hsame : components ⟨p.bytes.take k⟩ = root.components :=
      List.append_cancel_right (hcomponents.symm.trans h)
    exact ⟨⟨_, hk, beq_iff_eq.mpr hsame⟩, hname⟩

/-- An entry of a directory is below it. -/
theorem IsEntryOf.below (h : p.IsEntryOf root name) :
    p.startsWith root = true ∧ p.same root = false ∧ root.startsWith p = false := by
  have hcomponents := isEntryOf_iff.mp h
  -- The components of the directory are a proper prefix of those of the entry.
  have hlonger : root.components.length < p.components.length := by simp [hcomponents]
  refine ⟨?_, ?_, ?_⟩
  · rw [startsWith, hcomponents, List.isPrefixOf_iff_prefix]
    exact List.prefix_append _ _
  · rw [same, beq_eq_false_iff_ne]
    intro heq
    rw [heq] at hlonger
    omega
  · rw [startsWith, Bool.eq_false_iff, Ne, List.isPrefixOf_iff_prefix]
    intro hprefix
    have hle := hprefix.length_le
    omega

/-- The file name of a path is neither `.` nor `..`. -/
theorem IsEntryOf.plain (h : p.IsEntryOf root name) : PlainName name := by
  obtain ⟨hnil, hhere, hup, -, hseparator⟩ :=
    of_mem_bareSteps (name_mem_bareSteps_of_fileName? h.fileName)
  exact ⟨hnil, hhere, hup, hseparator⟩

end Path

/-! ### Single pieces -/

variable {root p : Path} {name : String}

/-- Where a name leads from the directory `root`. -/
structure LeadsFrom (root : Path) (name : String) (p : Path) : Prop where
  /-- All names but two are those of entries. -/
  isEntryOf_iff : p.IsEntryOf root (bytesOf name) ↔ name ≠ "." ∧ name ≠ ".."
  /-- An entry is neither the directory itself nor above it. -/
  below : name ≠ "." → name ≠ ".." →
    p.startsWith root = true ∧ p.same root = false ∧ root.startsWith p = false
  /-- A `.` stays in the directory, the current one if it has no path. -/
  here : name = "." → p.components = if root.isEmpty then [.here] else root.components
  /-- A `..` leads out of it. -/
  up : name = ".." → p.components = root.components ++ [.up]

/-- A plain name is not empty and has no slash. -/
theorem bytesOf_of_isPlainName (h : BundleSettings.isPlainName name = true) :
    bytesOf name ≠ [] ∧ Path.separator ∉ bytesOf name := by
  rw [BundleSettings.isPlainName, Bool.and_eq_true, Bool.not_eq_true', Bool.not_eq_true',
    List.any_eq_false] at h
  obtain ⟨hempty, hchars⟩ := h
  constructor
  · intro hnil
    rw [Text.bytesOf_injective (hnil.trans (show [] = bytesOf "" from rfl))] at hempty
    cases hempty
  · -- A slash among the bytes is a slash in the text.
    intro hmem
    have hslash : '/' ∈ name.toList := Text.mem_toList_of_mem_bytesOf hmem (by decide)
    exact hchars '/' hslash (by simp)

/-- A name of at least one character and without separators leads to an entry of
the directory, unless it is one of the two that every directory has. -/
theorem leadsFrom_join (h : BundleSettings.isPlainName name = true) (root : Path) :
    LeadsFrom root name (root.join (.ofString name)) := by
  obtain ⟨hnil, hseparator⟩ := bytesOf_of_isPlainName h
  have hdot : bytesOf name = [Path.dot] ↔ name = "." :=
    Text.bytesOf_injective.eq_iff (b := ".")
  have hdots : bytesOf name = [Path.dot, Path.dot] ↔ name = ".." :=
    Text.bytesOf_injective.eq_iff (b := "..")
  -- The path that is joined is a child of the root, whatever the piece stands for.
  have hchild := Path.components_child_piece (p := root) hseparator
  have hentry : name ≠ "." → name ≠ ".." →
      (root.join (.ofString name)).IsEntryOf root (bytesOf name) := by
    intro hhere hup
    have hplain : Path.PlainName (bytesOf name) := ⟨hnil, hdot.not.mpr hhere, hdots.not.mpr hup,
      hseparator⟩
    exact Path.isEntryOf_iff.mpr (Path.components_child hplain)
  constructor
  case isEntryOf_iff =>
    constructor
    · -- The file name of a path is plain, and here it is the whole piece.
      intro hentry
      exact ⟨hdot.not.mp hentry.plain.ne_here, hdots.not.mp hentry.plain.ne_up⟩
    · rintro ⟨hhere, hup⟩
      exact hentry hhere hup
  case below => exact fun hhere hup => (hentry hhere hup).below
  case here =>
    rintro rfl
    show (root.child (bytesOf ".")).components = _
    rw [hchild]
    split
    · rfl
    · exact List.append_nil _
  case up =>
    rintro rfl
    show (root.child (bytesOf "..")).components = _
    rw [hchild]
    split
    next hempty =>
      obtain ⟨bytes⟩ := root
      obtain rfl : bytes = [] := List.isEmpty_iff.mp hempty
      rfl
    · rfl

/-! ### Accepted configurations -/

namespace Config

variable {text : String} {origin : Path} {config : Config}

/-- A name that passes the check is plain. -/
theorem isPlainName_of_checkName {field : String} (h : BundleSettings.checkName field name = .ok ()) :
    BundleSettings.isPlainName name = true := by
  unfold BundleSettings.checkName at h
  split at h
  · assumption
  · cases h

/-- Both names of settings that pass the check are plain. -/
theorem isPlainName_of_check {settings : BundleSettings} (h : settings.check = .ok ()) :
    BundleSettings.isPlainName settings.descriptor = true ∧
      BundleSettings.isPlainName settings.payload = true := by
  obtain ⟨⟨⟩, hdescriptor, h⟩ := bind_eq_ok_iff.mp h
  obtain ⟨⟨⟩, hpayload, -⟩ := bind_eq_ok_iff.mp h
  exact ⟨isPlainName_of_checkName hdescriptor, isPlainName_of_checkName hpayload⟩

/-- A configuration that was read has passed the check. -/
theorem check_of_ofYaml (h : ofYaml text origin = .ok config) : config.bundle.check = .ok () := by
  unfold ofYaml at h
  split at h
  · cases h
  · obtain ⟨⟨⟩, hcheck, rfl⟩ := map_eq_ok_iff.mp h
    exact hcheck

/-- Wherever the root of a bundle is, its descriptor and its payload are entries of
it, with the very names that an accepted configuration gives them, unless such a
name is `.` or `..`. -/
theorem layout_leads (h : ofYaml text origin = .ok config) (root : Path) (base : String) :
    LeadsFrom root config.bundle.descriptor
        (Bundle.ofRoot root base config.bundle.layout).descriptor ∧
      LeadsFrom root config.bundle.payload (Bundle.ofRoot root base config.bundle.layout).payload :=
  have hplain := isPlainName_of_check (check_of_ofYaml h)
  ⟨leadsFrom_join hplain.1 root, leadsFrom_join hplain.2 root⟩

/-- Two other names, which lead to entries of the directory `project`. -/
theorem layout_leads_project :
    ofYaml "bundle:\n  descriptor: module.json\n  payload: out\n" (.ofString "promoter.yaml")
      = .ok { bundle := { descriptor := "module.json", payload := "out" } } ∧
    LeadsFrom (.ofString "project") "module.json" (.ofString "project/module.json") ∧
    LeadsFrom (.ofString "project") "out" (.ofString "project/out") := by
  have h : ofYaml "bundle:\n  descriptor: module.json\n  payload: out\n" (.ofString "promoter.yaml")
      = .ok { bundle := { descriptor := "module.json", payload := "out" } } :=
    eq_ok_of_toOption (by decide +kernel)
  exact ⟨h, layout_leads h (.ofString "project") "project"⟩

/-- A configuration with the payload `..` is accepted, and the payload of a bundle
is then the directory that its root is in. -/
theorem not_forall_layout_isEntryOf :
    ¬ ∀ (text : String) (origin : Path) (config : Config), ofYaml text origin = .ok config →
      ∀ (root : Path) (base : String),
        let bundle := Bundle.ofRoot root base config.bundle.layout
        bundle.descriptor.IsEntryOf root (bytesOf config.bundle.descriptor) ∧
          bundle.payload.IsEntryOf root (bytesOf config.bundle.payload) := by
  intro hall
  have h : ofYaml "bundle:\n  payload: ..\n" (.ofString "promoter.yaml")
      = .ok { bundle := { payload := ".." } } := eq_ok_of_toOption (by decide +kernel)
  obtain ⟨-, hpayload⟩ := hall _ _ _ h (.ofString "project") "project"
  -- A path that ends in two dots has no name.
  have hname : Path.fileName? (.ofString "project/..") = none := by decide
  cases hname.symm.trans hpayload.fileName

end Config

end Promotion
