import Promotion.Manifest.Store
import Promotion.Proofs.FileTree.Write
import Promotion.Proofs.Manifest.Document
import Promotion.Proofs.Session
import Promotion.Proofs.Text.Utf8

/-!
# `Promotion.Proofs.Manifest.Store`: manifests in files

Reading a manifest leaves the file system as it is and depends on nothing else
(`contentOf`). Writing one can fail in one way only, and what was written is what
is read afterwards, whatever the name of the file makes its format.

* `load_eq_ok`, `load_eq_error`: how reading ends.
* `save_eq_ok`, `save_eq_error`: how writing ends.
-/

set_option autoImplicit false

namespace Promotion.Manifest

variable {s s' : Session} {e : Failure} {path : Path} {packages : List Package}

/-- What a manifest file holds. -/
def contentOf (t : FileTree) (path : Path) : Except Failure (List Package) :=
  match t.readText path with
  | .error fault => .error (.manifestReadFailed path fault.message)
  | .ok text => (read (formatOf path) text).mapError (.manifestParseFailed path)

/-- Packages that are loaded are the content of the file, and nothing changes. -/
theorem load_eq_ok (h : (load path).run s = .ok packages s') :
    contentOf s.tree path = .ok packages ∧ s'.tree = s.tree := by
  obtain ⟨⟨text, htext, hpackages⟩, rfl⟩ := Action.document_eq_ok_iff.mp h
  rw [contentOf, htext]
  exact ⟨hpackages, rfl⟩

/-- What fails to load has no content that can be read, and nothing changes. -/
theorem load_eq_error (h : (load path).run s = .error e s') :
    contentOf s.tree path = .error e ∧ s'.tree = s.tree := by
  obtain ⟨⟨fault, hfault, rfl⟩ | ⟨text, htext, hpackages⟩, rfl⟩ :=
    Action.document_eq_error_iff.mp h
  · rw [contentOf, hfault]
    exact ⟨rfl, rfl⟩
  · rw [contentOf, htext]
    exact ⟨hpackages, rfl⟩

/-- A file with packages in it is loaded. -/
theorem exists_load (h : contentOf s.tree path = .ok packages) :
    ∃ s', (load path).run s = .ok packages s' ∧ s'.tree = s.tree := by
  cases hrun : (load path).run s with
  | ok packages' s' =>
    obtain ⟨hpackages, htree⟩ := load_eq_ok hrun
    cases h.symm.trans hpackages
    exact ⟨s', rfl, htree⟩
  | error e s' => cases h.symm.trans (load_eq_error hrun).1

/-- Reading a manifest file depends on the file system only. -/
theorem result_load (s : Session) (path : Path) :
    (load path).result s = contentOf s.tree path := by
  cases h : (load path).run s with
  | ok packages s' => rw [Action.result_of_ok h, (load_eq_ok h).1]
  | error e s' => rw [Action.result_of_error h, (load_eq_error h).1]

/-- A text that can be read is what it was written as. -/
theorem obtained_of_contentOf {t : FileTree} (h : contentOf t path = .ok packages) :
    ∀ p ∈ packages, p.version.Obtained := by
  unfold contentOf at h
  split at h
  · cases h
  next text _ =>
    cases hread : read (formatOf path) text with
    | error e => simp [hread, Except.mapError] at h
    | ok ps =>
      simp only [hread, Except.mapError, Except.ok.injEq] at h
      exact h ▸ obtained_of_read hread

/-- The manifest that was written holds the packages, where it is not a special file
that took it. -/
theorem contentOf_write {t t' : FileTree} (hversions : ∀ p ∈ packages, p.version.Obtained)
    (h : t.write path (Text.bytesOf (print (formatOf path) packages)) = .ok t')
    (hspecial : t'.isSpecial path = false) : contentOf t' path = .ok packages := by
  have htext : t'.readText path = .ok (print (formatOf path) packages) := by
    rw [FileTree.readText, FileTree.read_of_write h hspecial]
    simp only [Text.stringOf?_bytesOf]
  rw [contentOf, htext]
  simp only [read_print hversions, Except.mapError]

/-- Writing a manifest, where the directory for it is there. -/
def saveFile (path : Path) (packages : List Package) : Action Unit := do
  Action.writing (·.write path (Text.bytesOf (print (formatOf path) packages)))
    (.fileWriteFailed path)
  Action.tell (.debug target "Wrote package manifest"
    [("path", path.display), ("count", toString packages.length)])

/-- A directory may be made first. -/
theorem save_cases (path : Path) (packages : List Package) :
    save path packages = saveFile path packages ∨
      ∃ parent, path.parent? = some parent ∧ save path packages
        = (Action.makeDirectories parent (.fileWriteFailed parent) >>= fun _ =>
          saveFile path packages) := by
  -- A path without a directory in front of it needs none, and an empty one stands for the working
  -- directory.
  unfold save
  cases path.parent? with
  | none => exact .inl rfl
  | some parent =>
    simp only
    split
    · exact .inr ⟨parent, rfl, rfl⟩
    · exact .inl rfl

/-- Writing the file puts the printed packages into it. -/
theorem saveFile_eq_ok {u : Unit} (h : (saveFile path packages).run s = .ok u s') :
    s.tree.write path (Text.bytesOf (print (formatOf path) packages)) = .ok s'.tree := by
  rw [saveFile, Action.bind_eq_ok_iff] at h
  obtain ⟨_, s₁, hwrite, h⟩ := h
  obtain ⟨t, hwritten, rfl⟩ := Action.writing_eq_ok_iff.mp hwrite
  rw [Action.run_tell] at h
  cases h
  exact hwritten

/-- Writing the file fails only with the path and the reason. -/
theorem saveFile_eq_error (h : (saveFile path packages).run s = .error e s') :
    ∃ reason, e = .fileWriteFailed path reason := by
  rw [saveFile, Action.bind_eq_error_iff] at h
  rcases h with h | ⟨_, s₁, -, h⟩
  · obtain ⟨fault, -, rfl, -⟩ := Action.writing_eq_error_iff.mp h
    exact ⟨fault.message, rfl⟩
  · rw [Action.run_tell] at h
    cases h

/-- The packages that were written are what the file holds, where it is not a special
one. -/
theorem save_eq_ok {u : Unit} (hversions : ∀ p ∈ packages, p.version.Obtained)
    (h : (save path packages).run s = .ok u s') (hspecial : s'.tree.isSpecial path = false) :
    contentOf s'.tree path = .ok packages := by
  rcases save_cases path packages with hsave | ⟨parent, -, hsave⟩
  · rw [hsave] at h
    exact contentOf_write hversions (saveFile_eq_ok h) hspecial
  · rw [hsave, Action.bind_eq_ok_iff] at h
    obtain ⟨_, s₁, -, h⟩ := h
    exact contentOf_write hversions (saveFile_eq_ok h) hspecial

/-- Writing fails when a directory or the file cannot be written. -/
theorem save_eq_error (h : (save path packages).run s = .error e s') :
    ∃ place reason, e = .fileWriteFailed place reason := by
  rcases save_cases path packages with hsave | ⟨parent, -, hsave⟩
  · rw [hsave] at h
    exact ⟨path, saveFile_eq_error h⟩
  · rw [hsave, Action.bind_eq_error_iff] at h
    rcases h with h | ⟨_, s₁, -, h⟩
    · obtain ⟨fault, -, rfl, -⟩ := Action.makeDirectories_eq_error_iff.mp h
      exact ⟨parent, fault.message, rfl⟩
    · exact ⟨path, saveFile_eq_error h⟩

/-- Writing succeeds where the directory is there and takes what is written. -/
theorem exists_save {t : FileTree}
    (hparent : ∀ parent, path.parent? = some parent →
      s.tree.makeDirectories parent = ⟨s.tree, none⟩)
    (h : s.tree.write path (Text.bytesOf (print (formatOf path) packages)) = .ok t) :
    ∃ s', (save path packages).run s = .ok () s' ∧ s'.tree = t := by
  -- With the directory there, saving is writing the file.
  have hfile {s : Session}
      (h : s.tree.write path (Text.bytesOf (print (formatOf path) packages)) = .ok t) :
      ∃ s', (saveFile path packages).run s = .ok () s' ∧ s'.tree = t :=
    ⟨_, Action.bind_eq_ok_iff.mpr ⟨(), _, Action.writing_eq_ok_iff.mpr ⟨t, h, rfl⟩, rfl⟩, rfl⟩
  rcases save_cases path packages with hsave | ⟨parent, hpath, hsave⟩
  · rw [hsave]
    exact hfile h
  · rw [hsave]
    have hmade := hparent parent hpath
    obtain ⟨s', hrun, htree⟩ := hfile h
    refine ⟨s', Action.bind_eq_ok_iff.mpr ⟨(), s, ?_, hrun⟩, htree⟩
    exact Action.makeDirectories_eq_ok_iff.mpr ⟨by rw [hmade], by rw [hmade]⟩

end Promotion.Manifest
