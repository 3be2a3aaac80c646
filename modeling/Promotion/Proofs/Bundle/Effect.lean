import Promotion.Proofs.Bundle.Guard

/-!
# `Promotion.Proofs.Bundle.Effect`: what packing changes

Packing changes a file system in two ways: directories are made on the way to
the output directory, and the archive takes its place. The staging file is
gone afterwards, whatever happens.

* `Packed.delivers`, `Fails.effect`: the changes of a success and of a failure.
* `assemble_leaves`: the changes of both, for what packs many bundles.
* `assemble_disturbs_nothing`: what is there stays as it is, up to the place of
  the archive; after a failure that too, unless a link stood there.
* `not_forall_assemble_error_keeps`: the exception does occur.

Only one stage comes after the archive has its name: it is read by its path for
its digest. That the file which was just put there cannot be read means that
the path leads through a link and that the archive has replaced this very link.
-/

set_option autoImplicit false

namespace Promotion.Bundle

open Promotion.Archive (Record)
open Promotion.FileTree (pathOf)
open Promotion.Text (Bytes)

variable {s s' : Session} {b : Bundle} {output : Path} {extension : String} {e : Failure}
  {t after : FileTree} {place : Location}

/-- A staging file that gets its name is the only change. -/
theorem delivers_of_rename {path : Path} {content : Bytes}
    (hstaged : t.stagingPlace output = .ok place)
    (h : (t.stage place).rename place path content = .ok after) :
    ∃ new, t.Delivers path content new after := by
  obtain ⟨dir, name, -, rfl, hvacant⟩ := stagingPlace_eq_ok hstaged
  exact FileTree.delivers_of_rename (by simp) hvacant h

/-- The artifact has the path of the archive. -/
theorem Packed.path_eq {records : List Record} {a : Artifact}
    (h : b.Packed s output extension place records a after) :
    a.path = b.archivePath output extension := by
  obtain ⟨content, -, rfl⟩ := h.read
  rfl

/-- The archive of a bundle that is packed takes its place and can be read. -/
theorem Packed.delivers {records : List Record} {a : Artifact}
    (h : b.Packed s output extension place records a after) : ∃ new,
    (s.tree.makeDirectories output).tree.Delivers (b.archivePath output extension)
        (Archive.encode records) new after ∧
      after.read (b.archivePath output extension) = .ok (Archive.encode records) := by
  obtain ⟨new, hdelivers⟩ := delivers_of_rename h.staged h.renamed
  obtain ⟨content, hread, -⟩ := h.read
  -- The staging file has a name, so it is not the root.
  have hplace : place ≠ [] := by
    obtain ⟨dir, name, -, rfl, -⟩ := stagingPlace_eq_ok h.staged
    simp
  have hcontent := FileTree.read_of_rename (FileTree.get?_insert_self hplace _) h.renamed hread
  exact ⟨new, hdelivers, hcontent ▸ hread⟩

/-- What a failure leaves behind: the file system as it was, or that with the
output directory made, or at last that with an archive that replaced a link and
is not found by its path. -/
theorem Fails.effect (h : b.Fails s output extension e after) :
    check s.tree b output = .error e ∧ after = s.tree ∨
      check s.tree b output = .ok () ∧
        (after = (s.tree.makeDirectories output).tree ∨
        (s.tree.makeDirectories output).fault = none ∧ ∃ content new target reason,
          (s.tree.makeDirectories output).tree.Delivers (b.archivePath output extension) content new
            after ∧
          (s.tree.makeDirectories output).tree.get? new = some (.link target) ∧
          e = .fileReadFailed (b.archivePath output extension) reason) := by
  cases h with
  | refused h => exact .inl ⟨h, rfl⟩
  | unmade hchecked _ => exact .inr ⟨hchecked, .inl rfl⟩
  | unstaged hchecked _ _ => exact .inr ⟨hchecked, .inl rfl⟩
  | unpacked hchecked _ _ _ => exact .inr ⟨hchecked, .inl rfl⟩
  | unnamed hchecked _ _ _ _ => exact .inr ⟨hchecked, .inl rfl⟩
  | @unread place records after fault hchecked hmade hstaged _ hrenamed hunread =>
    obtain ⟨new, hdelivers⟩ := delivers_of_rename hstaged hrenamed
    refine .inr ⟨hchecked, .inr ⟨hmade, ?_⟩⟩
    -- In place of anything but a link, the archive would have been read.
    by_cases hlink : ∃ target, (s.tree.makeDirectories output).tree.get? new = some (.link target)
    · obtain ⟨target, hlink⟩ := hlink
      exact ⟨_, new, target, fault.message, hdelivers, hlink, rfl⟩
    · have hread := hdelivers.read fun target hget => hlink ⟨target, hget⟩
      rw [hread] at hunread
      cases hunread

/-- What packing a bundle leaves behind, whether it succeeds or fails. -/
theorem assemble_leaves (s : Session) (b : Bundle) (output : Path) (extension : String) :
    (∃ e, check s.tree b output = .error e) ∧
        ((b.assemble output extension).after s).tree = s.tree ∨
      check s.tree b output = .ok () ∧
        (((b.assemble output extension).after s).tree = (s.tree.makeDirectories output).tree ∨
        (s.tree.makeDirectories output).fault = none ∧ ∃ content new,
          (s.tree.makeDirectories output).tree.Delivers (b.archivePath output extension) content new
            ((b.assemble output extension).after s).tree) := by
  -- A success delivers the archive; a failure comes before it or, reading it back, after it.
  cases h : (b.assemble output extension).run s with
  | ok a s' =>
    obtain ⟨place, records, hpacked⟩ := assemble_eq_ok_iff.mp ⟨s', h, rfl⟩
    obtain ⟨new, hdelivers, -⟩ := hpacked.delivers
    rw [Action.after_of_ok h]
    exact .inr ⟨hpacked.checked, .inr ⟨hpacked.made, _, new, hdelivers⟩⟩
  | error e s' =>
    rw [Action.after_of_error h]
    rcases (fails_of_assemble h).effect with ⟨hrefused, htree⟩ |
      ⟨hchecked, htree | ⟨hmade, content, new, _, _, hdelivers, -⟩⟩
    · exact .inl ⟨⟨e, hrefused⟩, htree⟩
    · exact .inr ⟨hchecked, .inl htree⟩
    · exact .inr ⟨hchecked, .inr ⟨hmade, content, new, hdelivers⟩⟩

/-- Once the check has passed, the directories can be prepared where the output will be.
-/
theorem prepares_of_check (hs : s.tree.WellFormed) (h : check s.tree b output = .ok ()) :
    ∃ out, s.tree.Prepares output out (s.tree.makeDirectories output).tree ∧
      ((s.tree.makeDirectories output).fault = none →
        (s.tree.makeDirectories output).tree.place true output = .ok (.entry out .directory)) := by
  obtain ⟨_, q, -, hq, -⟩ := checkOutput_eq_ok_iff.mp (checkOutput_of_check h)
  exact FileTree.prepares_makeDirectories hs hq

/-- Packing disturbs nothing that is on disk. When it fails, nothing at all has
changed or nothing but that directories were made on the way to the output
directory, which is not so only if a link stood where the archive goes and the
archive cannot be read by its path once it has replaced the link. When it
succeeds, the archive is the only further change. -/
theorem assemble_disturbs_nothing (hs : s.tree.WellFormed) :
    (∀ e s', (b.assemble output extension).run s = .error e s' →
      check s.tree b output = .error e ∧ s'.tree = s.tree ∨
      check s.tree b output = .ok () ∧ ∃ out ready, s.tree.Prepares output out ready ∧
        (s'.tree = ready ∨ ∃ content new target reason,
          ready.Delivers (b.archivePath output extension) content new s'.tree ∧
          ready.get? new = some (.link target) ∧
          e = .fileReadFailed (b.archivePath output extension) reason)) ∧
    ∀ a s', (b.assemble output extension).run s = .ok a s' →
      ∃ out ready content new, s.tree.Prepares output out ready ∧
        ready.place true output = .ok (.entry out .directory) ∧
        ready.Delivers a.path content new s'.tree ∧ s'.tree.read a.path = .ok content := by
  -- A failure has one of three effects; a success delivers the archive into the prepared
  -- directory.
  constructor
  · intro e s' h
    refine (fails_of_assemble h).effect.imp_right ?_
    rintro ⟨hchecked, heffect⟩
    obtain ⟨out, hprepares, -⟩ := prepares_of_check hs hchecked
    exact ⟨hchecked, out, _, hprepares, heffect.imp_right And.right⟩
  · intro a s' h
    obtain ⟨place, records, hpacked⟩ := assemble_eq_ok_iff.mp ⟨s', h, rfl⟩
    obtain ⟨out, hprepares, hplace⟩ := prepares_of_check hs hpacked.checked
    obtain ⟨new, hdelivers, hread⟩ := hpacked.delivers
    rw [hpacked.path_eq]
    exact ⟨out, _, _, new, hprepares, hplace hpacked.made, hdelivers, hread⟩

/-- The project is packed, and nothing else in its directory has changed. -/
theorem assemble_disturbs_nothing_project : projectTree.WellFormed ∧
    ∃ a s', (projectBundle.assemble projectOutput "tgz").run projectSession = .ok a s' ∧
      ∃ out ready content new, projectTree.Prepares projectOutput out ready ∧
        ready.place true projectOutput = .ok (.entry out .directory) ∧
        ready.Delivers a.path content new s'.tree ∧ s'.tree.read a.path = .ok content := by
  obtain ⟨a, s', h⟩ := exists_assemble_project
  exact ⟨projectTree_wellFormed, a, s', h,
    (assemble_disturbs_nothing (s := projectSession) projectTree_wellFormed).2 a s' h⟩

/-! ### An archive in its own way -/

/-- When every stage succeeds but the archive cannot be read, packing fails and
the archive stays. -/
theorem exists_assemble_error {records : List Record} {fault : Fault}
    (hchecked : check s.tree b output = .ok ())
    (hmade : s.tree.makeDirectories output = ⟨t, none⟩)
    (hstaged : t.stagingPlace output = .ok place)
    (hwalked : contents (t.stage place) b ((t.stage place).walk b.payload) = .ok records)
    (hrenamed : (t.stage place).rename place (b.archivePath output extension)
      (Archive.encode records) = .ok after)
    (hunread : after.read (b.archivePath output extension) = .error fault) :
    ∃ e s', (b.assemble output extension).run s = .error e s' ∧ s'.tree = after := by
  cases hrun : (b.assemble output extension).run s with
  | ok a s' =>
    obtain ⟨place', records', hpacked⟩ := assemble_eq_ok_iff.mp ⟨s', hrun, rfl⟩
    obtain ⟨-, -, hstaged', hwalked', hrenamed', content, hread, -⟩ := hpacked
    simp_all
  | error e s' =>
    refine ⟨e, s', rfl, ?_⟩
    have hfails := fails_of_assemble hrun
    -- Each other way to fail contradicts one of the stages.
    generalize s'.tree = left at hfails ⊢
    cases hfails <;> simp_all

/-- A project in a directory with a link back to that directory, which has the
name of the project's archive. -/
def loopTree : FileTree where
  current := []
  entries := [
    (locationOf ["p"], .directory),
    (locationOf ["p", "package.json"], .file (Text.bytesOf "outer") false),
    (locationOf ["p", "dist"], .directory),
    (locationOf ["p", "dist", "a"], .file (Text.bytesOf "x") false),
    (locationOf ["demo.tgz"], .link (.ofString "."))]

/-- A session with the files of the loop. -/
def loopSession : Session := { tree := loopTree }

/-- The output directory, under the name of the archive. -/
def loopOutput : Path := .ofString "demo.tgz"

/-- Where the archive is written before it gets its name. -/
def loopStaging : Location := locationOf [".tmp0"]

/-- The project with an archive in place of the link. -/
def loopTreeWith (content : Bytes) : FileTree :=
  loopTree.insert (locationOf ["demo.tgz"]) (.file content false)

/-- The files with the loop make up a tree. -/
theorem loopTree_wellFormed : loopTree.WellFormed :=
  FileTree.wellFormed_of_entries rfl (by decide)

/-- The walk of its payload does not break off. -/
theorem loopTree_walk :
    ((loopTree.stage loopStaging).walk projectBundle.payload).breakage = none := by
  have hlocate : (loopTree.stage loopStaging).locate projectBundle.payload
      = .ok (locationOf ["p", "dist"]) := by
    cbv
  have hnames : (loopTree.stage loopStaging).childNames (locationOf ["p", "dist"])
      = ["a"].map Text.bytesOf := by
    cbv
  rw [FileTree.walk_eq hlocate hnames]
  simp only [List.map_cons, List.map_nil, FileTree.walkNames_cons]
  cbv

/-- The archive replaces the link that it is to be read through. -/
theorem exists_assemble_error_loop : ∃ content e s',
    (projectBundle.assemble loopOutput "tgz").run loopSession = .error e s' ∧
      s'.tree = loopTreeWith content := by
  have hchecked : check loopTree projectBundle loopOutput = .ok () := by
    cbv
  have hmade : loopTree.makeDirectories loopOutput = ⟨loopTree, none⟩ := by
    cbv
  have hstaged : loopTree.stagingPlace loopOutput = .ok loopStaging := by
    cbv
  have hrenamed (content : Bytes) : (loopTree.stage loopStaging).rename loopStaging
      (projectBundle.archivePath loopOutput "tgz") content = .ok (loopTreeWith content) := by
    cbv
  -- The archive has taken the place of the link that its own path goes through.
  have hunread (content : Bytes) : (loopTreeWith content).read
      (projectBundle.archivePath loopOutput "tgz") = .error .notDirectory := by
    cbv
  have hwalked : ∃ records, contents (loopTree.stage loopStaging) projectBundle
      ((loopTree.stage loopStaging).walk projectBundle.payload) = .ok records := by
    have hentry : (loopTree.stage loopStaging).entryAt projectBundle.descriptor
        = .ok (.file (Text.bytesOf "outer") false) := by
      cbv
    exact ⟨_, contents_eq_ok_iff.mpr ⟨loopTree_walk, _, _, _, projectBundle_fileName?, hentry, rfl⟩⟩
  obtain ⟨records, hwalked⟩ := hwalked
  exact ⟨_, exists_assemble_error hchecked hmade hstaged hwalked (hrenamed _) (hunread _)⟩

/-- Not every failure leaves what was at the place of the archive. -/
theorem not_forall_assemble_error_keeps : ¬ ∀ (s s' : Session) (b : Bundle) (output : Path)
    (extension : String) (e : Failure), s.tree.WellFormed →
    (b.assemble output extension).run s = .error e s' →
    ∀ loc entry, s.tree.get? loc = some entry → s'.tree.get? loc = some entry := by
  intro hall
  obtain ⟨content, e, s', hrun, htree⟩ := exists_assemble_error_loop
  have hlink : loopTree.get? (locationOf ["demo.tgz"]) = some (.link (.ofString ".")) := by
    cbv
  -- The link would have to be there still, and the archive is in its place.
  have hkept := hall loopSession s' projectBundle loopOutput "tgz" e loopTree_wellFormed hrun _ _
    hlink
  rw [htree, loopTreeWith, FileTree.get?_insert_self (by decide)] at hkept
  cases hkept

end Promotion.Bundle
