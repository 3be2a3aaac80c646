import Promotion.Proofs.Bundle.Assembly
import Promotion.Proofs.FileTree.Fill

/-!
# `Promotion.Proofs.Bundle.Failure`: how packing fails

* `whileStaging_eq_error_iff`, `pack_eq_error_iff`: the stages that can fail.
* `Bundle.Fails`: the six ways in which packing a bundle fails, each with its
  cause and with the file system that is left behind.
* `fails_of_assemble`: there are no others.
-/

set_option autoImplicit false

namespace Promotion.Bundle

open Promotion.Archive (Record)

variable {α : Type} {s s' : Session} {b : Bundle} {output : Path} {extension : String}
  {e : Failure} {t : FileTree} {place : Location}

/-! ### The stages that fail -/

/-- Work with a staging file fails without a place for it, or in the work, and then the
file is gone. -/
theorem whileStaging_eq_error_iff {work : Location → Action α} :
    (b.whileStaging output work).run s = .error e s' ↔
      (∃ fault, s.tree.stagingPlace output = .error fault ∧
        e = .assemblyFailed b.name fault.message ∧ s' = s) ∨
      ∃ place s₁, s.tree.stagingPlace output = .ok place ∧
        (work place).run { s with tree := s.tree.stage place } = .error e s₁ ∧
        s' = { s₁ with tree := s₁.tree.erase place } := by
  rw [whileStaging, Action.bind_eq_error_iff, Action.reading_eq_error_iff]
  refine or_congr_right ?_
  -- The failure of the work is passed on after the staging file is removed.
  simp only [Action.reading_eq_ok_iff, ↓existsAndEq, and_true, Action.run_tree_bind,
    Action.run_setTree_bind, Action.tryCatch_eq_error_iff, Action.throw_eq_error_iff, true_and,
    exists_and_left]

/-- Packing fails with the reason why the contents cannot be read. -/
theorem pack_eq_error_iff :
    b.pack.run s = .error e s' ↔ ∃ reason,
      contents s.tree b (s.tree.walk b.payload) = .error reason ∧
      e = .assemblyFailed b.name reason ∧
      s' = { s with events := s.events ++ b.skipped (s.tree.walk b.payload) } := by
  rw [pack, Action.run_tree_bind, Action.run_tellAll_bind]
  split
  next h =>
    rw [h, Action.throw_eq_error_iff]
    simp
  next h => simp [h]

/-- Work that fails before the archive has its name leaves the staging file as
the only change. -/
theorem staged_eq_error {path : Path}
    (h : (do
      let (content, files) ← b.pack
      Action.writing (·.rename place path content) (.assemblyFailed b.name)
      return files : Action Nat).run s = .error e s') :
    s'.tree = s.tree ∧
      ((∃ reason, contents s.tree b (s.tree.walk b.payload) = .error reason ∧
        e = .assemblyFailed b.name reason) ∨
      ∃ records fault, contents s.tree b (s.tree.walk b.payload) = .ok records ∧
        s.tree.rename place path (Archive.encode records) = .error fault ∧
        e = .assemblyFailed b.name fault.message) := by
  -- Either the packing fails, or the renaming after it.
  rw [Action.bind_eq_error_iff, pack_eq_error_iff] at h
  rcases h with ⟨reason, hunpacked, rfl, rfl⟩ | ⟨⟨content, files⟩, s₁, hpacked, h⟩
  · exact ⟨rfl, .inl ⟨reason, hunpacked, rfl⟩⟩
  obtain ⟨records, hwalked, rfl, -, rfl⟩ := pack_eq_ok_iff.mp hpacked
  rw [Action.bind_eq_error_iff, Action.writing_eq_error_iff] at h
  rcases h with ⟨fault, hunnamed, rfl, rfl⟩ | ⟨_, s₂, -, h⟩
  · exact ⟨rfl, .inr ⟨records, fault, hwalked, hunnamed, rfl⟩⟩
  · cases h

/-- The ways in which packing a bundle fails, with the file system that is left
behind. -/
inductive Fails (b : Bundle) (s : Session) (output : Path) (extension : String) :
    Failure → FileTree → Prop
  | refused {e : Failure} (h : check s.tree b output = .error e) :
      Fails b s output extension e s.tree
  | unmade {fault : Fault} (hchecked : check s.tree b output = .ok ())
      (h : (s.tree.makeDirectories output).fault = some fault) :
      Fails b s output extension (.fileWriteFailed output fault.message)
        (s.tree.makeDirectories output).tree
  | unstaged {fault : Fault} (hchecked : check s.tree b output = .ok ())
      (hmade : (s.tree.makeDirectories output).fault = none)
      (h : (s.tree.makeDirectories output).tree.stagingPlace output = .error fault) :
      Fails b s output extension (.assemblyFailed b.name fault.message)
        (s.tree.makeDirectories output).tree
  | unpacked {place : Location} {reason : String} (hchecked : check s.tree b output = .ok ())
      (hmade : (s.tree.makeDirectories output).fault = none)
      (hstaged : (s.tree.makeDirectories output).tree.stagingPlace output = .ok place)
      (h : contents ((s.tree.makeDirectories output).tree.stage place) b
        (((s.tree.makeDirectories output).tree.stage place).walk b.payload) = .error reason) :
      Fails b s output extension (.assemblyFailed b.name reason)
        (s.tree.makeDirectories output).tree
  | unnamed {place : Location} {records : List Record} {fault : Fault}
      (hchecked : check s.tree b output = .ok ())
      (hmade : (s.tree.makeDirectories output).fault = none)
      (hstaged : (s.tree.makeDirectories output).tree.stagingPlace output = .ok place)
      (hwalked : contents ((s.tree.makeDirectories output).tree.stage place) b
        (((s.tree.makeDirectories output).tree.stage place).walk b.payload) = .ok records)
      (h : ((s.tree.makeDirectories output).tree.stage place).rename place
        (b.archivePath output extension) (Archive.encode records) = .error fault) :
      Fails b s output extension (.assemblyFailed b.name fault.message)
        (s.tree.makeDirectories output).tree
  /-- The archive has its name, but the name does not lead to it. -/
  | unread {place : Location} {records : List Record} {after : FileTree} {fault : Fault}
      (hchecked : check s.tree b output = .ok ())
      (hmade : (s.tree.makeDirectories output).fault = none)
      (hstaged : (s.tree.makeDirectories output).tree.stagingPlace output = .ok place)
      (hwalked : contents ((s.tree.makeDirectories output).tree.stage place) b
        (((s.tree.makeDirectories output).tree.stage place).walk b.payload) = .ok records)
      (hrenamed : ((s.tree.makeDirectories output).tree.stage place).rename place
        (b.archivePath output extension) (Archive.encode records) = .ok after)
      (h : after.read (b.archivePath output extension) = .error fault) :
      Fails b s output extension
        (.fileReadFailed (b.archivePath output extension) fault.message) after

/-- Removing the staging file undoes that it was made. -/
theorem erase_stage (h : t.stagingPlace output = .ok place) : (t.stage place).erase place = t := by
  obtain ⟨dir, name, -, rfl, hvacant⟩ := stagingPlace_eq_ok h
  exact FileTree.erase_insert (by simp) hvacant _

/-- An assembly that fails does so in one of the known ways. -/
theorem fails_of_assemble (h : (b.assemble output extension).run s = .error e s') :
    b.Fails s output extension e s'.tree := by
  -- Each stage is the one at which it fails, or succeeds and leaves the state of the next.
  rw [assemble, Action.run_tree_bind, Action.bind_eq_error_iff, Action.ofExcept_eq_error_iff] at h
  rcases h with ⟨hrefused, rfl⟩ | ⟨_, s₁, hcheck, h⟩
  · exact .refused hrefused
  obtain ⟨hchecked, rfl⟩ := Action.ofExcept_eq_ok_iff.mp hcheck
  rw [Action.bind_eq_error_iff, Action.makeDirectories_eq_error_iff] at h
  rcases h with ⟨fault, hunmade, rfl, rfl⟩ | ⟨_, s₂, hmake, h⟩
  · exact .unmade hchecked hunmade
  obtain ⟨hmade, rfl⟩ := Action.makeDirectories_eq_ok_iff.mp hmake
  rw [Action.run_tell_bind, Action.bind_eq_error_iff, whileStaging_eq_error_iff] at h
  rcases h with (⟨fault, hunstaged, rfl, rfl⟩ | ⟨place, s₂, hstaged, hwork, rfl⟩) |
    ⟨files, s₂, hstaging, h⟩
  · exact .unstaged hchecked hmade hunstaged
  · obtain ⟨htree, hreason⟩ := staged_eq_error hwork
    rw [htree]
    dsimp only at hreason ⊢
    rw [erase_stage hstaged]
    rcases hreason with ⟨reason, hunpacked, rfl⟩ | ⟨records, fault, hwalked, hunnamed, rfl⟩
    · exact .unpacked hchecked hmade hstaged hunpacked
    · exact .unnamed hchecked hmade hstaged hwalked hunnamed
  simp only [whileStaging_eq_ok_iff, Action.bind_eq_ok_iff, pack_eq_ok_iff, Action.pure_eq_ok_iff,
    Action.writing_eq_ok_iff, Prod.exists, ↓existsAndEq, and_true] at hstaging
  obtain ⟨place, hstaged, records, hwalked, _, after, hrenamed, -, rfl⟩ := hstaging
  rw [Action.bind_eq_error_iff, Digest.ofFile, Digest.Hasher.ofFile, Action.bind_eq_error_iff,
    Action.reading_eq_error_iff] at h
  rcases h with (⟨fault, hunread, rfl, rfl⟩ | ⟨_, s₃, -, h⟩) | ⟨_, s₃, -, h⟩
  · exact .unread hchecked hmade hstaged hwalked hrenamed hunread
  · cases h
  · cases h

end Promotion.Bundle
