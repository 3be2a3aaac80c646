import Promotion.Proofs.Bundle.Effect
import Promotion.Proofs.FileTree.Link

/-!
# `Promotion.Proofs.Bundle.SelfPacking`: an archive and its own payload

The guard keeps the output directory out of the payload directory, but the walk
over the payload follows links. What it comes to lies below the payload
directory or below what a link in the payload leads to, so the archive is
packed into itself only by way of a link.

* `keepsOff_of_check`: for an accepted output directory, no path below the
  payload leads to a place in it or above it unless a link does.
* `assemble_packs_old_files`: without such a link every file in an archive was
  there before.
* `not_forall_assemble_packs_old_files`: with one, that need not be so.
-/

set_option autoImplicit false

namespace Promotion

namespace Bundle

open Promotion.Archive (Record)
open Promotion.FileTree (Node)
open Promotion.Text (Bytes)

variable {s : Session} {b : Bundle} {output : Path} {extension : String} {ready : FileTree}
  {place : Location}

/-- A record of a file is that of a node which is a file with the same bytes. -/
theorem entry_of_record {n : Node} (h : n.record.kind = .file) :
    ∃ executable, n.entry = .file n.record.content executable := by
  obtain ⟨names, entry⟩ := n
  cases entry with
  | file content executable => exact ⟨executable, rfl⟩
  | directory => cases h
  | link target => cases h
  | special => cases h

/-- The file of an archive's record was there when the archive was made. -/
theorem Holds.exists_file {after : FileTree} {a : Artifact} {nodes : List Node} {descriptor : Node}
    {r : Record} (h : b.Holds ready after a nodes descriptor)
    (hr : r ∈ (nodes ++ [descriptor]).map Node.record) (hfile : r.kind = .file) :
    ∃ path loc executable, (path = b.descriptor ∨ ∃ names, path = b.payload.descend names ∧
        r.path = [Path.separator].intercalate names) ∧
      ready.place true path = .ok (.entry loc (.file r.content executable)) := by
  obtain ⟨n, hn, rfl⟩ := List.mem_map.mp hr
  obtain ⟨executable, hentry⟩ := entry_of_record hfile
  -- A file of the archive comes from the payload, or is the descriptor.
  rcases List.mem_append.mp hn with hn | hn
  · obtain ⟨-, -, hentry', -⟩ := (h.unfolding.mem_iff n.names n.entry).mp hn
    obtain ⟨loc, hplace⟩ := FileTree.entryAt_eq_ok_iff.mp hentry'
    rw [hentry] at hplace
    exact ⟨_, loc, executable, .inr ⟨n.names, rfl, rfl⟩, hplace⟩
  · obtain rfl := List.mem_singleton.mp hn
    obtain ⟨loc, hplace⟩ := FileTree.entryAt_eq_ok_iff.mp h.entry
    rw [hentry] at hplace
    exact ⟨_, loc, executable, .inl rfl, hplace⟩

section Accepted

variable (hs : s.tree.WellFormed) (hchecked : check s.tree b output = .ok ())
  (hmade : s.tree.makeDirectories output = ⟨ready, none⟩)
  (hstaged : ready.stagingPlace output = .ok place)

include hs hchecked hmade hstaged

/-- The walk over the payload comes neither to the output directory nor to a
file in it, unless a link leads there. -/
theorem keepsOff_of_check {new : Location} (hnew : new ≠ [])
    (hbeside : new.dropLast = place.dropLast) (hfree : ready.get? new ≠ some .directory)
    (hlinks : ¬ (ready.stage place).LinksTo b.payload new) :
    (ready.stage place).KeepsOff b.payload new := by
  obtain ⟨out, hprepares, hout⟩ := prepares_of_check hs hchecked
  have hready := (FileTree.makes_makeDirectories s.tree output).wellFormed hs
  rw [hmade] at hprepares hout hready
  obtain ⟨home, hhome⟩ := FileTree.isDirectory_iff.mp (check_eq_ok s.tree hchecked).2
  -- The guard has found that the payload is not above the output directory.
  have houtside : ¬ home <+: out :=
    notPrefix_of_checkOutput hs (checkOutput_of_check hchecked)
      (FileTree.locate_eq_ok_iff.mpr ⟨_, hhome⟩) hprepares.pending hprepares.awaits
  obtain ⟨dir, name, hdir, rfl, hvacant⟩ := stagingPlace_eq_ok hstaged
  have hlocate := FileTree.locate_eq_ok_iff.mpr ⟨_, hout rfl⟩
  obtain rfl := Except.ok.inj (hdir.symm.trans hlocate)
  obtain ⟨init, last, rfl⟩ : ∃ init last, new = init ++ [last] :=
    ⟨_, _, (List.dropLast_concat_getLast hnew).symm⟩
  rw [List.dropLast_concat, List.dropLast_concat] at hbeside
  subst hbeside
  -- The staging file is new and no directory, so what was said of the payload still holds.
  have hfills : ready.Fills (ready.stage (init ++ [name])) (· = init ++ [name]) :=
    (FileTree.Fills.refl ready _).insert rfl (by simp [hvacant])
  have hrooted : (ready.stage (init ++ [name])).Rooted :=
    hready.toRooted.insert (FileTree.get?_of_place hready.toRooted (hout rfl)) (by simp [hvacant]) _
  have hhome' : (ready.stage (init ++ [name])).place true b.payload
      = .ok (.entry home .directory) :=
    FileTree.place_insert_of_place hvacant (hprepares.paves.place hhome)
  exact FileTree.keepsOff_of_not_linksTo hrooted hhome' houtside
    (fun hget => hfree (hfills.get?_eq_directory_iff.mp hget)) hlinks

/-- An archive that was made away from the payload holds old files. -/
theorem exists_old_file {a : Artifact} {s' : Session} {bytes : Bytes} {records : List Record}
    {r : Record} (hoff : (ready.stage place).KeepsOff b.payload place)
    (hrun : (b.assemble output extension).run s = .ok a s')
    (hread : s'.tree.read a.path = .ok bytes) (hdecode : Archive.decode? bytes = some records)
    (hr : r ∈ records) (hfile : r.kind = .file) : ∃ path loc executable,
      (path = b.descriptor ∨ ∃ names, path = b.payload.descend names ∧
        r.path = [Path.separator].intercalate names) ∧
      ready.place true path = .ok (.entry loc (.file r.content executable)) ∧
      s.tree.get? loc = some (.file r.content executable) := by
  have haway : ¬ b.ReachesOutput (s.tree.makeDirectories output).tree output := by
    rw [hmade]
    rintro ⟨place', hplace, hreaches⟩
    obtain rfl := Except.ok.inj (hstaged.symm.trans hplace)
    exact hreaches hoff
  obtain ⟨out, hprepares, -⟩ := prepares_of_check hs hchecked
  have hready := (FileTree.makes_makeDirectories s.tree output).wellFormed hs
  obtain ⟨_, _, hpacked⟩ := assemble_eq_ok_iff.mp ⟨s', hrun, rfl⟩
  obtain ⟨nodes, descriptor, hholds⟩ := hpacked.holds hs haway
  rw [hmade] at hprepares hready hholds
  rw [hholds.records_eq hread hdecode] at hr
  obtain ⟨path, loc, executable, hpath, hplace⟩ := hholds.exists_file hr hfile
  refine ⟨path, loc, executable, hpath, hplace, ?_⟩
  -- Only directories are new, so the file is an old one.
  have hget := FileTree.get?_of_place hready.toRooted hplace
  exact (hprepares.paves.new loc _ hget).resolve_right (by simp)

/-- When no link in the payload leads to the staging file or to a directory
above it, the walk over the payload comes neither to the output directory nor
to the staging file, nor to the place of the archive in the same directory if
no link leads there; and every file in the archive was there with the same
bytes before. -/
theorem assemble_packs_old_files (extension : String)
    (hlinks : ¬ (ready.stage place).LinksTo b.payload place) :
    (ready.stage place).KeepsOff b.payload place ∧
    (∀ new, ready.targetLocation (b.archivePath output extension) .busy = .ok new →
      new.dropLast = place.dropLast → ready.get? new ≠ some .directory →
      ¬ (ready.stage place).LinksTo b.payload new → (ready.stage place).KeepsOff b.payload new) ∧
    ∀ a s' bytes records, (b.assemble output extension).run s = .ok a s' →
      s'.tree.read a.path = .ok bytes → Archive.decode? bytes = some records →
      ∀ r ∈ records, r.kind = .file → ∃ path loc executable,
        (path = b.descriptor ∨ ∃ names, path = b.payload.descend names ∧
          r.path = [Path.separator].intercalate names) ∧
        ready.place true path = .ok (.entry loc (.file r.content executable)) ∧
        s.tree.get? loc = some (.file r.content executable) := by
  obtain ⟨dir, name, -, hplace, hvacant⟩ := stagingPlace_eq_ok hstaged
  have hstaging : (ready.stage place).KeepsOff b.payload place :=
    keepsOff_of_check hs hchecked hmade hstaged (by simp [hplace]) rfl (by simp [hvacant]) hlinks
  -- The argument for the staging file goes for the final name as well: both lie in the output
  -- directory.
  refine ⟨hstaging, fun new htarget hbeside hfree hlinks => ?_, ?_⟩
  · obtain ⟨dir', last, -, -, rfl⟩ := FileTree.targetLocation_eq_ok_iff.mp htarget
    exact keepsOff_of_check hs hchecked hmade hstaged (by simp) hbeside hfree hlinks
  · intro a s' bytes records hrun hread hdecode r hr hfile
    exact exists_old_file hs hchecked hmade hstaged hstaging hrun hread hdecode hr hfile

end Accepted

/-- The link in the payload of the project stays in the payload. -/
theorem projectTree_not_linksTo :
    ¬ (projectTree.stage projectStaging).LinksTo projectBundle.payload projectStaging := by
  obtain ⟨nodes, hunfolding, hnodes⟩ := projectTree_unfolding
  refine FileTree.not_linksTo_of_unfolding projectTree_stage_wellFormed.toRooted hunfolding
    (FileTree.get?_insert_self (by decide) _) (by simp) fun n hn => ?_
  obtain ⟨file, hfile, hlocate⟩ := hnodes n hn
  refine ⟨_, hlocate, ?_⟩
  clear hlocate
  revert file
  decide

/-- The project's archive holds old files only. -/
theorem assemble_packs_old_files_project : projectTree.WellFormed ∧
    check projectTree projectBundle projectOutput = .ok () ∧
    projectTree.makeDirectories projectOutput = ⟨projectTree, none⟩ ∧
    projectTree.stagingPlace projectOutput = .ok projectStaging ∧
    ¬ (projectTree.stage projectStaging).LinksTo projectBundle.payload projectStaging ∧
    (projectTree.stage projectStaging).KeepsOff projectBundle.payload projectStaging ∧
    ∃ a s', (projectBundle.assemble projectOutput "tgz").run projectSession = .ok a s' ∧
      ∀ bytes records, s'.tree.read a.path = .ok bytes → Archive.decode? bytes = some records →
        ∀ r ∈ records, r.kind = .file → ∃ path loc executable,
          (path = projectBundle.descriptor ∨ ∃ names, path = projectBundle.payload.descend names ∧
            r.path = [Path.separator].intercalate names) ∧
          projectTree.place true path = .ok (.entry loc (.file r.content executable)) ∧
          projectTree.get? loc = some (.file r.content executable) := by
  have hchecked : check projectTree projectBundle projectOutput = .ok () := by
    cbv
  obtain ⟨hoff, -, hfiles⟩ := assemble_packs_old_files (s := projectSession)
    projectTree_wellFormed hchecked projectTree_makeDirectories projectTree_stagingPlace "tgz"
    projectTree_not_linksTo
  obtain ⟨a, s', hrun⟩ := exists_assemble_project
  exact ⟨projectTree_wellFormed, hchecked, projectTree_makeDirectories, projectTree_stagingPlace,
    projectTree_not_linksTo, hoff, a, s', hrun, fun bytes records => hfiles a s' bytes records hrun⟩

/-! ### A payload with a link to the output directory -/

/-- A project in whose payload a link leads to the output directory. -/
def linkedTree : FileTree where
  current := []
  entries := [
    (locationOf ["p"], .directory),
    (locationOf ["p", "package.json"], .file (Text.bytesOf "outer") false),
    (locationOf ["p", "dist"], .directory),
    (locationOf ["p", "dist", "l"], .link (.ofString "../../out")),
    (locationOf ["out"], .directory)]

/-- A session with the files of the link. -/
def linkedSession : Session := { tree := linkedTree }

/-- The files with the link make up a tree. -/
theorem linkedTree_wellFormed : linkedTree.WellFormed :=
  FileTree.wellFormed_of_entries rfl (by decide)

/-- The walk over the payload comes to the staging file. -/
theorem linkedTree_walk :
    (linkedTree.stage projectStaging).walk projectBundle.payload = ⟨[
      ⟨.ofString "p/dist/l", [Text.bytesOf "l"], .directory⟩,
      ⟨.ofString "p/dist/l/.tmp0", [Text.bytesOf "l", Text.bytesOf ".tmp0"], .file [] false⟩],
      none⟩ := by
  have hlocate : (linkedTree.stage projectStaging).locate projectBundle.payload
      = .ok (locationOf ["p", "dist"]) := by
    cbv
  have hnames : (linkedTree.stage projectStaging).childNames (locationOf ["p", "dist"])
      = ["l"].map Text.bytesOf := by
    cbv
  -- The names are taken one by one, so that each step of the walk is a small evaluation.
  rw [FileTree.walk_eq hlocate hnames]
  simp only [List.map_cons, List.map_nil, FileTree.walkNames_cons]
  cbv

/-- What is packed: the link as a directory, in it the staging file, and the
descriptor. -/
def linkedRecords : List Record := [
  .ofDirectory (Text.bytesOf "l"),
  .ofFile (Text.bytesOf "l/.tmp0") [] false,
  .ofFile (Text.bytesOf "package.json") (Text.bytesOf "outer") false]

/-- The staging file is among the contents of the archive. -/
theorem linkedTree_contents : contents (linkedTree.stage projectStaging) projectBundle
    ((linkedTree.stage projectStaging).walk projectBundle.payload) = .ok linkedRecords := by
  have hentry : (linkedTree.stage projectStaging).entryAt projectBundle.descriptor
      = .ok (.file (Text.bytesOf "outer") false) := by
    cbv
  rw [linkedTree_walk]
  exact contents_eq_ok_iff.mpr ⟨rfl, _, _, _, projectBundle_fileName?, hentry, rfl⟩

/-- The records fit into an archive. -/
theorem linkedRecords_fits : ∀ r ∈ linkedRecords, r.Fits := by
  intro r hr
  simp only [linkedRecords, List.mem_cons, List.not_mem_nil, or_false] at hr
  rcases hr with rfl | rfl | rfl
  · constructor <;> decide
  · constructor <;> decide
  · constructor <;> decide

/-- The project is packed, and its archive holds the staging file. -/
theorem exists_assemble_linked : ∃ a s' bytes,
    (projectBundle.assemble projectOutput "tgz").run linkedSession = .ok a s' ∧
      s'.tree.read a.path = .ok bytes ∧ Archive.decode? bytes = some linkedRecords := by
  have hchecked : check linkedTree projectBundle projectOutput = .ok () := by
    cbv
  have hmade : linkedTree.makeDirectories projectOutput = ⟨linkedTree, none⟩ := by
    cbv
  have hstaged : linkedTree.stagingPlace projectOutput = .ok projectStaging := by
    cbv
  have hrenamed (content : Bytes) : (linkedTree.stage projectStaging).rename projectStaging
      (projectBundle.archivePath projectOutput "tgz") content
        = .ok (linkedTree.insert (locationOf ["out", "demo.tgz"]) (.file content false)) := by
    cbv
  have hread (content : Bytes) :
      (linkedTree.insert (locationOf ["out", "demo.tgz"]) (.file content false)).read
        (projectBundle.archivePath projectOutput "tgz") = .ok content := by
    cbv
  obtain ⟨a, s', hrun⟩ := exists_assemble (s := linkedSession) hchecked hmade
    hstaged linkedTree_contents (hrenamed _) (hread _)
  obtain ⟨place, records, hpacked⟩ := assemble_eq_ok_iff.mp ⟨s', hrun, rfl⟩
  obtain ⟨new, -, hread'⟩ := hpacked.delivers
  rw [← hpacked.path_eq] at hread'
  -- The stages of the run are those computed above.
  obtain rfl : records = linkedRecords := by
    obtain ⟨-, -, hstaged', hwalked, -⟩ := hpacked
    rw [show linkedSession.tree = linkedTree from rfl, hmade] at hstaged' hwalked
    obtain rfl := Except.ok.inj (hstaged.symm.trans hstaged')
    exact Except.ok.inj (hwalked.symm.trans linkedTree_contents)
  exact ⟨a, s', _, hrun, hread', Archive.decode?_encode linkedRecords_fits⟩

/-- Not every file in an archive was there before. -/
theorem not_forall_assemble_packs_old_files : ¬ ∀ (s s' : Session) (b : Bundle) (output : Path)
    (extension : String) (a : Artifact) (bytes : Bytes) (records : List Record),
    s.tree.WellFormed → (b.assemble output extension).run s = .ok a s' →
    s'.tree.read a.path = .ok bytes → Archive.decode? bytes = some records →
    ∀ r ∈ records, r.kind = .file →
      ∃ loc executable, s.tree.get? loc = some (.file r.content executable) := by
  intro hall
  obtain ⟨a, s', bytes, hrun, hread, hdecode⟩ := exists_assemble_linked
  obtain ⟨loc, executable, hget⟩ := hall _ _ _ _ _ _ _ _ linkedTree_wellFormed hrun hread hdecode
    (.ofFile (Text.bytesOf "l/.tmp0") [] false) (by simp [linkedRecords]) rfl
  have hloc : loc ≠ [] := by
    rintro rfl
    cases hget
  obtain ⟨e, he, -, hentry⟩ := FileTree.exists_mem_of_get? hloc hget
  -- The only file of the project is not empty.
  have hfiles : ∀ e ∈ linkedTree.entries, ∀ executable, e.2 ≠ .file [] executable := by
    decide
  exact hfiles e he executable hentry

end Bundle

end Promotion
