import Mathlib.Data.List.Permutation
import Promotion.Bundle.Assembly
import Promotion.Proofs.Bundle.Contents
import Promotion.Proofs.FileTree.Edit
import Promotion.Proofs.Session

/-!
# `Promotion.Proofs.Bundle.Assembly`: what an archive holds

* `assemble_eq_ok_iff`: packing a bundle succeeds exactly when each of its
  stages does (`Packed`), and what it leaves behind then.
* `Holds`: the archive of an artifact has an entry for each node below the
  payload, in depth-first order, and then one for the descriptor.
* `assemble_holds`: so has each archive that is made away from its payload,
  and no link in the payload was dangling or led back (`FileTree.Unbroken`).
-/

set_option autoImplicit false

namespace Promotion.Bundle

open Promotion.Archive (Record)
open Promotion.FileTree (Node)
open Promotion.Text (Bytes)

variable {α : Type} {s s' : Session} {b : Bundle} {output : Path} {extension : String}

/-! ### The stages -/

/-- Work with a staging file succeeds when there is a place for it and the work does. -/
theorem whileStaging_eq_ok_iff {work : Location → Action α} {a : α} :
    (b.whileStaging output work).run s = .ok a s' ↔ ∃ place,
      s.tree.stagingPlace output = .ok place ∧
      (work place).run { s with tree := s.tree.stage place } = .ok a s' := by
  rw [whileStaging, Action.bind_eq_ok_iff]
  simp only [Action.reading_eq_ok_iff, ↓existsAndEq, and_true, Action.run_tree_bind,
    Action.run_setTree_bind]
  refine exists_congr fun place => and_congr_right fun _ => ?_
  -- The staging file is removed after a failure, but the work fails all the same.
  exact Action.tryCatch_eq_ok_iff nofun

/-- Packing succeeds with the archive of the records, and tells which entries it left
out. -/
theorem pack_eq_ok_iff {content : Bytes} {files : Nat} :
    b.pack.run s = .ok (content, files) s' ↔ ∃ records,
      contents s.tree b (s.tree.walk b.payload) = .ok records ∧
      content = Archive.encode records ∧ files = fileCount (s.tree.walk b.payload) ∧
      s' = { s with events := s.events ++ b.skipped (s.tree.walk b.payload) } := by
  rw [pack, Action.run_tree_bind, Action.run_tellAll_bind]
  split
  next h => simp [h, Action.throw_ne_ok]
  next records h =>
    rw [Action.pure_eq_ok_iff]
    simp [h, and_assoc]

/-- What a bundle that is packed successfully goes through, from the session
`s` to the file system `after`. -/
structure Packed (b : Bundle) (s : Session) (output : Path) (extension : String)
    (place : Location) (records : List Record) (a : Artifact) (after : FileTree) : Prop where
  checked : check s.tree b output = .ok ()
  made : (s.tree.makeDirectories output).fault = none
  staged : (s.tree.makeDirectories output).tree.stagingPlace output = .ok place
  walked : contents ((s.tree.makeDirectories output).tree.stage place) b
    (((s.tree.makeDirectories output).tree.stage place).walk b.payload) = .ok records
  renamed : ((s.tree.makeDirectories output).tree.stage place).rename place
    (b.archivePath output extension) (Archive.encode records) = .ok after
  read : ∃ content, after.read (b.archivePath output extension) = .ok content ∧
    a = ⟨b.name, b.archivePath output extension,
      fileCount (((s.tree.makeDirectories output).tree.stage place).walk b.payload),
      Digest.digestOf content⟩

/-- An assembly succeeds exactly when all its steps do. -/
theorem assemble_eq_ok_iff {a : Artifact} {after : FileTree} :
    (∃ s', (b.assemble output extension).run s = .ok a s' ∧ s'.tree = after) ↔
      ∃ place records, b.Packed s output extension place records a after := by
  rw [assemble]
  simp only [Action.run_tree_bind, Action.bind_eq_ok_iff, Action.ofExcept_eq_ok_iff,
    Action.makeDirectories_eq_ok_iff, whileStaging_eq_ok_iff, Action.run_tell_bind, Digest.ofFile,
    Digest.Hasher.ofFile, Action.reading_eq_ok_iff, Action.pure_eq_ok_iff,
    Action.writing_eq_ok_iff, Prod.exists, pack_eq_ok_iff, ↓existsAndEq, and_true]
  -- The two sides list the same steps, the one in the order in which they run.
  constructor
  · rintro ⟨_, _, place, records, _, content, hcheck, hmade, ⟨hstaged, hwalked, hrenamed⟩,
      hread, ha⟩
    exact ⟨place, records, hcheck, hmade, hstaged, hwalked, hrenamed, content, hread, ha⟩
  · rintro ⟨place, records, hcheck, hmade, hstaged, hwalked, hrenamed, content, hread, ha⟩
    exact ⟨(), (), place, records, (), content, hcheck, hmade, ⟨hstaged, hwalked, hrenamed⟩,
      hread, ha⟩

section Stages
variable {t after : FileTree} {place : Location} {records : List Record} {content : Bytes}
  (hchecked : check s.tree b output = .ok ())
  (hmade : s.tree.makeDirectories output = ⟨t, none⟩)
  (hstaged : t.stagingPlace output = .ok place)
  (hwalked : contents (t.stage place) b ((t.stage place).walk b.payload) = .ok records)
  (hrenamed : (t.stage place).rename place (b.archivePath output extension)
    (Archive.encode records) = .ok after)
  (hread : after.read (b.archivePath output extension) = .ok content)

include hchecked hmade hstaged hwalked hrenamed hread

/-- When every stage succeeds, so does the whole, and leaves what the renaming left. -/
theorem exists_assemble_leaving :
    ∃ a s', (b.assemble output extension).run s = .ok a s' ∧ s'.tree = after := by
  have hpacked : b.Packed s output extension place records ⟨b.name, b.archivePath output extension,
      fileCount ((t.stage place).walk b.payload), Digest.digestOf content⟩ after := by
    -- Each step is given; only the directories are made of those that are there already.
    constructor
    case checked => exact hchecked
    case made => rw [hmade]
    case staged => rw [hmade]; exact hstaged
    case walked => rw [hmade]; exact hwalked
    case renamed => rw [hmade]; exact hrenamed
    case read =>
      rw [hmade]
      exact ⟨content, hread, rfl⟩
  exact ⟨_, assemble_eq_ok_iff.mpr ⟨place, records, hpacked⟩⟩

/-- An assembly succeeds when each of its steps can be taken. -/
theorem exists_assemble : ∃ a s', (b.assemble output extension).run s = .ok a s' := by
  obtain ⟨a, s', h, -⟩ := exists_assemble_leaving hchecked hmade hstaged hwalked hrenamed hread
  exact ⟨a, s', h⟩

end Stages

/-! ### What the archive holds -/

/-- What passes the check has its two parts. -/
theorem check_eq_ok (t : FileTree) (h : check t b output = .ok ()) :
    t.isFile b.descriptor = true ∧ t.isDirectory b.payload = true := by
  -- The guard of the output comes after the parts.
  have hparts : checkParts t b = .ok () := by
    unfold check at h
    cases hparts : checkParts t b with
    | ok => rfl
    | error e =>
      rw [hparts] at h
      cases h
  unfold checkParts at hparts
  split at hparts
  · cases hparts
  split at hparts
  · cases hparts
  · simp_all

/-- The staging file goes into the output directory, under a name that is free there. -/
theorem stagingPlace_eq_ok {t : FileTree} {place : Location}
    (h : t.stagingPlace output = .ok place) :
    ∃ dir name, t.locate output = .ok dir ∧ place = dir ++ [name] ∧ t.get? place = none := by
  unfold FileTree.stagingPlace at h
  split at h
  · cases h
  next dir hdir =>
  dsimp only at h
  split at h
  next name hname =>
    cases h
    refine ⟨dir, name, hdir, rfl, Option.eq_none_iff_forall_ne_some.mpr fun entry hget => ?_⟩
    -- The name was chosen so that no entry of the directory has it.
    have hfresh := List.find?_some hname
    simp only [List.contains_eq_mem, Bool.not_eq_true', decide_eq_false_iff_not] at hfresh
    exact hfresh (FileTree.mem_childNames_iff.mpr ⟨entry, hget⟩)
  · cases h

/-- The walk over the payload comes to the output directory, or by a link to
the file in it that is about to become the archive. -/
def ReachesOutput (b : Bundle) (t : FileTree) (output : Path) : Prop :=
  ∃ place, t.stagingPlace output = .ok place ∧ ¬ (t.stage place).KeepsOff b.payload place

/-- The archive of an artifact holds the nodes below the payload in `t` and
then the descriptor. -/
structure Holds (b : Bundle) (t after : FileTree) (a : Artifact) (nodes : List Node)
    (descriptor : Node) : Prop where
  unfolding : t.Unfolding b.payload nodes
  unbroken : t.Unbroken b.payload
  name : ∃ name, b.descriptor.fileName? = some name ∧ descriptor.names = [name]
  entry : t.entryAt b.descriptor = .ok descriptor.entry
  isFile : descriptor.isFile = true
  archive : ∃ bytes, after.read a.path = .ok bytes ∧
    Archive.decode? bytes = some ((nodes ++ [descriptor]).map Node.record)
  files : a.files = nodes.countP Node.isFile

/-- The records that are read from the archive. -/
theorem Holds.records_eq {t after : FileTree} {a : Artifact} {nodes : List Node}
    {descriptor : Node} {bytes : Bytes} {records : List Record}
    (h : b.Holds t after a nodes descriptor) (hread : after.read a.path = .ok bytes)
    (hdecode : Archive.decode? bytes = some records) :
    records = (nodes ++ [descriptor]).map Node.record := by
  obtain ⟨bytes', hread', hdecode'⟩ := h.archive
  obtain rfl : bytes = bytes' := Except.ok.inj (hread.symm.trans hread')
  exact Option.some.inj (hdecode.symm.trans hdecode')

/-- The staging file stands in a directory, where nothing stood before. -/
theorem Packed.vacant {place : Location} {records : List Record} {a : Artifact} {after : FileTree}
    (h : b.Packed s output extension place records a after) (hs : s.tree.WellFormed) :
    ∃ dir name, place = dir ++ [name] ∧
      (s.tree.makeDirectories output).tree.get? dir = some .directory ∧
      (s.tree.makeDirectories output).tree.get? place = none := by
  have hmakes := FileTree.makes_makeDirectories s.tree output
  obtain ⟨dir, name, hlocate, hplace, hvacant⟩ := stagingPlace_eq_ok h.staged
  refine ⟨dir, name, hplace, ?_, hvacant⟩
  obtain ⟨entry, hentry⟩ := FileTree.locate_eq_ok_iff.mp hlocate
  have hcheck := (FileTree.place_eq_entry_iff.mp hentry).1
  rcases hmakes.isDirectory h.made with hempty | hdirectory
  · -- A path without text leads nowhere.
    have hbytes : output.bytes = [] := by simpa [Path.isEmpty] using hempty
    exact absurd hbytes ((Path.check_eq_ok_iff output).mp hcheck).2.2
  · obtain ⟨loc, hloc⟩ := FileTree.isDirectory_iff.mp hdirectory
    rw [hentry] at hloc
    cases hloc
    exact FileTree.get?_of_place (hmakes.wellFormed hs).toRooted hentry

/-- A bundle that is packed away from its payload gives an archive of it. -/
theorem Packed.holds {place : Location} {records : List Record} {a : Artifact} {after : FileTree}
    (h : b.Packed s output extension place records a after) (hs : s.tree.WellFormed)
    (hoff : ¬ b.ReachesOutput (s.tree.makeDirectories output).tree output) :
    ∃ nodes descriptor,
      b.Holds (s.tree.makeDirectories output).tree after a nodes descriptor := by
  obtain ⟨hgrows, hready, -⟩ := FileTree.makes_makeDirectories s.tree output
  have hready := hready hs
  obtain ⟨dir, name, rfl, hdir, hvacant⟩ := h.vacant hs
  obtain ⟨hchecked, -, hstaging, hwalked, hrenamed, content, hread, rfl⟩ := h
  generalize (s.tree.makeDirectories output).tree = ready at *
  have hoff : (ready.stage (dir ++ [name])).KeepsOff b.payload (dir ++ [name]) :=
    not_not.mp fun hreaches => hoff ⟨_, hstaging, hreaches⟩
  obtain ⟨hdescriptor, hpayload⟩ := check_eq_ok s.tree hchecked
  have hpayload' : ready.isDirectory b.payload = true := by
    obtain ⟨loc, hplace⟩ := FileTree.isDirectory_iff.mp hpayload
    exact FileTree.isDirectory_iff.mpr ⟨loc, hgrows.place hplace⟩
  -- The walk goes over the tree with the staging file in it.
  obtain ⟨hwhole, file, bytes, executable, hname, hentry, rfl⟩ := contents_eq_ok_iff.mp hwalked
  obtain ⟨hunfolding, hunbroken, hlinks⟩ :=
    FileTree.walk_of_insert hready hdir hvacant hoff hpayload' hwhole
  -- The descriptor was there all the time.
  have hentry' : ready.entryAt b.descriptor = .ok (.file bytes executable) := by
    obtain ⟨bytes', executable', hfile⟩ := FileTree.isFile_iff.mp hdescriptor
    have hfile' := hgrows.entryAt hfile
    rw [FileTree.stage, FileTree.entryAt_insert_of_entryAt hvacant hfile'] at hentry
    cases hentry
    exact hfile'
  -- What is read back is what was packed, and the archive gives back its records.
  have hcontent := FileTree.read_of_rename (FileTree.get?_insert_self (by simp) _) hrenamed hread
  refine ⟨_, ⟨[file], .file bytes executable⟩, hunfolding, hunbroken, ⟨file, hname, rfl⟩, hentry',
    rfl, ⟨content, hread, ?_⟩, fileCount_eq _⟩
  rw [hcontent, FileTree.stage, payloadRecords_eq hlinks, List.map_append, List.map_singleton]
  refine Archive.decode?_encode fun r hr => ?_
  rcases List.mem_append.mp hr with hr | hr
  · obtain ⟨n, hn, rfl⟩ := List.mem_map.mp hr
    exact record_fits_of_unfolding hready hunfolding n hn
  · rw [List.mem_singleton.mp hr]
    exact record_fits_of_descriptor hready hname hentry'

/-- An archive that was made holds the payload tree, links resolved, and then
the descriptor. The tree is that of the walk: the given one, in which the
output directory and those above it have been made where they were missing. -/
theorem assemble_holds {a : Artifact} (hs : s.tree.WellFormed)
    (h : (b.assemble output extension).run s = .ok a s')
    (hoff : ¬ b.ReachesOutput (s.tree.makeDirectories output).tree output) :
    s.tree.Extends (s.tree.makeDirectories output).tree ∧
      (s.tree.isDirectory output = true → (s.tree.makeDirectories output).tree = s.tree) ∧
      ∃ nodes descriptor,
        b.Holds (s.tree.makeDirectories output).tree s'.tree a nodes descriptor := by
  obtain ⟨place, records, hpacked⟩ := assemble_eq_ok_iff.mp ⟨s', h, rfl⟩
  refine ⟨(FileTree.makes_makeDirectories s.tree output).grows, fun hdirectory => ?_,
    hpacked.holds hs hoff⟩
  rw [FileTree.makeDirectories_of_isDirectory hdirectory]

/-! ### A project -/

/-- The location of names given as texts. -/
def locationOf (names : List String) : Location := names.map Text.bytesOf

/-- A project whose payload has a link, a socket and a file that is named like
the descriptor, with an output directory beside it. -/
def projectTree : FileTree where
  current := []
  entries := [
    (locationOf ["p"], .directory),
    (locationOf ["p", "package.json"], .file (Text.bytesOf "outer") false),
    (locationOf ["p", "dist"], .directory),
    (locationOf ["p", "dist", "b"], .directory),
    (locationOf ["p", "dist", "l"], .link (.ofString "b")),
    (locationOf ["p", "dist", "package.json"], .file (Text.bytesOf "inner") true),
    (locationOf ["p", "dist", "s"], .special),
    (locationOf ["out"], .directory)]

/-- A session with the files of the project. -/
def projectSession : Session := { tree := projectTree }

/-- The bundle of the project in the directory `p`. -/
def projectBundle : Bundle := .ofRoot (.ofString "p") "demo" {}

/-- The descriptor of the project has a name. -/
theorem projectBundle_fileName? :
    projectBundle.descriptor.fileName? = some (Text.bytesOf "package.json") := by
  cbv

/-- The output directory of the project. -/
def projectOutput : Path := .ofString "out"

/-- Where the archive of the project is written before it gets its name. -/
def projectStaging : Location := locationOf ["out", ".tmp0"]

/-- The files of the project make up a tree. -/
theorem projectTree_wellFormed : projectTree.WellFormed :=
  FileTree.wellFormed_of_entries rfl (by decide)

/-- The files of the project make up a tree together with the staging file. -/
theorem projectTree_stage_wellFormed : (projectTree.stage projectStaging).WellFormed :=
  FileTree.wellFormed_of_entries rfl (by decide)

/-- The output directory of the project is there already. -/
theorem projectTree_makeDirectories :
    projectTree.makeDirectories projectOutput = ⟨projectTree, none⟩ := by
  cbv

/-- The staging file goes into it. -/
theorem projectTree_stagingPlace :
    projectTree.stagingPlace projectOutput = .ok projectStaging := by
  cbv

/-- The walk of the payload: two directories, one behind a link, a file and a special
file. -/
theorem projectTree_walk :
    (projectTree.stage projectStaging).walk projectBundle.payload = ⟨[
      ⟨.ofString "p/dist/b", [Text.bytesOf "b"], .directory⟩,
      ⟨.ofString "p/dist/l", [Text.bytesOf "l"], .directory⟩,
      ⟨.ofString "p/dist/package.json", [Text.bytesOf "package.json"],
        .file (Text.bytesOf "inner") true⟩,
      ⟨.ofString "p/dist/s", [Text.bytesOf "s"], .special⟩], none⟩ := by
  have hlocate : (projectTree.stage projectStaging).locate projectBundle.payload
      = .ok (locationOf ["p", "dist"]) := by
    cbv
  have hnames : (projectTree.stage projectStaging).childNames (locationOf ["p", "dist"])
      = ["b", "l", "package.json", "s"].map Text.bytesOf := by
    cbv
  -- The walk carries a proof that it ends, so it is unfolded name by name before it is run.
  rw [FileTree.walk_eq hlocate hnames]
  simp only [List.map_cons, List.map_nil, FileTree.walkNames_cons]
  cbv

/-- What the payload of the project leads to: the link leads to the directory
beside it. -/
theorem projectTree_unfolding : ∃ nodes,
    (projectTree.stage projectStaging).Unfolding projectBundle.payload nodes ∧
      ∀ n ∈ nodes, ∃ file ∈ ["b", "package.json"],
        (projectTree.stage projectStaging).locate (projectBundle.payload.descend n.names)
          = .ok (locationOf ["p", "dist", file]) := by
  have hpayload : (projectTree.stage projectStaging).isDirectory projectBundle.payload = true := by
    cbv
  have hunfolding := FileTree.walk_unfolding projectTree_stage_wellFormed.toRooted hpayload
    (projectTree_stage_wellFormed.properBelow _) (by rw [projectTree_walk])
  -- Every node of the unfolding was visited; the link leads to the directory beside it.
  refine ⟨_, hunfolding, fun n hn => ?_⟩
  rw [projectTree_walk] at hn
  have hn : n.names = [Text.bytesOf "b"] ∨ n.names = [Text.bytesOf "l"]
      ∨ n.names = [Text.bytesOf "package.json"] := by
    revert n
    decide
  rcases hn with h | h | h
  · exact ⟨"b", by simp, by rw [h]; cbv⟩
  · exact ⟨"b", by simp, by rw [h]; cbv⟩
  · exact ⟨"package.json", by simp, by rw [h]; cbv⟩

/-- The payload of the project does not lead to the output directory. -/
theorem projectTree_not_reachesOutput :
    ¬ projectBundle.ReachesOutput (projectTree.makeDirectories projectOutput).tree
      projectOutput := by
  rw [projectTree_makeDirectories]
  rintro ⟨place, hplace, hreaches⟩
  rw [projectTree_stagingPlace] at hplace
  cases hplace
  obtain ⟨nodes, hunfolding, hnodes⟩ := projectTree_unfolding
  -- Neither the payload nor what it leads to lies above the staging file.
  refine hreaches (FileTree.keepsOff_of_unfolding projectTree_stage_wellFormed.toRooted hunfolding
    (FileTree.get?_insert_self (by decide) _) ?_ fun n hn => ?_)
  · exact ⟨locationOf ["p", "dist"], by cbv, by decide, by decide⟩
  · obtain ⟨file, hfile, hlocate⟩ := hnodes n hn
    refine ⟨_, hlocate, ?_⟩
    clear hlocate
    revert file
    decide

/-- The project is packed, whatever the digest of its archive is. -/
theorem exists_assemble_project : ∃ a s',
    (projectBundle.assemble projectOutput "tgz").run projectSession = .ok a s' := by
  -- The steps are evaluated for any content, since the archive itself is not needed.
  have hread (content : Bytes) :
      (((projectTree.stage projectStaging).erase projectStaging).insert
        (locationOf ["out", "demo.tgz"]) (.file content false)).read
        (projectBundle.archivePath projectOutput "tgz") = .ok content := by
    cbv
  have hrename (content : Bytes) : (projectTree.stage projectStaging).rename projectStaging
      (projectBundle.archivePath projectOutput "tgz") content
        = .ok (((projectTree.stage projectStaging).erase projectStaging).insert
          (locationOf ["out", "demo.tgz"]) (.file content false)) := by
    cbv
  have hchecked : check projectTree projectBundle projectOutput = .ok () := by
    cbv
  have hwalked : ∃ records, contents (projectTree.stage projectStaging) projectBundle
      ((projectTree.stage projectStaging).walk projectBundle.payload) = .ok records := by
    simp only [contents_eq_ok_iff, projectTree_walk]
    have hentry : (projectTree.stage projectStaging).entryAt projectBundle.descriptor
        = .ok (.file (Text.bytesOf "outer") false) := by
      cbv
    exact ⟨_, trivial, _, _, _, projectBundle_fileName?, hentry, rfl⟩
  obtain ⟨records, hwalked⟩ := hwalked
  exact exists_assemble hchecked projectTree_makeDirectories projectTree_stagingPlace hwalked
    (hrename _) (hread _)

/-- The archive of the project, made away from its payload. -/
theorem assemble_holds_project : ∃ a s', projectTree.WellFormed ∧
    (projectBundle.assemble projectOutput "tgz").run projectSession = .ok a s' ∧
    ¬ projectBundle.ReachesOutput (projectTree.makeDirectories projectOutput).tree
      projectOutput ∧
    ∃ nodes descriptor, projectBundle.Holds (projectTree.makeDirectories projectOutput).tree s'.tree
      a nodes descriptor := by
  obtain ⟨a, s', h⟩ := exists_assemble_project
  exact ⟨a, s', projectTree_wellFormed, h, projectTree_not_reachesOutput,
    (assemble_holds projectTree_wellFormed h projectTree_not_reachesOutput).2.2⟩

end Promotion.Bundle
