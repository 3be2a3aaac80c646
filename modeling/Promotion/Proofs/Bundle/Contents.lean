import Promotion.Bundle.Contents
import Promotion.Proofs.Archive.Tar
import Promotion.Proofs.FileTree.Unfolding

/-!
# `Promotion.Proofs.Bundle.Contents`: the records of a bundle

* `Node.record`: how a node of the payload stands in an archive.
* `payloadRecords_eq`, `fileCount_eq`: the records and the count of a walk are
  those of the nodes that it visited.
* `contents_eq_ok_iff`: the records of the payload and, last, the descriptor.
* `record_fits_of_unfolding`, `record_fits_of_descriptor`: the nodes below a path
  and the descriptor have records that an archive gives back.
-/

set_option autoImplicit false

namespace Promotion

open Promotion.Archive (Record)
open Promotion.FileTree (Node)
open Promotion.Text (Bytes)

variable {t : FileTree} {b : Bundle} {path : Path} {names : List Name} {entry : Entry}

namespace FileTree.Node

/-- The entry of an archive for a node: its path from where the tree starts,
and its content, with the same owner, time and permissions for all. -/
def record (n : Node) : Record where
  path := [Path.separator].intercalate n.names
  kind := match n.entry with
    | .file _ _ => .file
    | _ => .directory
  mode := match n.entry with
    | .file _ false => 0o644
    | _ => 0o755
  owner := 0
  group := 0
  modified := Record.standardTime
  content := match n.entry with
    | .file content _ => content
    | _ => []

/-- Whether the node is a file. -/
def isFile (n : Node) : Bool :=
  match n.entry with
  | .file _ _ => true
  | _ => false

/-- The record of a file holds its content and its mode. -/
theorem record_file (content : Bytes) (executable : Bool) :
    record ⟨names, .file content executable⟩
      = .ofFile ([Path.separator].intercalate names) content executable := by
  cases executable <;> rfl

/-- The record of a directory is told by its path. -/
theorem record_directory :
    record ⟨names, .directory⟩ = .ofDirectory ([Path.separator].intercalate names) := rfl

end FileTree.Node

namespace Bundle

open FileTree (nodesOf)

/-! ### Visits and nodes -/

/-- Links are visited as what they lead to, so the records of a walk are those
of the nodes among its visits. -/
theorem payloadRecords_eq {w : Walk} (h : ∀ v ∈ w.visits, ∀ target, v.entry ≠ .link target) :
    payloadRecords w = (nodesOf w.visits).map Node.record := by
  rw [payloadRecords, nodesOf, List.map_map, ← List.filterMap_eq_map, List.filterMap_filter]
  refine List.filterMap_congr fun v hv => ?_
  obtain ⟨path, names, entry⟩ := v
  cases entry with
  | file content executable => simp [Visit.record?, Visit.relativePath, FileTree.Node.record_file]
  | directory => simp [Visit.record?, Visit.relativePath, FileTree.Node.record_directory]
  | link target => exact absurd rfl (h _ hv target)
  | special => simp [Visit.record?]

/-- The files that are counted are the nodes that are files. -/
theorem fileCount_eq (w : Walk) : fileCount w = (nodesOf w.visits).countP Node.isFile := by
  rw [fileCount, nodesOf, List.countP_map, List.countP_filter]
  refine List.countP_congr fun v _ => ?_
  obtain ⟨path, names, entry⟩ := v
  cases entry <;> simp [Visit.isFile, FileTree.Node.isFile]

/-! ### The descriptor -/

/-- The record of the descriptor is that of a file under its last name. -/
theorem descriptorRecord_eq_ok_iff {r : Record} :
    descriptorRecord t b = .ok r ↔ ∃ name content executable, b.descriptor.fileName? = some name ∧
      t.entryAt b.descriptor = .ok (.file content executable) ∧
      r = Node.record ⟨[name], .file content executable⟩ := by
  -- A path of one name is that name.
  simp only [FileTree.Node.record_file, List.intercalate_singleton]
  unfold descriptorRecord
  split
  next h => simp [h]
  next name hname =>
    split
    next content executable h => simp [hname, h, eq_comm]
    next hentry h =>
      simp only [h, reduceCtorEq, Except.ok.injEq, false_iff]
      rintro ⟨_, content, executable, -, rfl, -⟩
      exact hentry content executable rfl
    next h => simp [h]

/-- An archive holds the payload and then the descriptor, when both can be read. -/
theorem contents_eq_ok_iff {w : Walk} {records : List Record} :
    contents t b w = .ok records ↔ w.breakage = none ∧
      ∃ name content executable, b.descriptor.fileName? = some name ∧
        t.entryAt b.descriptor = .ok (.file content executable) ∧
        records = payloadRecords w ++ [Node.record ⟨[name], .file content executable⟩] := by
  unfold contents
  -- A walk that broke off stops the packing before the descriptor is read.
  cases w.breakage with
  | some reason => simp
  | none =>
    cases h : descriptorRecord t b with
    | error reason =>
      simp only [Except.map, reduceCtorEq, true_and, false_iff]
      rintro ⟨name, content, executable, hname, hentry, -⟩
      rw [descriptorRecord_eq_ok_iff.mpr ⟨name, content, executable, hname, hentry, rfl⟩] at h
      cases h
    | ok r =>
      obtain ⟨name, content, executable, hname, hentry, rfl⟩ := descriptorRecord_eq_ok_iff.mp h
      simp [Except.map, hname, hentry, eq_comm]

/-! ### Records that an archive gives back -/

/-- A record of a file or directory of acceptable size and path fits. -/
theorem record_fits {n : Node} (hne : [Path.separator].intercalate n.names ≠ [])
    (hzero : 0 ∉ [Path.separator].intercalate n.names)
    (hlength : ([Path.separator].intercalate n.names).length < Path.lengthLimit)
    (hsize : ∀ content executable, n.entry = .file content executable →
      content.length < Nat.pow 2 64) : n.record.Fits where
  path_ne_nil := hne
  zero_notMem := hzero
  path_length := Nat.lt_trans hlength (by decide)
  mode := by
    show (match n.entry with | .file _ false => 0o644 | _ => 0o755) < _
    split <;> decide
  owner := by show 0 < _; decide
  group := by show 0 < _; decide
  modified := by show Record.standardTime < _; decide
  content_length := by
    show (match n.entry with | .file content _ => content | _ => []).length < _
    split
    next content executable h => exact hsize content executable h
    · decide

/-- What an acceptable path leads to in a file system has an acceptable size. -/
theorem length_lt_of_entryAt {p : Path} {content : Bytes} {executable : Bool} (ht : t.WellFormed)
    (h : t.entryAt p = .ok (.file content executable)) : content.length < Nat.pow 2 64 := by
  obtain ⟨loc, hplace⟩ := FileTree.entryAt_eq_ok_iff.mp h
  exact ht.size loc content executable (FileTree.get?_of_place ht.toRooted hplace)

/-- A path that leads to an entry is one the system takes. -/
theorem check_of_entryAt {p : Path} (h : t.entryAt p = .ok entry) : p.check = .ok () := by
  obtain ⟨loc, hplace⟩ := FileTree.entryAt_eq_ok_iff.mp h
  exact (FileTree.place_eq_entry_iff.mp hplace).1

/-- The nodes of an unfolding have records that an archive gives back. -/
theorem record_fits_of_unfolding {nodes : List Node} (ht : t.WellFormed)
    (h : t.Unfolding path nodes) : ∀ n ∈ nodes, n.record.Fits := by
  rintro ⟨names, entry⟩ hn
  obtain ⟨hne, hproper, hentry, -⟩ := (h.mem_iff names entry).mp hn
  have hcheck := (Path.check_eq_ok_iff _).mp (check_of_entryAt hentry)
  -- The system took the whole path, so the part of it inside the archive fits as well.
  refine record_fits ?_ (Path.zero_notMem_intercalate hproper)
    (Nat.lt_of_le_of_lt (Path.length_intercalate_le hproper) hcheck.2.1) ?_
  · obtain ⟨name, below, rfl⟩ := List.exists_cons_of_ne_nil hne
    rw [Path.intercalate_cons]
    simp [(hproper name (by simp)).ne_nil]
  · rintro content executable rfl
    exact length_lt_of_entryAt ht hentry

/-- So has the descriptor. -/
theorem record_fits_of_descriptor {name content : Bytes} {executable : Bool} (ht : t.WellFormed)
    (hname : b.descriptor.fileName? = some name)
    (hentry : t.entryAt b.descriptor = .ok (.file content executable)) :
    (Node.record ⟨[name], .file content executable⟩).Fits := by
  obtain ⟨hne, -, -, hpart, -⟩ :=
    Path.of_mem_bareSteps (Path.name_mem_bareSteps_of_fileName? hname)
  obtain ⟨hzero, hlength, -⟩ := (Path.check_eq_ok_iff _).mp (check_of_entryAt hentry)
  -- The name of the descriptor is a part of its path.
  refine record_fits ?_ ?_ ?_ ?_
  · simpa using hne
  · simpa using fun hmem => hzero (hpart.subset hmem)
  · simpa using Nat.lt_of_le_of_lt hpart.length_le hlength
  · rintro content executable h
    cases h
    exact length_lt_of_entryAt ht hentry

end Bundle

end Promotion
