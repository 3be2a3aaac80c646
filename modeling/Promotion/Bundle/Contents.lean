import Promotion.Archive.Record
import Promotion.Bundle.Basic
import Promotion.FileTree.Walk
import Promotion.Log.Event

/-!
# `Promotion.Bundle.Contents`: what goes into a bundle's archive

The archive of a bundle holds everything below the payload directory, under
the names that lead there, and after that the descriptor under its file
name. Links are packed as what they lead to; sockets and the like are left
out.

* `Bundle.payloadRecords`: the records of a walk over the payload.
* `Bundle.contents`: all records of the archive.
-/

set_option autoImplicit false

namespace Promotion

open Promotion.Archive (Record)
open Promotion.Text (Bytes)

namespace Visit

/-- The path of a visit from where its walk started. -/
def relativePath (v : Visit) : Bytes := [Path.separator].intercalate v.names

/-- The record of a visit, if there is one for what was met. -/
def record? (v : Visit) : Option Record :=
  match v.entry with
  | .directory => some (.ofDirectory v.relativePath)
  | .file content executable => some (.ofFile v.relativePath content executable)
  | _ => none

/-- Whether a file was met. -/
def isFile (v : Visit) : Bool :=
  match v.entry with
  | .file _ _ => true
  | _ => false

end Visit

namespace Bundle

/-- The part of the program that the events come from. -/
def target : String := "promoter::bundle::assembler"

/-- The records of the payload, as a walk brings them. -/
def payloadRecords (w : Walk) : List Record := w.visits.filterMap Visit.record?

/-- How many files a walk met. -/
def fileCount (w : Walk) : Nat := w.visits.countP Visit.isFile

/-- What is told about the visits of a walk that have no record. -/
def skipped (b : Bundle) (w : Walk) : List Event :=
  (w.visits.filter fun v => v.record?.isNone).map fun v =>
    .debug target "Skipping special file" [("bundle", b.name), ("path", v.path.display)]

/-- The record of the descriptor, or why there is none. -/
def descriptorRecord (t : FileTree) (b : Bundle) : Except String Record :=
  match b.descriptor.fileName? with
  | none => .error s!"invalid descriptor path {b.descriptor.display}"
  | some name =>
    match t.entryAt b.descriptor with
    | .ok (.file content executable) => .ok (.ofFile name content executable)
    | .ok _ => .error (FileTree.unreadableAt b.descriptor .notFound)
    | .error fault => .error (FileTree.unreadableAt b.descriptor fault)

/-- The records of the archive after a walk over the payload, or why they
cannot be had. -/
def contents (t : FileTree) (b : Bundle) (w : Walk) : Except String (List Record) :=
  match w.breakage with
  | some reason => .error reason
  | none => (descriptorRecord t b).map fun r => payloadRecords w ++ [r]

end Bundle

end Promotion
