import Promotion.Archive.Basic
import Promotion.Bundle.Contents
import Promotion.Digest.Store
import Promotion.FileTree.Pending
import Promotion.Session

/-!
# `Promotion.Bundle.Assembly`: packing a bundle

An archive is written to a staging file in the output directory and gets its
name only when it is finished. On a failure the staging file is removed, so
that nothing stands under the name of the archive that did not stand there
before. The output directory must lie outside the payload, or the archive
would be packed into itself.

* `Bundle.check`: what is refused before anything is changed.
* `Bundle.assemble`: packs a bundle.
-/

set_option autoImplicit false

namespace Promotion

/-- An archive that was made. -/
structure Artifact where
  name : String
  path : Path
  /-- How many files of the payload it holds. -/
  files : Nat
  digest : String
  deriving DecidableEq, Repr

namespace FileTree

/-- The name of a staging file. -/
def stagingName (n : Nat) : Name := Text.bytesOf s!".tmp{n}"

/-- A location in a directory for a staging file, where nothing is. -/
def stagingPlace (t : FileTree) (directory : Path) : Except Fault Location :=
  match t.locate directory with
  | .error fault => .error fault
  | .ok dir =>
    let names := t.childNames dir
    match ((List.range (names.length + 1)).map stagingName).find? fun n => !names.contains n with
    | some name => .ok (dir ++ [name])
    | none => .error .alreadyThere

/-- The file system with an empty staging file. It stays empty until it is renamed,
which nothing can see but a walk that a link in the payload leads to it. There the
staging file would hold by then what the compressor has given out, the header of the
archive at least. -/
def stage (t : FileTree) (loc : Location) : FileTree := t.insert loc (.file [] false)

end FileTree

namespace Bundle

/-- Refuses a bundle that lacks its descriptor or its payload. -/
def checkParts (t : FileTree) (b : Bundle) : Except Failure Unit :=
  if !t.isFile b.descriptor then .error (.descriptorMissing b.name b.descriptor)
  else if !t.isDirectory b.payload then .error (.payloadMissing b.name b.payload)
  else .ok ()

/-- Refuses an output directory that lies in the payload, or will. -/
def checkOutput (t : FileTree) (b : Bundle) (output : Path) : Except Failure Unit :=
  match t.canonical b.payload with
  | .error fault => .error (.assemblyFailed b.name fault.message)
  | .ok payload =>
    match t.pending output with
    | .error fault => .error (.assemblyFailed b.name
        s!"could not resolve output directory {output.display}: {fault.message}")
    | .ok place =>
      if place.startsWith payload then .error (.outputInsidePayload b.name output b.payload)
      else .ok ()

/-- What is refused before anything is changed. -/
def check (t : FileTree) (b : Bundle) (output : Path) : Except Failure Unit := do
  checkParts t b
  checkOutput t b output

/-- Does work while a staging file stands in the output directory. Work that
succeeds gives the file its name, work that fails leaves it to be removed. -/
def whileStaging {α : Type} (b : Bundle) (output : Path) (work : Location → Action α) :
    Action α := do
  let place ← Action.reading (·.stagingPlace output) (.assemblyFailed b.name)
  Action.setTree ((← Action.tree).stage place)
  try work place
  catch failure =>
    Action.setTree ((← Action.tree).erase place)
    throw failure

/-- The bytes of the bundle's archive, and how many files of the payload it
holds. The payload is walked while the staging file stands; a payload from which a
link leads there has the staging file packed as it is then, empty. -/
def pack (b : Bundle) : Action (Text.Bytes × Nat) := do
  let t ← Action.tree
  let walk := t.walk b.payload
  Action.tellAll (b.skipped walk)
  match contents t b walk with
  | .error reason => throw (.assemblyFailed b.name reason)
  | .ok records => return (Archive.encode records, fileCount walk)

/-- Packs a bundle into an archive in the output directory. -/
def assemble (b : Bundle) (output : Path) (extension : String) : Action Artifact := do
  Action.ofExcept (check (← Action.tree) b output)
  Action.makeDirectories output (.fileWriteFailed output)
  let path := b.archivePath output extension
  Action.tell (.info target "Target package file" [("bundle", b.name), ("path", path.display)])
  let files ← b.whileStaging output fun place => do
    let (content, files) ← b.pack
    Action.writing (·.rename place path content) (.assemblyFailed b.name)
    return files
  let digest ← Digest.ofFile path
  Action.tell (.debug target "Bundle archive written"
    [("bundle", b.name), ("files", toString files), ("digest", digest)])
  return ⟨b.name, path, files, digest⟩

end Bundle

end Promotion
