import Promotion.CommandLine

/-!
# `Promotion.Main`: the program

The program reads the files that a run can reach into a `FileTree`, lets
`CommandLine.run` work on that, and writes back what has changed. It reads
what is below the current directory, below the paths that the arguments
name, and where links lead. Permissions cannot be read here, so that no file
counts as executable. Nor can it be told what a special file is: the null device
is known by its place, and every other one counts as a socket.
-/

set_option autoImplicit false

namespace Promotion.Disk

/-- Entries read from the disk. -/
abbrev Entries := List (Location × Entry)

/-- The names in a path. -/
def namesOf (path : String) : List String := (path.splitOn "/").filter fun name => !name.isEmpty

/-- The location of an absolute path without links. -/
def locationOf (path : String) : Location := (namesOf path).map Text.bytesOf

/-- The absolute path of a path. -/
def absolute (current path : String) : String :=
  if path.startsWith "/" then path else s!"{current}/{path}"

/-- The path without links that an existing entry has, or nothing. -/
def realPath (path : String) : IO String := do
  try return (← IO.FS.realPath path).toString catch _ => return ""

/-- Reads an entry of a directory, and with `below` all that lies under it. A
link is read as a link to where it leads in the end. -/
partial def readEntry (below : Bool) (directory name : String) : IO Entries := do
  let item : IO.FS.DirEntry := ⟨directory, name⟩
  let path := item.path.toString
  let loc := locationOf path
  match (← item.path.symlinkMetadata).type with
  | .file => return [(loc, .file (← IO.FS.readBinFile path).toList false)]
  | .symlink => return [(loc, .link (.ofString (← realPath path)))]
  | .other => return [(loc, .special)]
  | .dir =>
    let mut entries := [(loc, Entry.directory)]
    if below then
      for child in ← item.path.readDir do
        entries := (← readEntry true path child.fileName) ++ entries
    return entries

/-- Reads an entry if it is there. -/
def tryEntry (below : Bool) (directory name : String) : IO Entries := do
  try readEntry below directory name catch _ => return []

/-- Reads what stands on the way to an absolute path. -/
def readWay (path : String) : IO Entries := do
  let names := namesOf path
  let mut entries := []
  for n in List.range names.length do
    let directory ← realPath ("/" ++ "/".intercalate (names.take n))
    for name in names[n]?.toList do
      unless directory.isEmpty || name = "." || name = ".." do
        entries := entries ++ (← tryEntry false directory name)
  return entries

/-- The targets of the links among entries. -/
def targetsOf (entries : Entries) : List String :=
  entries.filterMap fun e =>
    match e.2 with
    | .link target => if target.isEmpty then none else some target.display
    | _ => none

/-- Reads what lies below absolute paths, and where links lead from there. -/
partial def readAll (entries : Entries) (read : List Location) : List String → IO Entries
  | [] => return entries
  | path :: rest => do
    let real ← realPath path
    let loc := locationOf real
    if real.isEmpty || loc.isEmpty || read.any fun done => done.isPrefixOf loc then
      let way ← readWay path
      readAll (entries ++ way) read rest
    else
      let way ← readWay path
      let names := namesOf real
      let found ← tryEntry true ("/" ++ "/".intercalate names.dropLast) (names.getLast?.getD "")
      readAll (found ++ entries ++ way) (loc :: read) (rest ++ targetsOf (found ++ way))

/-- The paths that an invocation names. -/
def pathsOf (i : Invocation) : List Path :=
  i.workspace.toList ++ match i.command with
    | .sync a => [a.source, a.destination] ++ a.output.toList
    | .bundle a => a.root.toList ++ a.output.toList
    | _ => []

/-- Writes back the entries that are new or changed. -/
def writeBack (before after : FileTree) : IO Unit := do
  let changed := after.entries.filter fun e => before.get? e.1 ≠ some e.2
  for (loc, entry) in changed.mergeSort fun a b => a.1.length ≤ b.1.length do
    let path := (FileTree.pathOf loc).display
    match entry with
    | .file content _ => IO.FS.writeBinFile path ⟨content.toArray⟩
    | .directory => IO.FS.createDir path
    | _ => pure ()

end Promotion.Disk

open Promotion Promotion.Disk in
/-- Runs the program with its arguments. -/
def main (arguments : List String) : IO UInt32 := do
  let around : Surroundings :=
    ⟨← IO.getEnv CommandLine.workspaceVariable, ← IO.getEnv CommandLine.logVariable⟩
  let current := (← IO.currentDir).toString
  let named := match Invocation.ofArguments around.workspace arguments with
    | .ok i => (pathsOf i).map fun p => absolute current p.display
    | .error _ => []
  let entries ← readAll [] [] (current :: named)
  let before : FileTree := { current := locationOf current, entries := entries }
  let (after, outcome) := CommandLine.run around arguments before
  writeBack before.withNullDevice after
  (← IO.getStdout).putStr outcome.printed
  (← IO.getStderr).putStr outcome.log
  return outcome.exitCode.toUInt32
