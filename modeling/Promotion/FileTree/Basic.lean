import Promotion.Path.Basic

/-!
# `Promotion.FileTree.Basic`: the state of a file system

A file system is a finite map from locations to entries. A location is the
row of names that leads from the top to an entry; the top itself is always a
directory. Links hold the path that they were made with. What a special file is
to those who open it is kept apart from the map, as `Device`.

* `FileTree.get?`: the entry at a location.
* `FileTree.device`: what a special file answers when it is opened.
* `FileTree.insert`, `FileTree.erase`: the two changes.
* `FileTree.childNames`: the names in a directory, in the order of their
  bytes.
-/

set_option autoImplicit false

namespace Promotion

open Promotion.Text (Bytes)

/-- The name of an entry in its directory. -/
abbrev Name := Bytes

/-- The names that lead from the top to an entry. -/
abbrev Location := List Name

/-- What stands at a location. -/
inductive Entry where
  | file (content : Bytes) (executable : Bool)
  | directory
  | link (target : Path)
  /-- A socket, a device or the like. -/
  | special
  deriving DecidableEq, Repr

/-- What a special file answers when it is opened. It answers alike each time and
keeps nothing of what it is given. So this is a device, or the end of a pipe as
far as the process at the other end does not change its mind; what refuses does so
for the reason that a socket gives. -/
structure Device where
  /-- What reading brings, if anything can be read. -/
  content : Option Bytes
  /-- Whether writing is taken. -/
  writable : Bool
  deriving DecidableEq, Repr

/-- A socket can be neither read nor written as a file. -/
def Device.socket : Device := ⟨none, false⟩

/-- The null device takes everything and brings nothing. -/
def Device.null : Device := ⟨some [], true⟩

/-- A file system, and the directory that relative paths start from. -/
structure FileTree where
  current : Location
  entries : List (Location × Entry)
  /-- The special files that are no sockets. What is said of a location where no
  special file stands does not count. -/
  devices : List (Location × Device) := []
  deriving DecidableEq, Repr

namespace FileTree

/-- The entry at a location. -/
def get? (t : FileTree) (loc : Location) : Option Entry :=
  if loc = [] then some .directory
  else (t.entries.find? fun e => e.1 = loc).map (·.2)

/-- What the special file at a location answers. -/
def device (t : FileTree) (loc : Location) : Device :=
  ((t.devices.find? fun d => d.1 = loc).map (·.2)).getD .socket

/-- The file system without the entry at a location. -/
def erase (t : FileTree) (loc : Location) : FileTree :=
  { t with entries := t.entries.filter fun e => e.1 ≠ loc }

/-- The file system with an entry at a location, in place of what was there. -/
def insert (t : FileTree) (loc : Location) (entry : Entry) : FileTree :=
  { t with entries := (loc, entry) :: (t.erase loc).entries }

/-- The file system without a location and everything below it. -/
def eraseBelow (t : FileTree) (loc : Location) : FileTree :=
  { t with
    entries := t.entries.filter fun e => !loc.isPrefixOf e.1
    devices := t.devices.filter fun d => !loc.isPrefixOf d.1 }

/-- The location of the null device. -/
def nullLocation : Location := [Text.bytesOf "dev", Text.bytesOf "null"]

/-- The file system with the null device in its place, as every system has it,
unless something else stands in the way. -/
def withNullDevice (t : FileTree) : FileTree :=
  let directory := nullLocation.dropLast
  if t.get? directory ∈ [none, some .directory] && t.get? nullLocation ∈ [none, some .special] then
    let t := (t.insert directory .directory).insert nullLocation .special
    { t with devices := (nullLocation, .null) :: t.devices.filter fun d => d.1 ≠ nullLocation }
  else t

/-- The order of names. -/
def nameLe (a b : Name) : Bool := compare a b != .gt

/-- The name of a location in the directory `dir`, when it lies directly there. -/
def nameIn? (dir loc : Location) : Option Name :=
  match loc.getLast? with
  | some name => if loc = dir ++ [name] then some name else none
  | none => none

/-- The names in a directory, in order. -/
def childNames (t : FileTree) (dir : Location) : List Name :=
  ((t.entries.filterMap fun e => nameIn? dir e.1).eraseDups).mergeSort nameLe

/-- The locations of all directories. -/
def directories (t : FileTree) : List Location :=
  [] :: (t.entries.filter fun e => e.2 = .directory).map (·.1)

/-- The absolute path of a location. -/
def pathOf (loc : Location) : Path :=
  if loc = [] then ⟨[Path.separator]⟩
  else ⟨loc.flatMap fun name => Path.separator :: name⟩

end FileTree

end Promotion
