import Promotion.Text.Utf8

/-!
# `Promotion.Archive.Record`: the entries of an archive

An archive is a row of records, each a file or a directory under a path that
is relative to where the archive is unpacked. Records are made with the same
owner, time and permissions everywhere, so that an archive depends on names
and contents alone.
-/

set_option autoImplicit false

namespace Promotion.Archive

open Promotion.Text (Bytes)

/-- What a record holds. -/
inductive Kind where
  | file
  | directory
  deriving DecidableEq, Repr

/-- One entry of an archive. -/
structure Record where
  path : Bytes
  kind : Kind
  mode : Nat
  owner : Nat
  group : Nat
  /-- When the entry was changed, in seconds since 1970. -/
  modified : Nat
  content : Bytes
  deriving DecidableEq, Repr

namespace Record

/-- The permissions of directories and of files that can be executed. -/
def openMode : Nat := 0o755

/-- The permissions of all other files. -/
def plainMode : Nat := 0o644

/-- The time that all records carry. -/
def standardTime : Nat := 1153704088

/-- The record of a directory. -/
def ofDirectory (path : Bytes) : Record :=
  ⟨path, .directory, openMode, 0, 0, standardTime, []⟩

/-- The record of a file. -/
def ofFile (path content : Bytes) (executable : Bool) : Record :=
  ⟨path, .file, if executable then openMode else plainMode, 0, 0, standardTime, content⟩

end Record

end Promotion.Archive
