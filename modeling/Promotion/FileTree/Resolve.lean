import Promotion.FileTree.Basic
import Promotion.FileTree.Fault

/-!
# `Promotion.FileTree.Resolve`: what a path leads to

A path is followed step by step from the top or from the current directory.
A link on the way is replaced by the steps of its target; at most forty
links are followed.

* `FileTree.follow`: the place that steps lead to, which may be vacant.
* `FileTree.locate`: the location of an existing entry, links followed.
* `FileTree.isFile`, `FileTree.isDirectory`, `FileTree.canonical`,
  `FileTree.read`, `FileTree.readText`.
-/

set_option autoImplicit false

namespace Promotion

open Promotion.Text (Bytes)

/-- A step of a path. -/
inductive Step where
  | here
  | up
  | name (name : Name)
  /-- The separator at the end of a path, which only a directory may have. -/
  | slash
  deriving DecidableEq, Repr

namespace Path

/-- Names may have this many bytes. -/
def nameLimit : Nat := 255

/-- Paths must have fewer bytes than this. -/
def lengthLimit : Nat := 4096

/-- The step of a piece between separators. -/
def stepOf? (piece : Bytes) : Option Step :=
  if piece = [] then none
  else if piece = [dot] then some .here
  else if piece = [dot, dot] then some .up
  else some (.name piece)

/-- The steps of a path, a separator at its end apart. -/
def bareSteps (p : Path) : List Step :=
  (pieces 0 [] p.bytes).filterMap fun piece => stepOf? piece.1

/-- Whether a separator stands at the end of the path. -/
def endsInSlash (p : Path) : Bool := p.bytes.getLast? == some separator

/-- The steps of a path. -/
def steps (p : Path) : List Step :=
  p.bareSteps ++ if p.endsInSlash then [.slash] else []

/-- Where the steps of a path start. -/
def origin (p : Path) (current : Location) : Location :=
  if p.isAbsolute then [] else current

/-- Refuses a path that no file system takes. -/
def check (p : Path) : Except Fault Unit :=
  if p.bytes.contains 0 then .error .nulByte
  else if lengthLimit ≤ p.bytes.length then .error .nameTooLong
  else if p.isEmpty then .error .notFound
  else .ok ()

end Path

namespace FileTree

/-- This many links are followed. -/
def linkLimit : Nat := 40

/-- A place that steps lead to: that of an entry, or the vacant one of a name
in a directory, perhaps with a separator after the name. -/
inductive Place where
  | entry (loc : Location) (entry : Entry)
  | vacant (dir : Location) (name : Name) (slash : Bool)
  deriving DecidableEq, Repr

/-- Whether only the separator at the end is left of the steps, if anything. -/
def isLast (steps : List Step) : Bool := steps = [] || steps = [.slash]

/-- Follows steps from the directory `dir`, and `links` links on the way. A
link at the end is followed only if `last` says so. -/
def follow (t : FileTree) (last : Bool) (links : Nat) (dir : Location) (steps : List Step) :
    Except Fault Place :=
  match steps with
  | [] => .ok (.entry dir .directory)
  | .here :: rest => follow t last links dir rest
  | .slash :: rest => follow t last links dir rest
  | .up :: rest => follow t last links dir.dropLast rest
  | .name name :: rest =>
    if Path.nameLimit < name.length then .error .nameTooLong
    else match t.get? (dir ++ [name]) with
      | none =>
        if isLast rest then .ok (.vacant dir name (rest ≠ [])) else .error .notFound
      | some .directory => follow t last links (dir ++ [name]) rest
      | some (.link target) =>
        if rest = [] && !last then .ok (.entry (dir ++ [name]) (.link target))
        else match links with
          | 0 => .error .tooManyLinks
          | links + 1 =>
            if target.isEmpty then .error .notFound
            else follow t last links (target.origin dir) (target.steps ++ rest)
      | some entry =>
        if rest = [] then .ok (.entry (dir ++ [name]) entry) else .error .notDirectory
  termination_by (links, steps.length)

/-- The place that a path leads to. -/
def place (t : FileTree) (last : Bool) (p : Path) : Except Fault Place :=
  match p.check with
  | .error e => .error e
  | .ok () => t.follow last linkLimit (p.origin t.current) p.steps

/-- The location of the entry that a path leads to, links followed. -/
def locate (t : FileTree) (p : Path) : Except Fault Location :=
  match t.place true p with
  | .ok (.entry loc _) => .ok loc
  | .ok (.vacant _ _ _) => .error .notFound
  | .error e => .error e

/-- The directory that steps lead to. -/
def directoryAt (t : FileTree) (start : Location) (steps : List Step) : Except Fault Location :=
  match t.follow true linkLimit start steps with
  | .ok (.entry loc .directory) => .ok loc
  | .ok (.entry _ _) => .error .notDirectory
  | .ok (.vacant _ _ _) => .error .notFound
  | .error e => .error e

/-- The entry that a path leads to, links followed. -/
def entryAt (t : FileTree) (p : Path) : Except Fault Entry :=
  match t.place true p with
  | .ok (.entry _ entry) => .ok entry
  | .ok (.vacant _ _ _) => .error .notFound
  | .error e => .error e

/-- Whether a path leads to a file. -/
def isFile (t : FileTree) (p : Path) : Bool :=
  match t.entryAt p with
  | .ok (.file _ _) => true
  | _ => false

/-- Whether a path leads to a directory. -/
def isDirectory (t : FileTree) (p : Path) : Bool :=
  match t.entryAt p with
  | .ok .directory => true
  | _ => false

/-- The path from the top to what a path leads to, without links. -/
def canonical (t : FileTree) (p : Path) : Except Fault Path :=
  (t.locate p).map pathOf

/-- The absolute path of the current directory. -/
def currentPath (t : FileTree) : Path := pathOf t.current

/-- What reading brings of the entry at a location. -/
def contentAt (t : FileTree) (loc : Location) : Entry → Except Fault Bytes
  | .file content _ => .ok content
  | .directory => .error .isDirectory
  | .link _ => .error .tooManyLinks
  | .special =>
    match (t.device loc).content with
    | some content => .ok content
    | none => .error .noDevice

/-- The bytes of a file, or of a special file that can be read. -/
def read (t : FileTree) (p : Path) : Except Fault Bytes :=
  match t.place true p with
  | .ok (.entry loc entry) => t.contentAt loc entry
  | .ok (.vacant _ _ _) => .error .notFound
  | .error e => .error e

/-- The text of a file. -/
def readText (t : FileTree) (p : Path) : Except Fault String :=
  match t.read p with
  | .error e => .error e
  | .ok bytes =>
    match Text.stringOf? bytes with
    | some s => .ok s
    | none => .error .notText

/-- The paths of the directories directly below a path, links to directories
counting as such. -/
def subdirectories (t : FileTree) (p : Path) : Except Fault (List Path) :=
  match t.place true p with
  | .ok (.entry loc .directory) =>
    .ok (((t.childNames loc).map p.child).filter t.isDirectory)
  | .ok (.entry _ _) => .error .notDirectory
  | .ok (.vacant _ _ _) => .error .notFound
  | .error e => .error e

end FileTree

end Promotion
