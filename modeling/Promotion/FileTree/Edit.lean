import Promotion.FileTree.Resolve

/-!
# `Promotion.FileTree.Edit`: changing a file system by path

* `FileTree.makeDirectory`: one directory.
* `FileTree.makeDirectories`: a directory and those above it; what was made
  before a failure stays.
* `FileTree.write`: the content of a file, new or not.
* `FileTree.rename`: a finished file takes a name, in place of what had it.
* `FileTree.makeLink`, `FileTree.makeSpecial`, `FileTree.remove`,
  `FileTree.setExecutable`.
-/

set_option autoImplicit false

namespace Promotion.FileTree

open Promotion.Text (Bytes)

/-- The directory and the name that a path gives to a new entry; `whole` is
the fault of a path that does not end in a name. -/
def target (t : FileTree) (p : Path) (whole : Fault) : Except Fault (Location × Name) :=
  match p.check with
  | .error e => .error e
  | .ok () =>
    let start := p.origin t.current
    match p.bareSteps.getLast? with
    | some (.name name) =>
      match t.directoryAt start p.bareSteps.dropLast with
      | .error e => .error e
      | .ok dir => .ok (dir, name)
    | _ =>
      match t.directoryAt start p.bareSteps.dropLast with
      | .error e => .error e
      | .ok _ => .error whole

/-- The location that a path gives to a new entry; names must not be too long. -/
def targetLocation (t : FileTree) (p : Path) (whole : Fault) : Except Fault Location :=
  match t.target p whole with
  | .error e => .error e
  | .ok (dir, name) =>
    if Path.nameLimit < name.length then .error .nameTooLong else .ok (dir ++ [name])

/-- Adds an entry where nothing is. -/
def addNew (t : FileTree) (p : Path) (entry : Entry) : Except Fault FileTree :=
  match t.targetLocation p .alreadyThere with
  | .error e => .error e
  | .ok loc =>
    match t.get? loc with
    | some _ => .error .alreadyThere
    | none => .ok (t.insert loc entry)

/-- Makes a directory. -/
def makeDirectory (t : FileTree) (p : Path) : Except Fault FileTree := t.addNew p .directory

/-- A change that may stop half way: the file system it leaves, and the fault
that stopped it. -/
structure Change where
  tree : FileTree
  fault : Option Fault

/-- Makes a directory unless it is there already. -/
def ensureDirectory (t : FileTree) (p : Path) : Change :=
  match t.makeDirectory p with
  | .ok t => ⟨t, none⟩
  | .error e => if t.isDirectory p then ⟨t, none⟩ else ⟨t, some e⟩

/-- Makes a directory, and the ones above it where they are missing. The fuel
is the number of components of the path. -/
def makeDirectoriesFrom : Nat → FileTree → Path → Change
  | 0, t, p => if p.isEmpty then ⟨t, none⟩ else t.ensureDirectory p
  | fuel + 1, t, p =>
    if p.isEmpty then ⟨t, none⟩
    else match t.makeDirectory p, p.parent? with
      | .error .notFound, some parent =>
        match makeDirectoriesFrom fuel t parent with
        | ⟨t, none⟩ => t.ensureDirectory p
        | change => change
      | _, _ => t.ensureDirectory p

/-- Makes a directory, and the ones above it where they are missing. -/
def makeDirectories (t : FileTree) (p : Path) : Change :=
  makeDirectoriesFrom p.components.length t p

/-- Writes a file. A new file is not executable, an old one stays as it is. A
special file that takes what is written does not change. -/
def write (t : FileTree) (p : Path) (content : Bytes) : Except Fault FileTree :=
  if p.endsInSlash && !p.bareSteps.isEmpty then
    match t.target p .isDirectory with
    | .error e => .error e
    | .ok _ => .error .isDirectory
  else match t.place true p with
    | .error e => .error e
    | .ok (.entry loc (.file _ executable)) => .ok (t.insert loc (.file content executable))
    | .ok (.entry _ .directory) => .error .isDirectory
    | .ok (.entry loc .special) => if (t.device loc).writable then .ok t else .error .noDevice
    | .ok (.entry _ (.link _)) => .error .tooManyLinks
    | .ok (.vacant _ _ true) => .error .isDirectory
    | .ok (.vacant dir name false) => .ok (t.insert (dir ++ [name]) (.file content false))

/-- Gives a file that was filled at a location the name that a path says, in
place of the file or link that has it. -/
def rename (t : FileTree) (loc : Location) (p : Path) (content : Bytes) :
    Except Fault FileTree :=
  match t.targetLocation p .busy with
  | .error e => .error e
  | .ok new =>
    if p.endsInSlash then .error .notDirectory
    else match t.get? new with
      | some .directory => .error .isDirectory
      | _ => .ok ((t.erase loc).insert new (.file content false))

/-- Makes a link. -/
def makeLink (t : FileTree) (target p : Path) : Except Fault FileTree := t.addNew p (.link target)

/-- Makes a socket. -/
def makeSpecial (t : FileTree) (p : Path) : Except Fault FileTree := t.addNew p .special

/-- Removes what a path leads to, a link at its end not followed, and
everything below it. -/
def remove (t : FileTree) (p : Path) : Except Fault FileTree :=
  match t.place false p with
  | .ok (.entry loc _) => .ok (t.eraseBelow loc)
  | .ok (.vacant _ _ _) => .error .notFound
  | .error e => .error e

/-- Makes a file executable or not. -/
def setExecutable (t : FileTree) (p : Path) (executable : Bool) : Except Fault FileTree :=
  match t.place true p with
  | .ok (.entry loc (.file content _)) => .ok (t.insert loc (.file content executable))
  | .ok (.entry _ _) => .ok t
  | .ok (.vacant _ _ _) => .error .notFound
  | .error e => .error e

end Promotion.FileTree
