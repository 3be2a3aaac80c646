import Promotion.FileTree.Resolve

/-!
# `Promotion.Bundle.Listing`: the directories that discovery looks at

Discovery asks three questions of a file system. `Listing` holds the
answers, so that discovery works on any source of them: `ofTree` answers from
a file system, `ofPaths` from the paths in a tree.
-/

set_option autoImplicit false

namespace Promotion

/-- The answers to the questions that discovery asks. -/
structure Listing where
  isDirectory : Path → Bool
  isFile : Path → Bool
  /-- The directories directly below a path, in any order, or the reason why
  they cannot be listed. -/
  subdirectories : Path → Except String (List Path)

namespace Listing

/-- The listing of a file system. -/
def ofTree (t : FileTree) : Listing where
  isDirectory := t.isDirectory
  isFile := t.isFile
  subdirectories p := (t.subdirectories p).mapError Fault.message

/-- Adds a path unless one with the same components is there. -/
def addPath (paths : List Path) (p : Path) : List Path :=
  if paths.any p.same then paths else paths ++ [p]

/-- Adds a directory and the directories above it. The fuel is an upper bound
on the number of components. -/
def addAncestors : Nat → List Path → Path → List Path
  | 0, paths, _ => paths
  | fuel + 1, paths, p =>
    if p.isEmpty then paths
    else match p.parent? with
      | none => addPath paths p
      | some parent => addAncestors fuel (addPath paths p) parent

/-- Adds a directory and the directories above it, the empty path apart. -/
def addDirectory (paths : List Path) (p : Path) : List Path :=
  addAncestors (p.components.length + 1) paths p

/-- Adds the directory that holds a file. -/
def addFileParent (paths : List Path) (file : Path) : List Path :=
  match file.parent? with
  | none => paths
  | some parent => addDirectory paths parent

/-- The listing of a tree given by its directories, its files, and the
directories that may not be listed. -/
def ofPaths (directories files denied : List Path) : Listing :=
  let known := denied.foldl addDirectory (files.foldl addFileParent
    (directories.foldl addDirectory []))
  { isDirectory := fun p => known.any p.same
    isFile := fun p => files.any p.same
    subdirectories := fun p =>
      if denied.any p.same then .error "permission denied"
      else if known.any p.same then
        .ok (known.filter fun d => (d.parent?.map p.same).getD false)
      else .error "no such directory" }

end Listing

end Promotion
