import Promotion.FileTree.Resolve

/-!
# `Promotion.FileTree.Pending`: where a path will lead

A path may name a directory that is still to be made. Where it will lie
follows from the longest leading part that exists: that part is resolved,
and the names that are missing are put behind it.

* `Path.pending`: the path that a path will have, given what can be resolved.
* `FileTree.pending`: the path without links that a path will have.
-/

set_option autoImplicit false

namespace Promotion

namespace Path

/-- The path of the directory above, the current directory being `.`, and the
name in it. -/
def above? (p : Path) : Option (Path × Name) :=
  match p.parent?, p.fileName? with
  | some parent, some name => some (if parent.isEmpty then ⟨[dot]⟩ else parent, name)
  | _, _ => none

variable {ε : Type} (resolve : Path → Except ε Path)

/-- Looks at the part `part` of a path that has the names `missing` behind it,
and, while a part cannot be resolved, at what is above it, `fuel` times at most. -/
def pendingFrom : Nat → Path → List Name → Except ε Path
  | fuel, part, missing =>
    match resolve part with
    | .ok base => .ok (missing.foldl child base)
    | .error e =>
      match fuel, part.above? with
      | fuel + 1, some (parent, name) => pendingFrom fuel parent (name :: missing)
      | _, _ => .error e

/-- The path that a path has, or will have once the directories that are missing
are made, where `resolve` gives the paths of what is there. -/
def pending (p : Path) : Except ε Path := pendingFrom resolve p.components.length p []

end Path

namespace FileTree

/-- The path without links that a path has, or will have once the directories
that are missing are made. -/
def pending (t : FileTree) (p : Path) : Except Fault Path := p.pending t.canonical

end FileTree

end Promotion
