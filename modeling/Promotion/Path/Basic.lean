import Promotion.Text.Utf8

/-!
# `Promotion.Path.Basic`: paths

A path is the text that names a place in a file system. It is kept as it
was written, byte for byte; its meaning is the row of its components.
Repeated separators, a separator at the end and a `.` that does not come
first have no component of their own. Paths are compared by components.

* `Path.components`: the meaning of a path.
* `Path.join`, `Path.parent?`, `Path.fileName?`, `Path.extension?`.
* `Path.startsWith`, `Path.same`, `Path.compare`.
-/

set_option autoImplicit false

namespace Promotion

open Promotion.Text (Bytes)

/-- One step of a path. -/
inductive Component where
  /-- The top of the file system. -/
  | root
  /-- A `.` at the start of a relative path. -/
  | here
  /-- The directory above. -/
  | up
  /-- An entry of a directory. -/
  | name (bytes : Bytes)
  deriving DecidableEq, Repr

/-- A path as it was written. -/
structure Path where
  bytes : Bytes
  deriving DecidableEq, Repr

namespace Component

/-- Where a component stands among the kinds of components. -/
def rank : Component → Nat
  | root => 0
  | here => 1
  | up => 2
  | name _ => 3

/-- The order of components: root, `.`, `..`, then names byte by byte. -/
def order : Component → Component → Ordering
  | name a, name b => compare a b
  | a, b => compare a.rank b.rank

end Component

namespace Path

/-- The byte that separates components. -/
def separator : UInt8 := 47

/-- The byte of a full stop. -/
def dot : UInt8 := 46

/-- The path of a text. -/
def ofString (s : String) : Path := ⟨Text.bytesOf s⟩

/-- The path as it is shown to the user. -/
def display (p : Path) : String := Text.stringOfLossy p.bytes

/-- Whether the path starts at the top of the file system. -/
def isAbsolute (p : Path) : Bool := p.bytes.head? == some separator

/-- Whether the path has no text. -/
def isEmpty (p : Path) : Bool := p.bytes.isEmpty

/-- The bytes between separators, each with the position where it ends. -/
def pieces (position : Nat) (current : Bytes) : Bytes → List (Bytes × Nat)
  | [] => [(current.reverse, position)]
  | b :: rest =>
    if b = separator then (current.reverse, position) :: pieces (position + 1) [] rest
    else pieces (position + 1) (b :: current) rest

/-- The component that a piece stands for; only the first piece of a relative
path may be a `.`. -/
def componentOf? (first : Bool) (piece : Bytes) : Option Component :=
  if piece = [] then none
  else if piece = [dot] then (if first then some .here else none)
  else if piece = [dot, dot] then some .up
  else some (.name piece)

/-- The components of a path, each with the position where its text ends. -/
def placedComponents (p : Path) : List (Component × Nat) :=
  let place (first : Bool) (piece : Bytes × Nat) : Option (Component × Nat) :=
    (componentOf? first piece.1).map fun c => (c, piece.2)
  if p.isAbsolute then
    (.root, 1) :: (pieces 0 [] p.bytes).filterMap (place false)
  else match pieces 0 [] p.bytes with
    | [] => []
    | piece :: rest => (place true piece).toList ++ rest.filterMap (place false)

/-- The components of a path. -/
def components (p : Path) : List Component :=
  p.placedComponents.map (·.1)

/-- Whether two paths have the same components. -/
def same (p q : Path) : Bool := p.components == q.components

/-- The order of component rows, the shorter of two that agree first. -/
def compareComponents : List Component → List Component → Ordering
  | [], [] => .eq
  | [], _ :: _ => .lt
  | _ :: _, [] => .gt
  | a :: as, b :: bs => (a.order b).then (compareComponents as bs)

/-- The order of paths. -/
def order (p q : Path) : Ordering := compareComponents p.components q.components

/-- Whether the components of `q` are the first components of `p`. -/
def startsWith (p q : Path) : Bool := q.components.isPrefixOf p.components

/-- The path `q` as seen from `p`: an absolute `q` stands for itself. -/
def join (p q : Path) : Path :=
  if q.isAbsolute then q
  else match p.bytes.getLast? with
    | none => q
    | some b => if b = separator then ⟨p.bytes ++ q.bytes⟩ else ⟨p.bytes ++ separator :: q.bytes⟩

/-- The path of an entry of the directory `p`. -/
def child (p : Path) (name : Bytes) : Path := p.join ⟨name⟩

/-- The text up to the last component but one. The root and the empty path
have no parent. -/
def parent? (p : Path) : Option Path :=
  match p.placedComponents.reverse with
  | [] => none
  | (.root, _) :: _ => none
  | [_] => some ⟨[]⟩
  | _ :: (_, position) :: _ => some ⟨p.bytes.take position⟩

/-- The name of the entry that the path leads to, when its last component is
a name. -/
def fileName? (p : Path) : Option Bytes :=
  match p.components.getLast? with
  | some (.name bytes) => some bytes
  | _ => none

/-- What follows the last full stop of the file name, unless the name has no
other full stop than its first byte. -/
def extension? (p : Path) : Option Bytes :=
  match p.fileName? with
  | none => none
  | some name =>
    let after := (name.reverse.takeWhile (· ≠ dot)).reverse
    if name.length ≤ after.length + 1 then none else some after

end Path

end Promotion
