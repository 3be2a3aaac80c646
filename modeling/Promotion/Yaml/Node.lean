import Promotion.Yaml.Token

/-!
# `Promotion.Yaml.Node`: the tree of a YAML document

A document is a tree of scalars, sequences and mappings, in which an alias
points to a node with an anchor. Anchors are numbered; where several nodes
have one number, an alias means the last of them.
-/

set_option autoImplicit false

namespace Promotion.Yaml

/-- What every node but an alias has: its place, its tag and its anchor. -/
structure Info where
  mark : Mark
  tag : Option String
  anchor : Option Nat
  deriving DecidableEq, Repr, Inhabited

/-- A node of a document. -/
inductive Node where
  | scalar (info : Info) (text : String) (style : Style)
  | sequence (info : Info) (items : List Node)
  | mapping (info : Info) (entries : List (Node × Node))
  | alias (mark : Mark) (anchor : Nat)
  deriving Repr, Inhabited

namespace Node

/-- The place where the node starts. -/
def mark : Node → Mark
  | scalar info _ _ => info.mark
  | sequence info _ => info.mark
  | mapping info _ => info.mark
  | .alias mark _ => mark

/-- What the node has beside its content; an alias has nothing. -/
def info? : Node → Option Info
  | scalar info _ _ => some info
  | sequence info _ => some info
  | mapping info _ => some info
  | .alias _ _ => none

/-- A node with its anchor, if it has one. -/
def own (info : Info) (n : Node) : List (Nat × Node) := (info.anchor.map fun a => (a, n)).toList

mutual

/-- The nodes with an anchor, in the order of the document. -/
def anchored : Node → List (Nat × Node)
  | scalar info text style => own info (scalar info text style)
  | sequence info items => own info (sequence info items) ++ anchoredItems items
  | mapping info entries => own info (mapping info entries) ++ anchoredEntries entries
  | .alias _ _ => []

/-- The nodes with an anchor among items. -/
def anchoredItems : List Node → List (Nat × Node)
  | [] => []
  | n :: rest => anchored n ++ anchoredItems rest

/-- The nodes with an anchor among entries. -/
def anchoredEntries : List (Node × Node) → List (Nat × Node)
  | [] => []
  | (k, v) :: rest => anchored k ++ anchored v ++ anchoredEntries rest

end

mutual

/-- How many scalars, aliases, and starts and ends of collections there are. -/
def size : Node → Nat
  | scalar _ _ _ => 1
  | sequence _ items => sizeItems items + 2
  | mapping _ entries => sizeEntries entries + 2
  | .alias _ _ => 1

/-- The size of items. -/
def sizeItems : List Node → Nat
  | [] => 0
  | n :: rest => size n + sizeItems rest

/-- The size of entries. -/
def sizeEntries : List (Node × Node) → Nat
  | [] => 0
  | (k, v) :: rest => size k + size v + sizeEntries rest

end

end Node

/-- A document: its root, which is missing where the text holds nothing, and
the place where such a text ends. -/
structure Document where
  root : Option Node
  mark : Mark
  deriving Repr, Inhabited

namespace Document

/-- The nodes with an anchor. -/
def anchored (d : Document) : List (Nat × Node) :=
  (d.root.map Node.anchored).getD []

/-- The node that an alias points to, the last one with its anchor; any other
node is meant itself. -/
def target? (d : Document) (n : Node) : Option Node :=
  match n with
  | .alias _ anchor => (d.anchored.reverse.find? fun a => a.1 = anchor).map (·.2)
  | n => some n

/-- The number of scalars, aliases, and starts and ends of collections. -/
def size (d : Document) : Nat := (d.root.map Node.size).getD 1

end Document

end Promotion.Yaml
