import Promotion.Yaml.Reader
import Promotion.Yaml.Resolve

/-!
# `Promotion.Yaml.Load`: the value of a document

Aliases are replaced by what they point to, plain scalars by their values,
and the tags of the standard and of the document are applied. Collections
may be nested 128 deep, a mapping has no key twice, and aliases may be
followed a hundred times for each part of the document.
-/

set_option autoImplicit false

namespace Promotion.Yaml

/-- The tag of a node as far as it is one of the document's own: those start
with an exclamation mark, which is left out unless it is all. -/
def ownTag? (tag : Option String) : Option String :=
  match tag.map String.toList with
  | some ['!'] => some "!"
  | some ('!' :: rest) => some (String.ofList rest)
  | _ => none

namespace Scalar

/-- What a scalar is: a value, a text that its tag forbids, or a whole number
that no value can hold. -/
inductive Reading where
  | value (v : Value)
  | forbidden (text expected : String)
  | tooLarge
  deriving Repr

/-- The reading of an optional value. -/
def Reading.ofOption (text expected : String) : Option Value → Reading
  | some v => .value v
  | none => .forbidden text expected

/-- The reading of a plain scalar. -/
def readPlain (text : String) : Reading :=
  match resolve? text with
  | some v => .value v
  | none => .tooLarge

/-- The reading of a scalar, its own tag apart: the tags of the standard for
truth values, numbers and nothing count, other tags make it a text. -/
def read (tag : Option String) (text : String) (style : Style) : Reading :=
  match tag with
  | none => if style = .plain then readPlain text else .value (.text text)
  | some tag =>
    if tag = "tag:yaml.org,2002:bool" then .ofOption text "a boolean" (boolOf? text)
    else if tag = "tag:yaml.org,2002:int" then
      match intOf? text with
      | some (.fits n) => .value (.int n)
      | some .tooLarge => .tooLarge
      | none => .forbidden text "an integer"
    else if tag = "tag:yaml.org,2002:float" then
      .ofOption text "a float" ((floatOf? text).map .float)
    else if tag = "tag:yaml.org,2002:null" then
      .ofOption text "null" (if text = "" then none else nullOf? text)
    else .value (.text text)

end Scalar

/-- Loading counts the aliases it follows, and fails with nothing to tell. -/
abbrev Loader := StateT Nat Option

namespace Load

/-- Collections may be nested this deep. -/
def depthLimit : Nat := 128

/-- The node that a node stands for; following an alias counts. -/
def follow (document : Document) (n : Node) : Loader Node := do
  if let .alias _ _ := n then
    let followed ← get
    if document.size * 100 < followed + 1 then failure
    set (followed + 1)
  (document.target? n : Option Node)

/-- The value of a scalar. -/
def scalarValue (info : Info) (text : String) (style : Style) : Option Value :=
  match ownTag? info.tag with
  | some tag =>
    let content := if style = .plain then resolve? text else some (.text text)
    content.map (.tagged tag)
  | none =>
    match Scalar.read info.tag text style with
    | .value v => some v
    | _ => none

/-- The value with the document's own tag around it, if there is one. -/
def withTag (info : Info) (v : Value) : Value :=
  match ownTag? info.tag with
  | some tag => .tagged tag v
  | none => v

/-- A mapping of entries, unless two have the same key. -/
def mapping? (entries : List (Value × Value)) : Option Value :=
  if distinct entries then some (.map entries) else none
where
  /-- Whether no key is there twice. -/
  distinct : List (Value × Value) → Bool
    | [] => true
    | (k, _) :: rest => !rest.any (fun e => k.same e.1) && distinct rest

/-- The value of a node with collections nested up to a depth. -/
def load (document : Document) (depth : Nat) (n : Node) : Loader Value := do
  match depth, ← follow document n with
  | _, .scalar info text style => scalarValue info text style
  | depth + 1, .sequence info items =>
    return withTag info (.list (← items.mapM (load document depth)))
  | depth + 1, .mapping info entries =>
    let loaded ← entries.mapM fun (k, v) => do
      return (← load document depth k, ← load document depth v)
    withTag info <$> (mapping? loaded : Loader Value)
  | _, _ => failure

end Load

/-- The value of a document; a document that holds nothing is null. -/
def Document.value? (d : Document) : Option Value :=
  match d.root with
  | none => some .null
  | some root => ((Load.load d Load.depthLimit root).run 0).map (·.1)

/-- The value of a YAML text. -/
def read (s : List Char) : Except String Value :=
  match documentOf s with
  | .error p => .error p.message
  | .ok d =>
    match d.value? with
    | some v => .ok v
    | none => .error "the document cannot be loaded"

end Promotion.Yaml
