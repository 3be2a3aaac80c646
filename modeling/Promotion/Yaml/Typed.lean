import Promotion.Document.Misfit
import Promotion.Yaml.Load

/-!
# `Promotion.Yaml.Typed`: reading texts and records from nodes

A document of known shape is read from its nodes, so that what does not fit
can be named with its path in the document and its place in the text. A
text is any scalar, whatever its value would be; a record is a mapping, or
nothing at all.
-/

set_option autoImplicit false

namespace Promotion.Yaml

/-- Why a node does not fit: the path to it, its place and the reason. -/
structure Refusal where
  path : List String
  mark : Mark
  reason : Misfit
  deriving Repr

namespace Refusal

/-- The place of a node in a message; the start of a text goes without saying. -/
def placeText (mark : Mark) : String :=
  if mark.line = 0 && mark.column = 0 then "" else s!" at {mark.display}"

/-- The refusal in one sentence. -/
def message (r : Refusal) : String :=
  let path := if r.path.isEmpty then "" else ".".intercalate r.path ++ ": "
  path ++ r.reason.message ++ placeText r.mark

end Refusal

namespace Typed

/-- What is wrong with a node where something else is expected. -/
def misfit (expected : String) : Node → Misfit
  | .scalar info text style =>
    match Scalar.read info.tag text style with
    | .value v => .wrongType (v.describe .yaml) expected
    | .forbidden text expected => .wrongValue s!"string {Text.quoted text}" expected
    | .tooLarge => .wrongType s!"integer `{text}`" expected
  | .sequence _ _ => .wrongType "sequence" expected
  | .mapping _ _ => .wrongType "map" expected
  | .alias _ _ => .wrongType "alias" expected

/-- The refusal of a node. -/
def refuse {α : Type} (path : List String) (n : Node) (reason : Misfit) : Except Refusal α :=
  .error ⟨path, n.mark, reason⟩

/-- The node that a node stands for. -/
def target (d : Document) (n : Node) : Node := (d.target? n).getD n

/-- The text of a scalar. -/
def text (d : Document) (path : List String) (expected : String) (n : Node) :
    Except Refusal String :=
  match target d n with
  | .scalar _ text _ => .ok text
  | n => refuse path n (misfit expected n)

/-- The entries of a record. -/
def entries (d : Document) (path : List String) (expected : String) (n : Node) :
    Except Refusal (List (Node × Node)) :=
  match target d n with
  | .mapping _ entries => .ok entries
  | .scalar info text style =>
    if text.isEmpty && style = .plain then .ok []
    else refuse path (.scalar info text style) (misfit expected (.scalar info text style))
  | n => refuse path n (misfit expected n)

/-- The last step of the path to the value of an entry: the text of its key,
where that stands in the entry itself. -/
def step : Node → String
  | .scalar _ text _ => text
  | _ => "?"

/-- Reads the entries of a record one by one into `draft`. -/
def readEntries {σ : Type} (d : Document) (path known : List String) (mark : Mark)
    (read : σ → List String → String → Node → Except Refusal (Option σ)) (draft : σ) :
    List (Node × Node) → Except Refusal σ
  | [] => .ok draft
  | (k, v) :: rest =>
    match text d path "field identifier" k with
    | .error e => .error e
    | .ok key =>
      if known.contains key then
        match read draft (path ++ [step k]) key v with
        | .error e => .error e
        | .ok none => .error ⟨path, mark, .duplicateField key⟩
        | .ok (some draft) => readEntries d path known mark read draft rest
      else refuse path (target d k) (.unknownField key known)

/-- Reads a record. `read` gets the draft so far, the path, the key and the
value of an entry; it answers nothing for a key that was there before. -/
def record {σ : Type} (d : Document) (path : List String) (expected : String)
    (known : List String)
    (read : σ → List String → String → Node → Except Refusal (Option σ)) (draft : σ)
    (n : Node) : Except Refusal σ :=
  match entries d path expected n with
  | .error e => .error e
  | .ok entries => readEntries d path known (target d n).mark read draft entries

/-- What must stand after the tag that makes a choice. -/
def nothingAfter (path : List String) (n : Node) : Except Refusal Unit :=
  match n with
  | .scalar _ text style =>
    if style = .plain && (nullOf? text).isSome then .ok ()
    else refuse path n (.wrongValue s!"string {Text.quoted text}" "null")
  | n => refuse path n (misfit "unit" n)

/-- The name of a choice: the text of a scalar, or the document's own tag on
nothing. -/
def choiceName (path : List String) (n : Node) : Except Refusal (String × Bool) :=
  match n.info?.bind fun info => ownTag? info.tag, n with
  | some tag, _ => .ok (tag, true)
  | none, .scalar _ text _ => .ok (text, false)
  | none, n => refuse path n (misfit "a YAML tag starting with '!'" n)

/-- One of several choices. -/
def choice {α : Type} (d : Document) (path known : List String) (find? : String → Option α)
    (n : Node) : Except Refusal α :=
  let n := target d n
  match choiceName path n with
  | .error e => .error e
  | .ok (name, tagged) =>
    match find? name with
    | none => refuse path n (.unknownVariant name known)
    | some a => if tagged then (nothingAfter path n).map fun _ => a else .ok a

end Typed

end Promotion.Yaml
