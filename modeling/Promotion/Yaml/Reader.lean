import Promotion.Yaml.Lexer
import Promotion.Yaml.Node

/-!
# `Promotion.Yaml.Reader`: from tokens to the tree of a document

The tokens are read by one function for each kind of collection. A key or
value that is left out is an empty plain scalar. A text holds at most one
document.
-/

set_option autoImplicit false

namespace Promotion.Yaml

namespace Reader

/-- The tokens to come, and the numbers of the anchors so far. -/
structure State where
  tokens : List Token
  anchors : List (List Char × Nat)

/-- Reading changes the state or ends with a problem. -/
abbrev Read := StateT State (Except Problem)

/-- The next token; the last one marks the end of the text. -/
def peek : Read Token := do
  match (← get).tokens with
  | t :: _ => return t
  | [] => return ⟨.streamEnd, .start, .start⟩

/-- Passes over a token. -/
def skip : Read Unit := modify fun s => { s with tokens := s.tokens.drop 1 }

/-- A problem at a place. -/
def problem {α : Type} (text : String) (mark : Mark) : Read α :=
  throw ⟨text, mark⟩

/-- An empty plain scalar. -/
def emptyNode (mark : Mark) : Node := .scalar ⟨mark, none, none⟩ "" .plain

/-- Gives an anchor its number, which is how many names there were before. -/
def nameAnchor (name : List Char) : Read Nat := do
  let s ← get
  let number := s.anchors.length
  set { s with anchors := (name, number) :: s.anchors.filter fun a => a.1 ≠ name }
  return number

/-- The number of the anchor that an alias names. -/
def findAnchor (name : List Char) (mark : Mark) : Read Nat := do
  match (← get).anchors.find? fun a => a.1 = name with
  | some (_, number) => return number
  | none => problem "unknown anchor" mark

/-- The handles that stand for the start of a tag. -/
abbrev Handles := List (List Char × List Char)

/-- The handles that need no directive. -/
def standardHandles : Handles :=
  [(['!'], ['!']), (['!', '!'], "tag:yaml.org,2002:".toList)]

/-- The full tag of a handle and a suffix. -/
def fullTag (handles : Handles) (handle suffix : List Char) (mark : Mark) : Read String :=
  if handle.isEmpty then return String.ofList suffix
  else match handles.find? fun h => h.1 = handle with
    | some (_, start) => return String.ofList (start ++ suffix)
    | none => problem "found undefined tag handle" mark

/-- An anchor, if there is one here. -/
def readAnchor? : Read (Option (List Char)) := do
  match (← peek).kind with
  | .anchor name => skip; return some name
  | _ => return none

/-- A tag, if there is one here. -/
def readTag? (handles : Handles) : Read (Option String) := do
  let t ← peek
  match t.kind with
  | .tag handle suffix => skip; return some (← fullTag handles handle suffix t.start)
  | _ => return none

/-- An anchor and a tag, in either order, as far as they are there. -/
def readProperties (handles : Handles) : Read (Option (List Char) × Option String) := do
  match ← readAnchor? with
  | some anchor => return (some anchor, ← readTag? handles)
  | none =>
    let tag ← readTag? handles
    if tag.isSome then return (← readAnchor?, tag) else return (none, none)

/-- The information on a node with these properties. -/
def infoOf (mark : Mark) (anchor : Option (List Char)) (tag : Option String) : Read Info := do
  match anchor with
  | none => return ⟨mark, tag, none⟩
  | some name => return ⟨mark, tag, some (← nameAnchor name)⟩

mutual

/-- A node. Block collections are read only if `block`, and items without
indentation of their own only if `indentless`. -/
def readNode (handles : Handles) (block indentless : Bool) : Nat → Read Node
  | 0 => problem "found too many tokens" .start
  | fuel + 1 => do
    let first ← peek
    if let .alias name := first.kind then
      skip
      return .alias first.start (← findAnchor name first.start)
    let (anchor, tag) ← readProperties handles
    let info (tag : Option String) : Read Info := infoOf first.start anchor tag
    let t ← peek
    match t.kind with
    | .scalar text style =>
      skip
      return .scalar (← info (if tag = some "!" then none else tag)) (String.ofList text) style
    | .flowSequenceStart =>
      skip
      let info ← info tag
      return .sequence info (← readFlowItems handles true fuel)
    | .flowMappingStart =>
      skip
      let info ← info tag
      return .mapping info (← readFlowEntries handles true fuel)
    | kind =>
      if indentless && kind = .blockEntry then
        let info ← info tag
        return .sequence info (← readIndentlessItems handles fuel)
      else if block && kind = .blockSequenceStart then
        skip
        let info ← info tag
        return .sequence info (← readBlockItems handles fuel)
      else if block && kind = .blockMappingStart then
        skip
        let info ← info tag
        return .mapping info (← readBlockEntries handles fuel)
      else if anchor.isSome || tag.isSome then
        return .scalar (← info tag) "" .plain
      else problem "did not find expected node content" t.start

/-- The items of a block sequence. -/
def readBlockItems (handles : Handles) : Nat → Read (List Node)
  | 0 => problem "found too many tokens" .start
  | fuel + 1 => do
    let t ← peek
    match t.kind with
    | .blockEntry =>
      skip
      let next := (← peek).kind
      let item ← if next = .blockEntry || next = .blockEnd then pure (emptyNode t.stop)
        else readNode handles true false fuel
      return item :: (← readBlockItems handles fuel)
    | .blockEnd => skip; return []
    | _ => problem "did not find expected '-' indicator" t.start

/-- Items that are not indented further than the key before them. -/
def readIndentlessItems (handles : Handles) : Nat → Read (List Node)
  | 0 => problem "found too many tokens" .start
  | fuel + 1 => do
    let t ← peek
    match t.kind with
    | .blockEntry =>
      skip
      let next := (← peek).kind
      let item ←
        if next = .blockEntry || next = .key || next = .value || next = .blockEnd then
          pure (emptyNode t.stop)
        else readNode handles true false fuel
      return item :: (← readIndentlessItems handles fuel)
    | _ => return []

/-- The entries of a block mapping. -/
def readBlockEntries (handles : Handles) : Nat → Read (List (Node × Node))
  | 0 => problem "found too many tokens" .start
  | fuel + 1 => do
    let t ← peek
    match t.kind with
    | .key =>
      skip
      let key ← readBlockPart handles t.stop fuel
      let u ← peek
      let value ← if u.kind = .value then do
          skip
          readBlockPart handles u.stop fuel
        else pure (emptyNode u.start)
      return (key, value) :: (← readBlockEntries handles fuel)
    | .blockEnd => skip; return []
    | _ => problem "did not find expected key" t.start

/-- A key or value of a block mapping, which begins at `mark` if it is left
out. -/
def readBlockPart (handles : Handles) (mark : Mark) : Nat → Read Node
  | 0 => problem "found too many tokens" .start
  | fuel + 1 => do
    let next := (← peek).kind
    if next = .key || next = .value || next = .blockEnd then return emptyNode mark
    else readNode handles true true fuel

/-- The items of a sequence in brackets, with the comma between them. -/
def readFlowItems (handles : Handles) (first : Bool) : Nat → Read (List Node)
  | 0 => problem "found too many tokens" .start
  | fuel + 1 => do
    let t ← peek
    if t.kind = .flowSequenceEnd then
      skip
      return []
    if !first then
      if t.kind = .flowEntry then skip
      else problem "did not find expected ',' or ']'" t.start
    let t ← peek
    if t.kind = .flowSequenceEnd then
      skip
      return []
    else if t.kind = .key then
      skip
      let entry ← readFlowPair handles fuel
      return .mapping ⟨t.start, none, none⟩ [entry] :: (← readFlowItems handles false fuel)
    else
      let item ← readNode handles false false fuel
      return item :: (← readFlowItems handles false fuel)

/-- The key and value of a mapping of one entry that is an item in brackets.
Where the key is left out the token in its place is passed over. -/
def readFlowPair (handles : Handles) : Nat → Read (Node × Node)
  | 0 => problem "found too many tokens" .start
  | fuel + 1 => do
    let t ← peek
    let key ←
      if t.kind = .value || t.kind = .flowEntry || t.kind = .flowSequenceEnd then do
        skip
        pure (emptyNode t.stop)
      else readNode handles false false fuel
    return (key, ← readFlowValue handles .flowSequenceEnd fuel)

/-- The value after a key in brackets that end with `close`. -/
def readFlowValue (handles : Handles) (close : Token.Kind) : Nat → Read Node
  | 0 => problem "found too many tokens" .start
  | fuel + 1 => do
    if (← peek).kind = .value then skip
    else return emptyNode (← peek).start
    let t ← peek
    if t.kind = .flowEntry || t.kind = close then return emptyNode t.start
    else readNode handles false false fuel

/-- The entries of a mapping in braces, with the comma between them. -/
def readFlowEntries (handles : Handles) (first : Bool) : Nat → Read (List (Node × Node))
  | 0 => problem "found too many tokens" .start
  | fuel + 1 => do
    let t ← peek
    if t.kind = .flowMappingEnd then
      skip
      return []
    if !first then
      if t.kind = .flowEntry then skip
      else problem "did not find expected ',' or '\x7d'" t.start
    let t ← peek
    if t.kind = .flowMappingEnd then
      skip
      return []
    else if t.kind = .key then
      skip
      let u ← peek
      let key ←
        if u.kind = .value || u.kind = .flowEntry || u.kind = .flowMappingEnd then
          pure (emptyNode u.start)
        else readNode handles false false fuel
      let value ← readFlowValue handles .flowMappingEnd fuel
      return (key, value) :: (← readFlowEntries handles false fuel)
    else
      let key ← readNode handles false false fuel
      let value := emptyNode (← peek).start
      return (key, value) :: (← readFlowEntries handles false fuel)

end

/-- The handles of the directives before a document. -/
def readDirectives (handles : Handles) (versioned : Bool) : Nat → Read Handles
  | 0 => return handles
  | fuel + 1 => do
    let t ← peek
    match t.kind with
    | .versionDirective major minor =>
      if versioned then problem "found duplicate %YAML directive" t.start
      else if major ≠ 1 || (minor ≠ 1 && minor ≠ 2) then
        problem "found incompatible YAML document" t.start
      else
        skip
        readDirectives handles true fuel
    | .tagDirective handle start =>
      if handles.any fun h => h.1 = handle then
        problem "found duplicate %TAG directive" t.start
      else
        skip
        readDirectives (handles ++ [(handle, start)]) versioned fuel
    | _ => return handles

/-- Whether a token may stand where an explicit document has no content. -/
def endsDocument : Token.Kind → Bool
  | .versionDirective _ _ => true
  | .tagDirective _ _ => true
  | .documentStart => true
  | .documentEnd => true
  | .streamEnd => true
  | _ => false

/-- The document that starts with the marker, directives before it. -/
def readExplicit (fuel : Nat) : Read Document := do
  let own ← readDirectives [] false fuel
  let t ← peek
  if t.kind ≠ .documentStart then problem "did not find expected <document start>" t.start
  skip
  let t ← peek
  if endsDocument t.kind then return ⟨some (emptyNode t.start), t.start⟩
  else
    let root ← readNode (own ++ standardHandles) true false fuel
    return ⟨some root, root.mark⟩

/-- The only document of a text. -/
def readDocument (fuel : Nat) : Read Document := do
  let t ← peek
  let document ← match t.kind with
    | .streamEnd => pure ⟨none, t.start⟩
    | .versionDirective _ _ => readExplicit fuel
    | .tagDirective _ _ => readExplicit fuel
    | .documentStart => readExplicit fuel
    | _ => do
      let root ← readNode standardHandles true false fuel
      pure ⟨some root, root.mark⟩
  modify fun s => { s with tokens := s.tokens.dropWhile fun t => t.kind = .documentEnd }
  let t ← peek
  if t.kind = .streamEnd then return document
  else problem "did not find the end of the document" t.start

end Reader

/-- The document of a text. Each token takes at most three calls to read. -/
def documentOf (s : List Char) : Except Problem Document :=
  match tokensOf s with
  | .error e => .error e
  | .ok tokens => ((Reader.readDocument (4 * tokens.length + 16)).run ⟨tokens, []⟩).map (·.1)

end Promotion.Yaml
