import Promotion.Yaml.BlockScalar
import Promotion.Yaml.PlainScalar
import Promotion.Yaml.QuotedScalar
import Promotion.Yaml.Tag
import Promotion.Yaml.Token

/-!
# `Promotion.Yaml.Lexer`: cutting a YAML text into tokens

The lexer keeps the open indentations and, for each level of brackets, the
place where an unmarked key may have started. When a colon follows, the
token that marks the key is put in at that place. An unmarked key stays on
one line and is at most 1024 characters long.
-/

set_option autoImplicit false

namespace Promotion.Yaml

/-- A place where a key may have started without a mark. -/
structure OpenKey where
  /-- Whether nothing but a key can stand there. -/
  required : Bool
  /-- The number of tokens before it. -/
  position : Nat
  mark : Mark
  deriving Repr

/-- The state of the lexer. -/
structure Lexer where
  cursor : Cursor
  /-- The number of open brackets. -/
  flow : Nat
  /-- The indentation of the innermost block collection, -1 outside all. -/
  indent : Int
  /-- The indentations around it. -/
  outer : List Int
  /-- Whether an unmarked key may start at the next token. -/
  keyAllowed : Bool
  /-- The key that may have started at each level of brackets, innermost first. -/
  keys : List (Option OpenKey)
  /-- The tokens so far, last first. -/
  tokens : List Token
  /-- Their number. -/
  count : Nat

namespace Lexer

/-- The lexer at the start of a text. -/
def ofText (s : List Char) : Lexer where
  cursor := .ofText s
  flow := 0
  indent := -1
  outer := []
  keyAllowed := true
  keys := [none]
  tokens := []
  count := 0

/-- The place of the lexer. -/
def mark (l : Lexer) : Mark := l.cursor.mark

/-- A problem at the place of the lexer. -/
def problem {α : Type} (l : Lexer) (text : String) : Except Problem α := l.cursor.problem text

/-- Adds a token at the end. -/
def push (l : Lexer) (kind : Token.Kind) (start stop : Mark) : Lexer :=
  { l with tokens := ⟨kind, start, stop⟩ :: l.tokens, count := l.count + 1 }

/-- Puts a token in after the first `position` tokens. -/
def insert (l : Lexer) (position : Nat) (kind : Token.Kind) (mark : Mark) : Lexer :=
  { l with
    tokens := l.tokens.insertIdx (l.count - position) ⟨kind, mark, mark⟩
    count := l.count + 1 }

/-- Opens a block collection at a column, unless one is open there or brackets
are. -/
def openBlock (l : Lexer) (column position : Nat) (kind : Token.Kind) (mark : Mark) : Lexer :=
  if l.flow = 0 && l.indent < column then
    { l.insert position kind mark with indent := column, outer := l.indent :: l.outer }
  else l

/-- Closes the block collections that are indented further than `column`. -/
def closeBlocks (l : Lexer) (column : Int) : Lexer :=
  if l.flow = 0 then close l.outer l else l
where
  /-- Closes the innermost collections, of which `outer` are left to close. -/
  close (outer : List Int) (l : Lexer) : Lexer :=
    match outer with
    | [] => l
    | indent :: outer =>
      if column < l.indent then
        close outer { l.push .blockEnd l.mark l.mark with indent := indent, outer := outer }
      else l

/-- Gives up the key that may have started at this level of brackets. -/
def dropKey (l : Lexer) : Except Problem Lexer :=
  match l.keys with
  | some k :: rest =>
    if k.required then .error ⟨"could not find expected ':'", k.mark⟩
    else .ok { l with keys := none :: rest }
  | _ => .ok l

/-- Notes that a key may start here. -/
def saveKey (l : Lexer) : Except Problem Lexer :=
  if l.keyAllowed then do
    let key : OpenKey := ⟨l.flow = 0 && l.indent = l.mark.column, l.count, l.mark⟩
    let l ← l.dropKey
    return { l with keys := some key :: l.keys.drop 1 }
  else .ok l

/-- Gives up the keys that did not end on their line or are too long. -/
def dropStaleKeys (l : Lexer) : Except Problem Lexer := do
  let keys ← l.keys.mapM fun key => match key with
    | none => pure none
    | some k =>
      if k.mark.line < l.mark.line || k.mark.index + 1024 < l.mark.index then
        if k.required then .error ⟨"could not find expected ':'", k.mark⟩ else pure none
      else pure (some k)
  return { l with keys := keys }

/-- Passes over white space, comments and line breaks. After a line break
outside brackets a key may start. A byte order mark may stand at the start of
a line. The fuel is the length of the text. -/
def toNextToken : Nat → Lexer → Lexer
  | 0, l => l
  | fuel + 1, l =>
    let isSkipped (c : Char) : Bool :=
      c = ' ' || (c = '\t' && (l.flow ≠ 0 || !l.keyAllowed))
    let cursor := if l.mark.column = 0 && l.cursor.rest.head? = some '\uFEFF' then l.cursor.skip
      else l.cursor
    let cursor := (cursor.skipWhile isSkipped).skipComment
    if atLineEnd cursor.rest && !cursor.rest.isEmpty then
      toNextToken fuel
        { l with cursor := cursor.skipBreak, keyAllowed := l.keyAllowed || l.flow = 0 }
    else { l with cursor := cursor }

/-- Reads an indicator of `width` characters. -/
def indicator (l : Lexer) (kind : Token.Kind) (width : Nat) : Lexer :=
  let cursor := l.cursor.skipMany width
  { l with cursor := cursor }.push kind l.mark cursor.mark

/-- Reads the end of the text. -/
def readEnd (l : Lexer) : Except Problem Lexer := do
  let m := l.mark
  let m : Mark := if m.column = 0 then m else ⟨m.index, m.line + 1, 0⟩
  let l := { l with cursor := ⟨[], m⟩ }.closeBlocks (-1)
  let l ← l.dropKey
  return { l with keyAllowed := false }.push .streamEnd m m

/-- Reads a directive. -/
def readDirective (l : Lexer) : Except Problem Lexer := do
  let start := l.mark
  let l ← (l.closeBlocks (-1)).dropKey
  let (directive, cursor) ← Tag.readDirective l.cursor
  let kind : Token.Kind := match directive with
    | .version major minor => .versionDirective major minor
    | .tag handle first => .tagDirective handle first
  return { l with cursor := cursor, keyAllowed := false }.push kind start cursor.mark

/-- Reads the marker of a document. -/
def readDocumentMarker (kind : Token.Kind) (l : Lexer) : Except Problem Lexer := do
  let l ← (l.closeBlocks (-1)).dropKey
  return { l with keyAllowed := false }.indicator kind 3

/-- Reads an opening bracket. -/
def readFlowStart (kind : Token.Kind) (l : Lexer) : Except Problem Lexer := do
  let l ← l.saveKey
  return { l with keys := none :: l.keys, flow := l.flow + 1, keyAllowed := true }.indicator kind 1

/-- Reads a closing bracket. -/
def readFlowEnd (kind : Token.Kind) (l : Lexer) : Except Problem Lexer := do
  let l ← l.dropKey
  let l := if l.flow = 0 then l else { l with keys := l.keys.drop 1, flow := l.flow - 1 }
  return { l with keyAllowed := false }.indicator kind 1

/-- Reads a comma between brackets. -/
def readFlowEntry (l : Lexer) : Except Problem Lexer := do
  let l ← l.dropKey
  return { l with keyAllowed := true }.indicator .flowEntry 1

/-- Reads the hyphen of an item. -/
def readBlockEntry (l : Lexer) : Except Problem Lexer := do
  if l.flow = 0 && !l.keyAllowed then
    l.problem "block sequence entries are not allowed in this context"
  let l ← (l.openBlock l.mark.column l.count .blockSequenceStart l.mark).dropKey
  return { l with keyAllowed := true }.indicator .blockEntry 1

/-- Reads the question mark of a key. -/
def readKey (l : Lexer) : Except Problem Lexer := do
  if l.flow = 0 && !l.keyAllowed then
    l.problem "mapping keys are not allowed in this context"
  let l ← (l.openBlock l.mark.column l.count .blockMappingStart l.mark).dropKey
  return { l with keyAllowed := l.flow = 0 }.indicator .key 1

/-- Reads the colon of a value, and marks the key before it if that is not
marked. -/
def readValue (l : Lexer) : Except Problem Lexer := do
  match l.keys with
  | some key :: rest =>
    let l := l.insert key.position .key key.mark
    let l := l.openBlock key.mark.column key.position .blockMappingStart key.mark
    return { l with keys := none :: rest, keyAllowed := false }.indicator .value 1
  | _ =>
    if l.flow = 0 && !l.keyAllowed then
      l.problem "mapping values are not allowed in this context"
    let l := l.openBlock l.mark.column l.count .blockMappingStart l.mark
    return { l with keyAllowed := l.flow = 0 }.indicator .value 1

/-- Reads an alias or anchor. -/
def readAnchor (kind : List Char → Token.Kind) (l : Lexer) : Except Problem Lexer := do
  let start := l.mark
  let l ← l.saveKey
  let (name, cursor) ← Tag.readAnchor l.cursor
  return { l with cursor := cursor, keyAllowed := false }.push (kind name) start cursor.mark

/-- Reads a tag. -/
def readTag (l : Lexer) : Except Problem Lexer := do
  let start := l.mark
  let l ← l.saveKey
  let ((handle, suffix), cursor) ← Tag.read (l.flow ≠ 0) l.cursor
  return { l with cursor := cursor, keyAllowed := false }.push (.tag handle suffix) start
    cursor.mark

/-- Reads a block scalar. -/
def readBlockScalar (style : Style) (l : Lexer) : Except Problem Lexer := do
  let start := l.mark
  let l ← l.dropKey
  let (text, cursor) ← BlockScalar.read (style = .literal) l.indent l.cursor
  return { l with cursor := cursor, keyAllowed := true }.push (.scalar text style) start
    cursor.mark

/-- Reads a quoted scalar. -/
def readQuoted (style : Style) (quote : Char) (l : Lexer) : Except Problem Lexer := do
  let start := l.mark
  let l ← l.saveKey
  let (text, cursor) ← QuotedScalar.read quote l.cursor
  return { l with cursor := cursor, keyAllowed := false }.push (.scalar text style) start
    cursor.mark

/-- Reads a plain scalar. A key may start after it if a line break follows. -/
def readPlain (l : Lexer) : Except Problem Lexer := do
  let start := l.mark
  let l ← l.saveKey
  let r ← PlainScalar.read (l.flow ≠ 0) (l.indent + 1).toNat l.cursor
  return { l with cursor := r.cursor, keyAllowed := r.broken }.push (.scalar r.text .plain) start
    r.cursor.mark

/-- Whether a plain scalar may start with `c` when `rest` follows. -/
def startsPlain (flow : Bool) (c : Char) (rest : List Char) : Bool :=
  if c = '-' then !(match rest with
    | d :: _ => isBlank d
    | [] => false)
  else if c = '?' || c = ':' then !flow && !atGap rest
  else !"-?:,[]\x7b\x7d#&*!|>'\"%@`".toList.contains c

/-- Reads the next token, at a place that is not white space. -/
def readToken (l : Lexer) : Except Problem Lexer :=
  match l.cursor.rest with
  | [] => l.readEnd
  | c :: rest =>
    let flow := l.flow ≠ 0
    if l.mark.column = 0 && c = '%' then l.readDirective
    else if l.cursor.atMarker ['-', '-', '-'] then l.readDocumentMarker .documentStart
    else if l.cursor.atMarker ['.', '.', '.'] then l.readDocumentMarker .documentEnd
    else if c = '[' then l.readFlowStart .flowSequenceStart
    else if c = '\x7b' then l.readFlowStart .flowMappingStart
    else if c = ']' then l.readFlowEnd .flowSequenceEnd
    else if c = '\x7d' then l.readFlowEnd .flowMappingEnd
    else if c = ',' then l.readFlowEntry
    else if c = '-' && atGap rest then l.readBlockEntry
    else if c = '?' && (flow || atGap rest) then l.readKey
    else if c = ':' && (flow || atGap rest) then l.readValue
    else if c = '*' then l.readAnchor .alias
    else if c = '&' then l.readAnchor .anchor
    else if c = '!' then l.readTag
    else if c = '|' && !flow then l.readBlockScalar .literal
    else if c = '>' && !flow then l.readBlockScalar .folded
    else if c = '\'' then l.readQuoted .singleQuoted '\''
    else if c = '"' then l.readQuoted .doubleQuoted '"'
    else if startsPlain flow c rest && !isBlank c then l.readPlain
    else l.problem "found character that cannot start any token"

/-- Passes over white space and reads the next token. -/
def next (l : Lexer) : Except Problem Lexer := do
  let l ← (l.toNextToken (l.cursor.rest.length + 1)).dropStaleKeys
  (l.closeBlocks l.mark.column).readToken

/-- Reads all tokens. Each one takes at least a character, so that the length
of the text bounds their number. -/
def readAll : Nat → Lexer → Except Problem (List Token)
  | 0, l => l.problem "did not find the end of the stream"
  | fuel + 1, l =>
    match l.next with
    | .error e => .error e
    | .ok l =>
      match l.tokens with
      | ⟨.streamEnd, _, _⟩ :: _ => .ok l.tokens.reverse
      | _ => readAll fuel l

end Lexer

/-- The tokens of a text. -/
def tokensOf (s : List Char) : Except Problem (List Token) :=
  match s.find? fun c => !isAllowed c with
  | some _ => .error ⟨"control characters are not allowed", .start⟩
  | none => (Lexer.ofText s).readAll (s.length + 2)

end Promotion.Yaml
