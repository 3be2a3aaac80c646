import Promotion.Json.Token

/-!
# `Promotion.Json.Reader`: reading JSON

The tokens are put together by a machine that keeps the open lists and
mappings on a stack and knows what may come next. Of several entries with
one key the last counts, and a mapping is kept in the order of its keys.
-/

set_option autoImplicit false

namespace Promotion.Json

namespace Reader

/-- An open list or mapping; what it holds so far is kept in reverse. -/
inductive Frame where
  | list (items : List Value)
  | map (entries : List (String × Value)) (key : String)
  deriving Repr

/-- What may come next. -/
inductive Expect where
  /-- A value. -/
  | value
  /-- A value, or the end of the list just opened. -/
  | firstItem
  /-- The key of an entry. -/
  | key (entries : List (String × Value))
  /-- A key, or the end of the mapping just opened. -/
  | firstKey
  /-- The colon after a key. -/
  | colon (entries : List (String × Value)) (key : String)
  /-- A comma, or the end of the innermost list or mapping. -/
  | separator
  /-- Nothing: the value is complete. -/
  | done (v : Value)
  deriving Repr

/-- The machine: the open lists and mappings, innermost first. -/
structure State where
  stack : List Frame
  expect : Expect
  deriving Repr

/-- Lists and mappings may be nested this deep. -/
def depthLimit : Nat := 127

/-- Enters an entry into a mapping in the order of keys; an entry of the same
key is replaced. -/
def insertEntry (key : String) (v : Value) : List (String × Value) → List (String × Value)
  | [] => [(key, v)]
  | (k, w) :: rest =>
    if key < k then (key, v) :: (k, w) :: rest
    else if key = k then (key, v) :: rest
    else (k, w) :: insertEntry key v rest

/-- The mapping of entries that are given last to first. -/
def mapOf (entries : List (String × Value)) : Value :=
  .map ((entries.reverse.foldl (fun sorted e => insertEntry e.1 e.2 sorted) []).map fun e =>
    (.text e.1, e.2))

/-- The machine after a value is complete. -/
def complete (stack : List Frame) (v : Value) : State :=
  match stack with
  | [] => ⟨[], .done v⟩
  | .list items :: rest => ⟨.list (v :: items) :: rest, .separator⟩
  | .map entries key :: rest => ⟨.map ((key, v) :: entries) key :: rest, .separator⟩

/-- The machine after a token where a value may stand. -/
def startValue (stack : List Frame) : Token → Option State
  | .value v => some (complete stack v)
  | .openList =>
    if stack.length < depthLimit then some ⟨.list [] :: stack, .firstItem⟩ else none
  | .openMap =>
    if stack.length < depthLimit then some ⟨.map [] "" :: stack, .firstKey⟩ else none
  | _ => none

/-- The machine after a token where a key may stand. -/
def startKey (stack : List Frame) (entries : List (String × Value)) : Token → Option State
  | .value (.text key) => some ⟨stack, .colon entries key⟩
  | _ => none

/-- The machine after one more token. -/
def step (s : State) (token : Token) : Option State :=
  match s.expect, s.stack, token with
  | .value, stack, token => startValue stack token
  | .firstItem, .list _ :: stack, .closeList => some (complete stack (.list []))
  | .firstItem, stack, token => startValue stack token
  | .firstKey, .map _ _ :: stack, .closeMap => some (complete stack (mapOf []))
  | .firstKey, stack, token => startKey stack [] token
  | .key entries, stack, token => startKey stack entries token
  | .colon entries key, .map _ _ :: stack, .colon => some ⟨.map entries key :: stack, .value⟩
  | .separator, .list items :: stack, .comma => some ⟨.list items :: stack, .value⟩
  | .separator, .list items :: stack, .closeList => some (complete stack (.list items.reverse))
  | .separator, .map entries key :: stack, .comma =>
    some ⟨.map entries key :: stack, .key entries⟩
  | .separator, .map entries _ :: stack, .closeMap => some (complete stack (mapOf entries))
  | _, _, _ => none

/-- The machine after a row of tokens. -/
def run (s : State) (tokens : List Token) : Option State := tokens.foldlM step s

end Reader

/-- The value of a JSON text. -/
def read? (s : List Char) : Option Value :=
  match (Token.ofText? s).bind (Reader.run ⟨[], .value⟩) with
  | some ⟨_, .done v⟩ => some v
  | _ => none

end Promotion.Json
