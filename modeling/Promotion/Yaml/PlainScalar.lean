import Promotion.Yaml.Folding

/-!
# `Promotion.Yaml.PlainScalar`: scalars without quotation marks

A plain scalar ends at a colon before a gap, at a comment, at the marker of
a document, at a line that is not indented, and inside brackets at a comma
or bracket.
-/

set_option autoImplicit false

namespace Promotion.Yaml.PlainScalar

/-- The characters that end a plain scalar inside brackets. -/
def endsInFlow (c : Char) : Bool := c = ',' || c = '[' || c = ']' || c = '\x7b' || c = '\x7d'

/-- Whether `c` ends a plain scalar that goes on with `rest`. -/
def isEnd (flow : Bool) (c : Char) (rest : List Char) : Bool :=
  (c = ':' && atGap rest) || (flow && endsInFlow c)

/-- Whether a colon stands before an indicator where brackets are open. -/
def isBadColon (flow : Bool) (c : Char) (rest : List Char) : Bool :=
  flow && c = ':' && match rest with
    | d :: _ => endsInFlow d || d = '?'
    | [] => false

/-- What was read: the text, whether a line break followed it, and the cursor. -/
structure Result where
  text : List Char
  broken : Bool
  cursor : Cursor

/-- Reads on from a place inside the scalar; `done` is the text so far in
reverse and `f` the white space since. The fuel is the length of the text. -/
def readFrom (flow : Bool) (indent : Nat) :
    Nat → List Char → Folding → Cursor → Except Problem Result
  | 0, done, f, c => .ok ⟨done.reverse, f.broken, c⟩
  | fuel + 1, done, f, c =>
    match c.rest with
    | [] => .ok ⟨done.reverse, f.broken, c⟩
    | b :: rest =>
      if isBlank b || isBreak b then
        match Folding.read indent c.rest.length f c with
        | .error e => .error e
        | .ok (f, c) =>
          if (!flow && c.mark.column < indent) || c.atDocument || c.rest.head? = some '#' then
            .ok ⟨done.reverse, f.broken, c⟩
          else readFrom flow indent fuel done f c
      else if isBadColon flow b rest then c.problem "found unexpected ':'"
      else if isEnd flow b rest then .ok ⟨done.reverse, f.broken, c⟩
      else readFrom flow indent fuel (b :: (f.text.reverse ++ done)) {} c.skip

/-- Reads a plain scalar whose further lines are indented to `indent`. -/
def read (flow : Bool) (indent : Nat) (c : Cursor) : Except Problem Result :=
  readFrom flow indent c.rest.length [] {} c

end Promotion.Yaml.PlainScalar
