import Promotion.Yaml.Cursor

/-!
# `Promotion.Yaml.Token`: the tokens of YAML
-/

set_option autoImplicit false

namespace Promotion.Yaml

/-- How a scalar is written. -/
inductive Style where
  | plain
  | singleQuoted
  | doubleQuoted
  | literal
  | folded
  deriving DecidableEq, Repr

namespace Token

/-- The kinds of tokens. The starts and ends of block collections come from
the indentation, and a key that is not marked as one from the colon after
it. -/
inductive Kind where
  | streamEnd
  | versionDirective (major minor : Nat)
  | tagDirective (handle start : List Char)
  | documentStart
  | documentEnd
  | blockSequenceStart
  | blockMappingStart
  | blockEnd
  | flowSequenceStart
  | flowSequenceEnd
  | flowMappingStart
  | flowMappingEnd
  | blockEntry
  | flowEntry
  | key
  | value
  | alias (name : List Char)
  | anchor (name : List Char)
  | tag (handle suffix : List Char)
  | scalar (text : List Char) (style : Style)
  deriving DecidableEq, Repr

end Token

/-- A token with the places where it starts and where an indicator of one
character ends. -/
structure Token where
  kind : Token.Kind
  start : Mark
  stop : Mark
  deriving DecidableEq, Repr

end Promotion.Yaml
