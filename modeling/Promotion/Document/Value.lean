import Promotion.Decimal.Shortest
import Promotion.Text.Quoted

/-!
# `Promotion.Document.Value`: what a document holds

The values that YAML and JSON documents are made of. A JSON document uses
no tags, and only texts as the keys of a mapping.

* `Value.same`: equality of values, mappings without regard to order.
* `Value.describe`: what a value is called when it is not what was asked for.
-/

set_option autoImplicit false

namespace Promotion

open Promotion.Decimal (Binary64)

/-- The two document formats. -/
inductive Format where
  | yaml
  | json
  deriving DecidableEq, Repr, Inhabited

namespace Format

/-- All formats, in the order they are offered. -/
def all : List Format := [.yaml, .json]

/-- The name of a format on the command line. -/
def name : Format → String
  | .yaml => "yaml"
  | .json => "json"

/-- The format of a name. -/
def ofName? (name : String) : Option Format :=
  all.find? fun f => f.name = name

end Format

/-- A value in a document. -/
inductive Value where
  | null
  | bool (b : Bool)
  | int (n : Int)
  | float (x : Binary64)
  | text (s : String)
  | list (items : List Value)
  | map (entries : List (Value × Value))
  | tagged (tag : String) (value : Value)
  deriving Repr, Inhabited

namespace Value

/-- The value without the tags around it. -/
def untagged : Value → Value
  | tagged _ v => untagged v
  | v => v

mutual

/-- Whether two values are equal: numbers by value, a whole number never being
a floating-point number; lists item by item; mappings entry by entry in any
order; tags by name. -/
def same : Value → Value → Bool
  | null, null => true
  | bool a, bool b => a == b
  | int a, int b => a == b
  | float a, float b => a.sameValue b
  | text a, text b => a == b
  | list as, list bs => sameItems as bs
  | map as, map bs => as.length == bs.length && sameEntries as bs
  | tagged s a, tagged t b => s == t && same a b
  | _, _ => false

/-- Whether two lists hold equal values in the same order. -/
def sameItems : List Value → List Value → Bool
  | [], [] => true
  | a :: as, b :: bs => same a b && sameItems as bs
  | _, _ => false

/-- Whether each entry of the first mapping is in the second. -/
def sameEntries : List (Value × Value) → List (Value × Value) → Bool
  | [], _ => true
  | (k, v) :: rest, bs => sameEntry k v bs && sameEntries rest bs

/-- Whether an entry is in a mapping. -/
def sameEntry (k v : Value) : List (Value × Value) → Bool
  | [] => false
  | (l, w) :: rest => (same k l && same v w) || sameEntry k v rest

end

/-- The entry of a mapping under a text. -/
def get? (entries : List (Value × Value)) (key : String) : Option Value :=
  (entries.find? fun e => match e.1 with
    | .text s => s == key
    | _ => false).map (·.2)

/-- What a value is called in a message. The formats differ in the word for
nothing and in how they write floating-point numbers. -/
def describe (format : Format) : Value → String
  | null => match format with
    | .yaml => "unit value"
    | .json => "null"
  | bool b => if b then "boolean `true`" else "boolean `false`"
  | int n => s!"integer `{n}`"
  | float x => match format with
    | .yaml => s!"floating point `{x.pointed}`"
    | .json => s!"floating point `{x.compact}`"
  | text s => s!"string {Text.quoted s}"
  | list _ => "sequence"
  | map _ => "map"
  | tagged _ _ => "enum"

end Value

end Promotion
