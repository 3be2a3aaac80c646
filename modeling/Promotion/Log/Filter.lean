import Promotion.Log.Event

/-!
# `Promotion.Log.Filter`: which events are shown

A filter is a list of directives, separated by commas when it is written. A
directive gives a level to the events of a target, to those with certain
fields, or to all. Of the directives that concern an event the most
particular one decides.

* `LogFilter.ofString?`: the filter of a text.
* `LogFilter.allows`: whether an event is shown.
-/

set_option autoImplicit false

namespace Promotion

/-- A level given to some events; without a level they are not shown. -/
structure Directive where
  target : Option String
  /-- The fields that an event must have. -/
  fields : List String
  level : Option Level
  deriving DecidableEq, Repr

/-- What is shown of the log. -/
structure LogFilter where
  directives : List Directive
  deriving DecidableEq, Repr

namespace Directive

/-- The directive that gives a level to all events. -/
def everywhere (level : Option Level) : Directive := ⟨none, [], level⟩

/-- The level of a number. -/
def levelOfNat? : Nat → Option (Option Level)
  | 0 => some none
  | 1 => some (some .error)
  | 2 => some (some .warn)
  | 3 => some (some .info)
  | 4 => some (some .debug)
  | 5 => some (some .trace)
  | _ => none

/-- The level of a name in letters of either case. -/
def levelOfName? (name : String) : Option (Option Level) :=
  match name with
  | "off" => some none
  | "error" => some (some .error)
  | "warn" => some (some .warn)
  | "info" => some (some .info)
  | "debug" => some (some .debug)
  | "trace" => some (some .trace)
  | _ => none

/-- The level that a word stands for: a number up to five, or a name. -/
def levelOf? (word : List Char) : Option (Option Level) :=
  let digits := if word.head? = some '+' then word.tail else word
  if digits ≠ [] && digits.all Char.isDigit then
    levelOfNat? (digits.foldl (fun n c => 10 * n + (c.toNat - '0'.toNat)) 0)
  else levelOfName? (String.ofList (word.map Char.toLower))

/-- The level behind an equals sign; nothing there means all levels. -/
def levelAfter? (word : List Char) : Option (Option Level) :=
  if word = [] then some (some .trace) else levelOf? word

/-- Whether a directive may start with a character. -/
def startsWord (c : Char) : Bool :=
  c.isAlphanum || 0x80 ≤ c.toNat || c = '-' || c = ':' || c = '_'

/-- A directive that is read: one for events, or one that asks for a span or
for the value of a field, which no event has. -/
inductive Reading where
  | forEvents (directive : Directive)
  | forSpans

/-- The fields between braces: names, and whether a value is asked for. -/
def fieldsOf? (text : List Char) : Option (List String × Bool) :=
  let parts := text.splitOn ','
  if parts.any List.isEmpty then none
  else some (parts.map fun part => String.ofList (part.takeWhile (· ≠ '=')),
    parts.any fun part => part.contains '=')

/-- The part of a directive between square brackets: the name of a span, the
fields, and whether a value is asked for. -/
def spanOf? (text : List Char) : Option (Bool × List String × Bool) :=
  let name := text.takeWhile (· ≠ '\x7b')
  match text.dropWhile (· ≠ '\x7b') with
  | [] => some (true, [], false)
  | _ :: inner =>
    if inner.getLast? = some '\x7d' then
      (fieldsOf? inner.dropLast).map fun r => (!name.isEmpty, r)
    else none

/-- A directive from its parts. -/
def ofParts? (target : List Char) (span : Option (List Char)) (level : Option (List Char)) :
    Option Reading :=
  let target := if target = [] then none else some (String.ofList target)
  match (level.map levelAfter?).getD (some (some .trace)) with
  | none => none
  | some level =>
    match span with
    | none => some (.forEvents ⟨target, [], level⟩)
    | some text =>
      match spanOf? text with
      | none => none
      | some (true, _, _) => some .forSpans
      | some (false, _, true) => some .forSpans
      | some (false, fields, false) => some (.forEvents ⟨target, fields, level⟩)

/-- The directive of a text: a level alone, or a target, a span in square
brackets and a level behind an equals sign. -/
def ofText? (text : List Char) : Option Reading :=
  match text with
  | [] => some (.forEvents (everywhere (some .trace)))
  | first :: _ =>
    if first ≠ '[' && !startsWord first then none
    else
      let target := text.takeWhile fun c => c ≠ '=' && c ≠ '['
      match text.dropWhile fun c => c ≠ '=' && c ≠ '[' with
      | [] =>
        match levelOf? text with
        | some level => some (.forEvents (everywhere level))
        | none => ofParts? target none none
      | '=' :: level => ofParts? target none (some level)
      | _ :: rest =>
        let span := rest.takeWhile (· ≠ ']')
        match rest.dropWhile (· ≠ ']') with
        | [] => none
        | [_] => ofParts? target (some span) none
        | _ :: '=' :: level => ofParts? target (some span) (some level)
        | _ :: _ => none

/-- Whether an event has a field; the message counts as one. -/
def hasField (e : Event) (name : String) : Bool :=
  name = "message" || e.fields.any fun field => field.1 = name

/-- Whether a directive concerns an event: the target of the event starts
with that of the directive, and the event has the fields. -/
def concerns (d : Directive) (e : Event) : Bool :=
  (d.target.map (·.toList.isPrefixOf e.target.toList)).getD true && d.fields.all (hasField e)

/-- How particular a directive is: first by the length of its target, then by
the number of its fields. -/
def rank (d : Directive) : Nat × Nat :=
  ((d.target.map (·.utf8ByteSize + 1)).getD 0, d.fields.length)

/-- Whether `d` is at least as particular as `d'`. -/
def outranks (d d' : Directive) : Bool :=
  d'.rank.1 < d.rank.1 || d'.rank.1 = d.rank.1 && d'.rank.2 ≤ d.rank.2

/-- Whether a directive shows events of a level. -/
def shows (d : Directive) (level : Level) : Bool :=
  match d.level with
  | none => false
  | some limit => level.rank ≤ limit.rank

end Directive

namespace LogFilter

/-- The filter that shows all events up to a level. -/
def upTo (level : Level) : LogFilter := ⟨[.everywhere (some level)]⟩

/-- The readings of the directives of a text. -/
def readings? (text : String) : Option (List Directive.Reading) :=
  ((text.toList.splitOn ',').filter fun part => !part.isEmpty).mapM Directive.ofText?

/-- The filter of a text, unless one of its directives is malformed. -/
def ofString? (text : String) : Option LogFilter :=
  (readings? text).map fun readings =>
    ⟨readings.filterMap fun
      | .forEvents d => some d
      | .forSpans => none⟩

/-- The directive that decides about an event: of those that concern it the
most particular, and of several such the last. -/
def deciding? (f : LogFilter) (e : Event) : Option Directive :=
  (f.directives.filter fun d => d.concerns e).foldl (fun best d =>
    match best with
    | none => some d
    | some b => if d.outranks b then some d else some b) none

/-- Whether an event is shown. -/
def allows (f : LogFilter) (e : Event) : Bool :=
  match f.deciding? e with
  | none => false
  | some d => d.shows e.level

/-- The filter of a run: the text that was asked for, unless it is malformed,
and else up to `info`, or up to `debug` in a run that tells more. -/
def choose (asked : Option String) (verbose : Bool) : LogFilter :=
  (asked.bind ofString?).getD (upTo (if verbose then .debug else .info))

end LogFilter

end Promotion
