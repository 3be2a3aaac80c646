import Promotion.Arguments.Grammar
import Promotion.Arguments.Problem

/-!
# `Promotion.Arguments.Reader`: reading the arguments of a scope

Arguments are read from left to right. An option that takes a value waits
for it: the next argument that is no option becomes its value. Values that
stand apart from their option are looked at only when the next option or
positional argument comes, or at the end. After `--` there are no more
options.

* `Reader.read`: what was given at a scope, and the command that followed.
-/

set_option autoImplicit false

namespace Promotion.Arguments

/-- What an argument looks like. -/
inductive Token where
  /-- The argument `--`. -/
  | separator
  /-- A long name, with a value if there is an equals sign. -/
  | long (name : String) (value : Option String)
  /-- Letters behind a single hyphen. -/
  | letters (letters : List Char)
  | word (text : String)
  deriving DecidableEq, Repr

namespace Token

/-- The long name and the value that stand behind two hyphens. -/
def ofLong (text : List Char) : Token :=
  let name := String.ofList (text.takeWhile (· ≠ '='))
  match text.dropWhile (· ≠ '=') with
  | [] => .long name none
  | _ :: value => .long name (some (String.ofList value))

/-- What an argument looks like; a single hyphen is a word. -/
def ofString (text : String) : Token :=
  match text.toList with
  | ['-', '-'] => .separator
  | '-' :: '-' :: rest => ofLong rest
  | ['-'] => .word text
  | '-' :: rest => .letters rest
  | _ => .word text

end Token

/-- What was given at a scope. -/
structure Given where
  /-- The options with their values, flags with an empty one. -/
  options : List (String × String) := []
  /-- The positional arguments. -/
  words : List String := []
  deriving DecidableEq, Repr

namespace Given

/-- The value of an option. -/
def value? (g : Given) (name : String) : Option String :=
  (g.options.find? fun o => o.1 = name).map (·.2)

/-- Whether an option was given. -/
def has (g : Given) (name : String) : Bool := (g.value? name).isSome

/-- Adds an option that was not given before. -/
def add (g : Given) (name value : String) : Except Problem Given :=
  if g.has name then .error (.givenTwice name)
  else .ok { g with options := g.options ++ [(name, value)] }

end Given

/-- A reader in the middle of a scope: what was given, and the option that
waits for its value or for its value to be looked at. -/
structure Reader where
  given : Given := {}
  waiting : Option (String × ValueKind × Option String) := none
  deriving DecidableEq, Repr

namespace Reader

/-- Whether the next word is the value of an option. -/
def expectsValue (r : Reader) : Bool :=
  match r.waiting with
  | some (_, _, none) => true
  | _ => false

/-- Gives an option a value. -/
def take (g : Given) (name : String) (kind : ValueKind) (value : String) : Except Problem Given :=
  match g.add name value with
  | .error problem => .error problem
  | .ok g => if kind.accepts value then .ok g else .error (.unusableValue name value)

/-- What was given, the option that waited being done with. -/
def settle (r : Reader) : Except Problem Given :=
  match r.waiting with
  | none => .ok r.given
  | some (name, _, none) => .error (.unusableValue name "")
  | some (name, kind, some value) => take r.given name kind value

/-- Reads an option, with its value if that stands with it. -/
def option (r : Reader) (o : OptionSpec) (value : Option String) : Except Problem Reader :=
  match o.kind, value with
  | .value kind, some value => do return { given := ← take (← r.settle) o.name kind value }
  | .value kind, none => do return { given := ← r.settle, waiting := some (o.name, kind, none) }
  | _, some _ => .error (.valueNotTaken o.name)
  | .flag, none => do return { given := ← (← r.settle).add o.name "" }
  | .help, none => do let _ ← r.settle; throw .helpAsked
  | .version, none => do let _ ← r.settle; throw .versionAsked

/-- Reads an option by its long name. -/
def long (scope : Scope) (r : Reader) (name : String) (value : Option String) :
    Except Problem Reader :=
  match scope.named? name with
  | none => .error (.unknownArgument s!"--{name}")
  | some o => r.option o value

/-- The value that follows a letter directly, perhaps behind an equals sign. -/
def attached : List Char → Option String
  | [] => none
  | '=' :: rest => some (String.ofList rest)
  | rest => some (String.ofList rest)

/-- Reads options by their letters; what follows the letter of an option with
a value is its value. -/
def letters (scope : Scope) (r : Reader) : List Char → Except Problem Reader
  | [] => .ok r
  | c :: rest =>
    match scope.lettered? c with
    | none => .error (.unknownArgument s!"-{c}")
    | some o =>
      match o.kind with
      | .value _ => r.option o (attached rest)
      | _ =>
        match r.option o none with
        | .error problem => .error problem
        | .ok r => letters scope r rest

/-- Reads a positional argument; `separated` tells whether it stands after
`--`. -/
def word (scope : Scope) (separated : Bool) (r : Reader) (text : String) :
    Except Problem Reader :=
  if r.given.words.length < scope.places then do
    let given ← r.settle
    return { given := { given with words := given.words ++ [text] } }
  else if scope.commands.isEmpty || separated && scope.commands.contains text then
    .error (.unknownArgument text)
  else .error (.unknownCommand text)

/-- Reads a word that is the value of the option that waits, or positional. -/
def valueOrWord (scope : Scope) (r : Reader) (text : String) : Except Problem Reader :=
  match r.waiting with
  | some (name, kind, none) => .ok { r with waiting := some (name, kind, some text) }
  | _ => r.word scope false text

/-- A scope that was read: the reader at its end, and the command that ended
it with the arguments behind it. -/
abbrev Ending := Reader × Option (String × List String)

/-- Reads the arguments of a scope after `--`. -/
def readWords (scope : Scope) (r : Reader) : List String → Except Problem Ending
  | [] => .ok (r, none)
  | text :: rest =>
    match r.word scope true text with
    | .error problem => .error problem
    | .ok r => readWords scope r rest

/-- Reads one argument that names no command. -/
def step (scope : Scope) (r : Reader) (text : String) : Except Problem Reader :=
  match Token.ofString text with
  | .separator => .ok r
  | .long name value => r.long scope name value
  | .letters cs => r.letters scope cs
  | .word text => r.valueOrWord scope text

/-- Reads the arguments of a scope, up to the command that one of them names. -/
def read (scope : Scope) (r : Reader) : List String → Except Problem Ending
  | [] => .ok (r, none)
  | text :: rest =>
    if !r.expectsValue && scope.commands.contains text then .ok (r, some (text, rest))
    else if Token.ofString text = .separator then readWords scope r rest
    else match r.step scope text with
      | .error problem => .error problem
      | .ok r => read scope r rest

end Reader

end Promotion.Arguments
