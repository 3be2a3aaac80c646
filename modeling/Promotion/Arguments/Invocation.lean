import Promotion.Arguments.Reader
import Promotion.Path.Basic

/-!
# `Promotion.Arguments.Invocation`: what the user asked for

* `Invocation`: a command with its arguments, and the options of the whole
  program.
* `Invocation.ofArguments`: the invocation that arguments stand for.

The workspace may be given with the command, with the program, or by a
variable of the environment; the first of these counts.
-/

set_option autoImplicit false

namespace Promotion

/-- The arguments of `sync`. -/
structure SyncArguments where
  source : Path
  destination : Path
  strategy : Option Strategy
  output : Option Path
  format : Format
  deriving DecidableEq, Repr

/-- The arguments of `bundle`. -/
structure BundleArguments where
  name : String
  root : Option Path
  output : Option Path
  descriptor : Option String
  payload : Option String
  extension : Option String
  direct : Bool
  dryRun : Bool
  deriving DecidableEq, Repr

/-- The commands with their arguments. -/
inductive Command where
  | sync (arguments : SyncArguments)
  | bundle (arguments : BundleArguments)
  | compare (left right : String)
  | version
  | completions (shell : String)
  deriving DecidableEq, Repr

/-- What the user asked for. -/
structure Invocation where
  workspace : Option Path
  verbose : Bool
  command : Command
  deriving DecidableEq, Repr

namespace Arguments

namespace Given

/-- The value of an option as a path. -/
def path? (g : Given) (name : String) : Option Path := (g.value? name).map .ofString

/-- The value of an option that must be given. -/
def require (g : Given) (name : String) : Except Problem String :=
  match g.value? name with
  | some value => .ok value
  | none => .error (.argumentMissing name)

/-- The positional argument at a place, which must be given. -/
def requireWord (g : Given) (place : Nat) (name : String) : Except Problem String :=
  match g.words[place]? with
  | some word => .ok word
  | none => .error (.argumentMissing name)

end Given

/-- Refuses an empty workspace in the environment unless one was given. -/
def checkAmbient (ambient : Option String) (g : Given) : Except Problem Unit :=
  match ambient with
  | none => .ok ()
  | some value =>
    if g.has "workspace" || ValueKind.path.accepts value then .ok ()
    else .error (.unusableValue "workspace" value)

/-- Reads all arguments of a scope. -/
def readScope (scope : Scope) (ambient : Option String) (arguments : List String) :
    Except Problem Given := do
  let (reader, _) ← Reader.read scope {} arguments
  let given ← reader.settle
  checkAmbient ambient given
  return given

/-- The arguments of `sync`. -/
def syncOf (g : Given) : Except Problem SyncArguments := do
  let source ← g.require "source"
  let destination ← g.require "destination"
  return { source := .ofString source
           destination := .ofString destination
           strategy := (g.value? "strategy").bind Strategy.ofName?
           output := g.path? "output"
           format := ((g.value? "format").bind Format.ofName?).getD .yaml }

/-- The arguments of `bundle`. -/
def bundleOf (g : Given) : Except Problem BundleArguments := do
  let name ← g.require "name"
  return { name := name
           root := g.path? "root"
           output := g.path? "output"
           descriptor := g.value? "descriptor"
           payload := g.value? "payload"
           extension := g.value? "extension"
           direct := g.has "direct"
           dryRun := g.has "dry-run" }

/-- Reads the arguments behind the name of a command. -/
def readCommand (ambient : Option String) (name : String) (arguments : List String) :
    Except Problem (Given × Command) := do
  if name = "sync" then
    let g ← readScope .sync ambient arguments
    return (g, .sync (← syncOf g))
  else if name = "bundle" then
    let g ← readScope .bundle ambient arguments
    return (g, .bundle (← bundleOf g))
  else if name = "compare" then
    let g ← readScope (.positional 2) ambient arguments
    return (g, .compare (← g.requireWord 0 "left") (← g.requireWord 1 "right"))
  else if name = "version" then
    let g ← readScope (.positional 0) ambient arguments
    return (g, .version)
  else
    let g ← readScope (.positional 1) ambient arguments
    return (g, .completions (← g.requireWord 0 "shell"))

/-- What asking for help on some commands comes to. Only the commands of the
program have help of their own. -/
def explain : List String → Problem
  | [] => .helpAsked
  | name :: rest =>
    if Scope.program.commands.contains name then
      match rest with
      | [] => .helpAsked
      | word :: _ => .unknownCommand word
    else .unknownCommand name

end Arguments

open Arguments in
/-- The invocation that arguments stand for. `ambient` is the workspace that
the environment names. -/
def Invocation.ofArguments (ambient : Option String) (arguments : List String) :
    Except Problem Invocation := do
  match ← Reader.read .program {} arguments with
  | (reader, some (name, rest)) =>
    if name = Scope.helpName then throw (explain rest)
    let (inner, command) ← readCommand ambient name rest
    let outer ← reader.settle
    checkAmbient ambient outer
    return { workspace := inner.path? "workspace" <|> outer.path? "workspace"
               <|> ambient.map .ofString
             verbose := inner.has "verbose" || outer.has "verbose"
             command := command }
  | (reader, none) =>
    let outer ← reader.settle
    checkAmbient ambient outer
    throw (if outer.options.isEmpty && ambient.isNone then .nothingGiven else .commandMissing)

end Promotion
