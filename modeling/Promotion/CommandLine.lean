import Promotion.Command.Bundle
import Promotion.Command.Sync
import Promotion.Log.Filter
import Promotion.Log.Line
import Promotion.Shell
import Promotion.Version.Comparison

/-!
# `Promotion.CommandLine`: a run of the program

* `Invocation.run`: what an invocation does.
* `CommandLine.run`: a whole run, from the arguments to the exit code, the
  printed text and the log.
-/

set_option autoImplicit false

namespace Promotion

/-- Reads a version of the command line. -/
def readVersion (text : String) : Action Version :=
  Action.ofExcept ((Version.parse text).mapError .invalidVersion)

namespace Command

/-- Carries out a command. A workspace that is not given is the current
directory. -/
def run (command : Command) (workspace : Option Path) : Action Unit := do
  let workspace := workspace.getD (← Action.tree).currentPath
  match command with
  | .sync arguments => arguments.run workspace
  | .bundle arguments => arguments.run workspace
  | .compare left right =>
    let left ← readVersion left
    let right ← readVersion right
    (Version.comparison left right).forM Action.printLine
  | .version => Release.buildLines.forM Action.printLine
  | .completions shell =>
    match Shell.ofName? shell with
    | some shell => Action.print shell.script
    | none => throw (.unknownShell shell)

end Command

/-- Carries out an invocation. -/
def Invocation.run (i : Invocation) : Action Unit := i.command.run i.workspace

/-- What the environment of a run says. -/
structure Surroundings where
  workspace : Option String := none
  log : Option String := none
  deriving DecidableEq, Repr

/-- What a run leaves apart from files: the exit code, the printed text, and
the log with the report of a failure. -/
structure Outcome where
  exitCode : Nat
  printed : String
  log : String
  deriving DecidableEq, Repr

namespace CommandLine

/-- The variable that names the workspace. -/
def workspaceVariable : String := "PROMOTER_WORKSPACE"

/-- The variable that says what is shown of the log. -/
def logVariable : String := "RUST_LOG"

/-- The surroundings that the variables of the environment describe. -/
def surroundings (value? : String → Option String) : Surroundings :=
  ⟨value? workspaceVariable, value? logVariable⟩

/-- The outcome of arguments that name no command. -/
def refusal (problem : Arguments.Problem) : Outcome :=
  match problem with
  | .helpAsked => ⟨problem.exitCode, Release.usage, ""⟩
  | .versionAsked => ⟨problem.exitCode, Release.title ++ "\n", ""⟩
  | .nothingGiven => ⟨problem.exitCode, "", Release.usage⟩
  | _ => ⟨problem.exitCode, "", s!"error: {problem.message}\n\n{Release.usage}"⟩

/-- The log as it is shown. -/
def shown (filter : LogFilter) (events : List Event) : String :=
  String.join ((events.filter filter.allows).map Event.line)

/-- Carries out an invocation on a file system. -/
def perform (i : Invocation) (asked : Option String) (t : FileTree) : FileTree × Outcome :=
  let filter := LogFilter.choose asked i.verbose
  match i.run.run { tree := t } with
  | .ok () s => (s.tree, ⟨0, s.printed, shown filter s.events⟩)
  | .error failure s =>
    (s.tree, ⟨1, s.printed, shown filter s.events ++ s!"Error: {failure.message}\n"⟩)

/-- Runs the program on a file system, which has the null device as every system
does, whether or not it was read that far. -/
def run (around : Surroundings) (arguments : List String) (t : FileTree) : FileTree × Outcome :=
  let t := t.withNullDevice
  match Invocation.ofArguments around.workspace arguments with
  | .error problem => (t, refusal problem)
  | .ok i => perform i around.log t

end CommandLine

end Promotion
