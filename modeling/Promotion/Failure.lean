import Promotion.Document.Error
import Promotion.Path.Basic
import Promotion.Review

/-!
# `Promotion.Failure`: what can go wrong

Every way in which a command can fail, with the sentence shown to the user
(`message`), a stable code (`code`) and advice where there is some (`help`).
-/

set_option autoImplicit false

namespace Promotion

/-- The causes of failure. -/
inductive Failure where
  | invalidVersion (reason : VersionError)
  | regression (regression : Regression)
  | manifestReadFailed (path : Path) (reason : String)
  | manifestParseFailed (path : Path) (reason : DocumentError)
  | manifestSerializeFailed (path : Path) (reason : String)
  | configReadFailed (path : Path) (reason : String)
  | configParseFailed (path : Path) (reason : DocumentError)
  | configInvalid (problem : String)
  | noBundlesFound (path : Path)
  | discoveryFailed (path : Path) (reason : String)
  | descriptorMissing (bundle : String) (path : Path)
  | payloadMissing (bundle : String) (path : Path)
  | assemblyFailed (bundle reason : String)
  | outputInsidePayload (bundle : String) (output payload : Path)
  | fileWriteFailed (path : Path) (reason : String)
  | fileReadFailed (path : Path) (reason : String)
  | io (problem : String)
  | unknownShell (shell : String)
  deriving DecidableEq, Repr

namespace Failure

/-- The sentence shown to the user. -/
def message : Failure → String
  | invalidVersion reason => s!"Invalid version: {reason.message}"
  | regression r =>
    s!"Package '{r.name}' ({r.sourceVersion.text}) is not newer than the destination ({r.destinationVersion.text})"
  | manifestReadFailed path reason =>
    s!"Failed to read package manifest: {path.display}: {reason}"
  | manifestParseFailed path reason =>
    s!"Failed to parse package manifest: {path.display}: {reason.message}"
  | manifestSerializeFailed path reason =>
    s!"Failed to serialize package manifest: {path.display}: {reason}"
  | configReadFailed path reason =>
    s!"Failed to read configuration file: {path.display}: {reason}"
  | configParseFailed path reason =>
    s!"Failed to parse configuration file: {path.display}: {reason.message}"
  | configInvalid problem => s!"Invalid configuration: {problem}"
  | noBundlesFound path => s!"No bundle found under: {path.display}"
  | discoveryFailed path reason => s!"Failed to scan for bundles in '{path.display}': {reason}"
  | descriptorMissing bundle path =>
    s!"Bundle '{bundle}' has no metadata descriptor at: {path.display}"
  | payloadMissing bundle path =>
    s!"Bundle '{bundle}' has no payload directory at: {path.display}"
  | assemblyFailed bundle reason => s!"Error creating bundle '{bundle}': {reason}"
  | outputInsidePayload bundle output payload =>
    s!"Output directory {output.display} of bundle '{bundle}' is inside its payload directory {payload.display}"
  | fileWriteFailed path reason => s!"Failed to write file: {path.display}: {reason}"
  | fileReadFailed path reason => s!"Failed to read file: {path.display}: {reason}"
  | io problem => s!"IO error: {problem}"
  | unknownShell shell => s!"Unknown shell: {shell}"

/-- The stable code of a cause. -/
def code : Failure → String
  | invalidVersion _ => "promoter::version::invalid"
  | regression _ => "promoter::sync::regression"
  | manifestReadFailed _ _ => "promoter::manifest::read_failed"
  | manifestParseFailed _ _ => "promoter::manifest::parse_failed"
  | manifestSerializeFailed _ _ => "promoter::manifest::serialize_failed"
  | configReadFailed _ _ => "promoter::config::read_failed"
  | configParseFailed _ _ => "promoter::config::parse_failed"
  | configInvalid _ => "promoter::config::invalid"
  | noBundlesFound _ => "promoter::bundle::none_found"
  | discoveryFailed _ _ => "promoter::bundle::discovery_failed"
  | descriptorMissing _ _ => "promoter::bundle::descriptor_missing"
  | payloadMissing _ _ => "promoter::bundle::payload_missing"
  | assemblyFailed _ _ => "promoter::bundle::assembly_failed"
  | outputInsidePayload _ _ _ => "promoter::bundle::output_inside_payload"
  | fileWriteFailed _ _ => "promoter::fs::write_failed"
  | fileReadFailed _ _ => "promoter::fs::read_failed"
  | io _ => "promoter::fs::io_error"
  | unknownShell _ => "promoter::cli::unknown_shell"

/-- What the user can do about it. -/
def help : Failure → Option String
  | invalidVersion _ =>
    some "Versions are dot-separated numbers with an optional qualifier, e.g. 1.2.0 or 1.2.0-SNAPSHOT"
  | regression _ =>
    some "You are trying to import an older version of the package. Bump the source version or use --strategy skip-old-versions"
  | manifestParseFailed _ _ =>
    some "A manifest is a list of \x7bname, version\x7d entries, optionally under a 'packages' key"
  | noBundlesFound _ =>
    some "Run the build first so the project root contains the descriptor and payload directory"
  | descriptorMissing _ _ =>
    some "Each bundle root must directly contain its descriptor file (e.g. package.json)"
  | payloadMissing _ _ =>
    some "Each bundle root must directly contain its payload directory (e.g. dist/)"
  | outputInsidePayload _ _ _ =>
    some "Write archives outside the payload tree, e.g. --output target"
  | unknownShell _ => some "Supported shells: bash, elvish, fish, powershell, zsh"
  | _ => none

end Failure

end Promotion
