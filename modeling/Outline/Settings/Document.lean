import Outline.Settings.Basic
import Outline.Toml.Value

/-!
# Settings in files

Settings are read from the configuration file of the project or else from that of the user.  A
setting that a file leaves out has its default, and names that are not known are passed over.  A
group of settings may also be written as a list of its values in order.
-/

namespace Outline

open Toml (Value)

namespace Settings

/-! ## Values -/

/-- A number that is not negative. -/
def natural? : Value → Option Nat
  | .integer n => if 0 ≤ n then some n.toNat else none
  | _ => none

/-- A truth value. -/
def flag? : Value → Option Bool
  | .bool b => some b
  | _ => none

/-- A text. -/
def text? : Value → Option String
  | .text s => some s
  | _ => none

/-- A list of texts. -/
def texts? : Value → Option (List String)
  | .array items => items.mapM text?
  | _ => none

/-- One of several words.  The word may also be the name of an empty table or list. -/
def word? {α : Type} (ofCode? : String → Option α) : Value → Option α
  | .text s => ofCode? s
  | .table [(s, .table [])] | .table [(s, .array [])] => ofCode? s
  | _ => none

/-! ## Groups -/

/-- The values of a group of settings with the given names. -/
def group? (names : List String) : Value → Option (List (String × Value))
  | .table fields => some fields
  | .array items => some (names.zip items)
  | _ => none

/-- A setting of a group, or its default if it is left out. -/
def setting? {α : Type} (group : List (String × Value)) (name : String)
    (read : Value → Option α) (default : α) : Option α :=
  match group.lookup name with
  | some v => read v
  | none => some default

/-- The group for the reading of files: the options and the largest size. -/
def readingGroup? (v : Value) : Option (ReadingOptions × Nat) := do
  let group ← group? ["max_generic_depth", "malformed_types", "max_file_size"] v
  let default : Settings := {}
  let maxDepth ← setting? group "max_generic_depth" natural? default.reading.maxDepth
  let malformed ←
    setting? group "malformed_types" (word? MalformedPolicy.ofCode?) default.reading.malformed
  let maxFileSize ← setting? group "max_file_size" natural? default.maxFileSize
  pure (⟨maxDepth, malformed⟩, maxFileSize)

/-- The group for the processing of files. -/
def workflowGroup? (v : Value) : Option WorkflowSettings := do
  let group ←
    group? ["threads", "timeout_secs", "fail_fast", "extensions", "exclude_dirs"] v
  let default : WorkflowSettings := {}
  pure {
    threads := ← setting? group "threads" natural? default.threads
    timeoutSeconds := ← setting? group "timeout_secs" natural? default.timeoutSeconds
    failFast := ← setting? group "fail_fast" flag? default.failFast
    extensions := ← setting? group "extensions" texts? default.extensions
    excludedDirectories := ← setting? group "exclude_dirs" texts? default.excludedDirectories }

/-- The group for output. -/
def outputGroup? (v : Value) : Option OutputStyle := do
  let group ← group? ["format", "pretty"] v
  let default : OutputStyle := {}
  pure {
    format := ← setting? group "format" (word? OutputFormat.ofCode?) default.format
    pretty := ← setting? group "pretty" flag? default.pretty }

/-- The settings in the fields of a document. -/
def ofValue? (v : Value) : Option Settings := do
  let groups ← group? [] v
  let default : Settings := {}
  let (reading, maxFileSize) ←
    setting? groups "parse" readingGroup? (default.reading, default.maxFileSize)
  let workflow ← setting? groups "workflow" workflowGroup? default.workflow
  let output ← setting? groups "output" outputGroup? default.output
  pure { reading, maxFileSize, workflow, output }

/-- The settings in the text of a configuration file. -/
def parse (text : String) : Except SettingsError Settings :=
  match (Toml.parse text).bind ofValue? with
  | some s => .ok s
  | none => .error .malformed

/-! ## Files -/

/-- The settings in a file, with overrides. -/
def ofFile (t : FileTree) (environment : Environment) (p : Path) :
    Except SettingsError Settings := do
  let text ← (t.readText p).mapError .unreadable
  let s ← parse text
  (s.withOverrides environment).check

/-- The configuration file of a project. -/
def projectFile : Path := ⟨"codesig.toml"⟩

/-- The variable that names the directory with the configuration of the user. -/
def userDirectoryVariable : String := "XDG_CONFIG_HOME"

/-- The directory with the configuration of the user: the one that the environment names by an
absolute path, or else `.config` in the home directory. -/
def userDirectory? (t : FileTree) (environment : Environment) : Option Path :=
  ((environment.lookup userDirectoryVariable).bind fun s =>
    if s.toList.head? == some '/' then some ⟨s⟩ else none).or <|
      t.home?.map fun home => ⟨"/" ++ "/".intercalate (home ++ [".config"])⟩

/-- The path of the configuration file of the user. -/
def userPath? (t : FileTree) (environment : Environment) : Option Path :=
  (userDirectory? t environment).map fun p => (p.child "codesig").child "config.toml"

/-- The settings for a run: those of the project, those of the user, or the defaults. -/
def load (t : FileTree) (environment : Environment) : Except SettingsError Settings :=
  match ([projectFile] ++ (userPath? t environment).toList).find? t.pathExists with
  | some p => ofFile t environment p
  | none => (({} : Settings).withOverrides environment).check

end Settings

end Outline
