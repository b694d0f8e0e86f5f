import Outline.FileTree.SourceFile
import Outline.Output.Format
import Outline.Text.NumberLike
import Outline.Unit.Basic

/-!
# Settings

What a user can choose, with the defaults, the overrides from the environment and the settings
that are refused.
-/

namespace Outline

/-! ## The settings -/

/-- How the files of a project are found and processed. -/
structure WorkflowSettings where
  /-- How many files are read at a time. -/
  threads : Nat := 8
  /-- How many seconds a file may take; no limit if it is zero. -/
  timeoutSeconds : Nat := 30
  /-- Whether the first file that cannot be read ends the work. -/
  failFast : Bool := false
  /-- The extensions of source files, without dots. -/
  extensions : List String := ["cs", "java", "ts", "tsx", "mts", "cts"]
  /-- The names of directories that are passed over. -/
  excludedDirectories : List String :=
    [".git", ".svn", ".hg", "node_modules", "vendor", "packages", "target", "build", "dist", "out",
      "bin", "obj", ".idea", ".vscode", ".vs"]
  deriving DecidableEq, Repr

namespace WorkflowSettings

/-- The limit on the time for a file. -/
def timeout? (s : WorkflowSettings) : Option Nat :=
  if 0 < s.timeoutSeconds then some s.timeoutSeconds else none

/-- Which files are source files. -/
def filter (s : WorkflowSettings) : SourceFilter := ⟨s.extensions, s.excludedDirectories⟩

end WorkflowSettings

/-- The settings. -/
structure Settings where
  /-- How source files are read. -/
  reading : ReadingOptions := {}
  /-- The largest number of bytes of a source file. -/
  maxFileSize : Nat := 2 * 1024 * 1024
  /-- How the files of a project are found and processed. -/
  workflow : WorkflowSettings := {}
  /-- How output is written. -/
  output : OutputStyle := {}
  deriving DecidableEq, Repr

/-! ## Errors -/

/-- Settings that are refused. -/
inductive SettingsFault where
  /-- Identifiers may not hold any angle brackets. -/
  | noDepth
  /-- No file may be read. -/
  | noThreads
  /-- There are no source files. -/
  | noExtensions
  deriving DecidableEq, Repr

namespace SettingsFault

/-- How the fault reads. -/
def message : SettingsFault → String
  | noDepth => "parse.max_generic_depth must be at least 1"
  | noThreads => "workflow.threads must be at least 1"
  | noExtensions => "workflow.extensions must not be empty"

end SettingsFault

/-- Why there are no settings. -/
inductive SettingsError where
  /-- The file cannot be read. -/
  | unreadable (cause : FileError)
  /-- The file is malformed, or a setting in it has the wrong type. -/
  | malformed
  /-- The settings are refused. -/
  | invalid (fault : SettingsFault)
  deriving DecidableEq, Repr

namespace SettingsError

/-- How the error reads. -/
def message : SettingsError → String
  | unreadable cause => "Failed to read config file: " ++ cause.message
  | malformed => "Failed to parse config file: " ++ "malformed document"
  | invalid fault => "Invalid configuration: " ++ fault.message

end SettingsError

namespace Settings

/-- The first reason for which the settings are refused. -/
def fault? (s : Settings) : Option SettingsFault :=
  if s.reading.maxDepth == 0 then some .noDepth
  else if s.workflow.threads == 0 then some .noThreads
  else if s.workflow.extensions.isEmpty then some .noExtensions
  else none

/-- Checks the settings. -/
def check (s : Settings) : Except SettingsError Settings :=
  match s.fault? with
  | some fault => .error (.invalid fault)
  | none => .ok s

/-! ## Overrides -/

/-- The variables of the environment. -/
abbrev Environment := List (String × String)

/-- The number that a text of digits stands for, if it fits into 64 bits. -/
def number? (cs : List Char) : Option Nat :=
  let digits := if cs.head? == some '+' then cs.drop 1 else cs
  (Text.digitsValue? 10 digits).filter (· < UInt64.size)

/-- The truth value that a text stands for. -/
def bool? (cs : List Char) : Option Bool :=
  if cs == "true".toList then some true else if cs == "false".toList then some false else none

/-- A variable without the white space around it, if it can be read. -/
def readVariable {α : Type} (environment : Environment) (name : String)
    (read : List Char → Option α) : Option α :=
  (environment.lookup name).bind fun value => read (Text.trim value.toList)

/-- The settings with those that the environment overrides.  A variable that cannot be read is
passed over. -/
def withOverrides (s : Settings) (environment : Environment) : Settings :=
  let number (name : String) (default : Nat) : Nat :=
    (readVariable environment name number?).getD default
  { reading :=
      { maxDepth := number "CODESIG_MAX_GENERIC_DEPTH" s.reading.maxDepth
        malformed := (readVariable environment "CODESIG_MALFORMED_TYPES" fun cs =>
          MalformedPolicy.ofCode? (String.ofList cs)).getD s.reading.malformed }
    maxFileSize := number "CODESIG_MAX_FILE_SIZE" s.maxFileSize
    workflow :=
      { s.workflow with
        threads := number "CODESIG_THREADS" s.workflow.threads
        timeoutSeconds := number "CODESIG_TIMEOUT_SECS" s.workflow.timeoutSeconds
        failFast := (readVariable environment "CODESIG_FAIL_FAST" bool?).getD s.workflow.failFast }
    output :=
      { s.output with
        format := (readVariable environment "CODESIG_FORMAT" fun cs =>
          OutputFormat.ofName? (String.ofList cs)).getD s.output.format } }

/-! ## Text -/

/-- A text between quotes. -/
def quoted (s : String) : String := "\"" ++ s ++ "\""

/-- The lines of a list of texts. -/
def listText (items : List String) : String :=
  "[\n" ++ String.join (items.map fun s => "    " ++ quoted s ++ ",\n") ++ "]"

/-- The settings as the text of a configuration file. -/
def text (s : Settings) : String :=
  let line (name value : String) : String := name ++ " = " ++ value ++ "\n"
  "[parse]\n" ++
    line "max_generic_depth" (toString s.reading.maxDepth) ++
    line "malformed_types" (quoted s.reading.malformed.code) ++
    line "max_file_size" (toString s.maxFileSize) ++
    "\n[workflow]\n" ++
    line "threads" (toString s.workflow.threads) ++
    line "timeout_secs" (toString s.workflow.timeoutSeconds) ++
    line "fail_fast" (toString s.workflow.failFast) ++
    line "extensions" (listText s.workflow.extensions) ++
    line "exclude_dirs" (listText s.workflow.excludedDirectories) ++
    "\n[output]\n" ++
    line "format" (quoted s.output.format.code) ++
    line "pretty" (toString s.output.pretty)

/-- The text of the default settings. -/
def defaultText : String := ({} : Settings).text

end Settings

end Outline
