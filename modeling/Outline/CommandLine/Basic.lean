import Outline.CommandLine.Arguments
import Outline.Output.Record
import Outline.Run.Standard
import Outline.Settings.Document

/-!
# Commands

What each command prints, and what it leaves in the file tree.  A command that fails prints
nothing on the standard output; the messages of its error, each followed by the one of the error
behind it, are kept apart.
-/

namespace Outline.CommandLine

/-! ## Outcomes -/

/-- What a command has done. -/
structure Outcome where
  /-- The exit code. -/
  exitCode : Nat := 0
  /-- The text on the standard output, for a run that took the given number of milliseconds. -/
  output : (milliseconds : String) → String := fun _ => ""
  /-- The lines of notes on the standard error output. -/
  notes : List String := []
  /-- The messages of the error that ended the command, the outermost first. -/
  errors : List String := []
  /-- The file tree after the command. -/
  tree : FileTree

namespace Outcome

/-- A command that prints a text. -/
def printed (tree : FileTree) (text : String) : Outcome := { output := fun _ => text, tree }

/-- A command that fails. -/
def failed (tree : FileTree) (errors : List String) : Outcome := { exitCode := 1, errors, tree }

/-- The result of a computation that may fail. -/
def ofExcept (tree : FileTree) : Except (List String) Outcome → Outcome
  | .ok outcome => outcome
  | .error errors => failed tree errors

end Outcome

/-! ## Commands on a file -/

/-- The language as which the tokens of a file are read. -/
def tokenLanguage (file : Path) : Option String → Except (List String) Language
  | some name =>
    match Language.ofName? name with
    | some l => .ok l
    | none => .error ["Unknown language: " ++ name]
  | none =>
    match Language.ofExtension? (file.extension?.getD "") with
    | some l => .ok l
    | none => .error ["Unsupported file type: " ++ file.text]

/-- Prints the token tree of a file. -/
def printTokens (t : FileTree) (file : Path) (language? : Option String) :
    Except (List String) Outcome := do
  let l ← tokenLanguage file language?
  let text ← (t.readText file).mapError fun e => ["reading " ++ file.text, e.message]
  let tree ← (TokenTree.read { language := l } text).mapError ([·.message])
  pure (.printed t tree.dump)

/-- Prints the declarations of a file. -/
def printDeclarations (s : Settings) (t : FileTree) (file : Path) :
    Except (List String) Outcome := do
  let source := SourceFile.below (file.parent?.getD file) file
  let u ← (source.read t s.reading s.maxFileSize).mapError RunError.messages
  let records := u.declarations.map (·.record TypeRef.record)
  pure {
    Outcome.printed t ((Data.list records).pretty ++ "\n") with
    notes := u.warnings.map ("warning: " ++ ·) }

/-! ## Commands on a project -/

/-- The report on a run. -/
def runText (r : RunResult) (milliseconds : String) : String :=
  let missing := r.project.missing.keys
  "Parsed " ++ toString r.report.units.length ++ " files in " ++ milliseconds ++ " ms: " ++
    r.report.metrics.text ++ "\n" ++
    "Resolved " ++ toString r.project.declarations.size ++ " blocks\n" ++
    (if missing.isEmpty then ""
      else "Missing namespaces (" ++ toString missing.length ++ "):\n" ++
        String.join (missing.map fun name => "  " ++ name ++ "\n")) ++
    String.join (r.written.map fun w =>
      "Wrote " ++ toString w.count ++ " blocks to " ++ w.path.text ++ "\n")

/-- The notes on a run: the files that are left out, and the warnings. -/
def runNotes (r : RunResult) : List String :=
  r.report.failures.map (fun f => "  failed: " ++ f.sourceId ++ ": " ++ f.error.message) ++
    r.report.warnings.map fun (sourceId, warning) => "  warning: " ++ sourceId ++ ": " ++ warning

/-- Runs over a project. -/
def runProject (s : Settings) (t : FileTree) (sources : List Path) (destinations : List String) :
    Outcome :=
  match (destinations.mapM Destination.parse).mapError RunError.destination with
  | .error e => .failed t e.messages
  | .ok destinations =>
    match s.run t sources destinations with
    | (t, .error e) => .failed t e.messages
    | (t, .ok r) => { output := runText r, notes := runNotes r, tree := t }

/-- The settings with those that the arguments of a run override. -/
def overrideRun (s : Settings) (threads? : Option Nat) (format? : Option OutputFormat)
    (failFast : Bool) : Settings :=
  { s with
    workflow := { s.workflow with
      threads := (threads?.map (max 1)).getD s.workflow.threads
      failFast := s.workflow.failFast || failFast }
    output := { s.output with format := format?.getD s.output.format } }

/-- Prints the line statistics of a project. -/
def printStats (s : Settings) (t : FileTree) (paths : List Path) (extensions : List String)
    (json : Bool) : Except (List String) Outcome := do
  let stats ← (CodeStats.collect t s.workflow.filter paths extensions).mapError
    fun e => (RunError.access e).messages
  let table := stats.text ++ String.join (stats.uncategorized.map fun f =>
    "  uncategorized: " ++ f.sourceId ++ "\n")
  pure (.printed t (if json then stats.record.pretty ++ "\n" else table))

/-! ## All commands -/

/-- Carries a command out. -/
def Command.execute (s : Settings) (t : FileTree) : Command → Outcome
  | .tokens file language? => .ofExcept t (printTokens t file language?)
  | .parse file => .ofExcept t (printDeclarations s t file)
  | .resolve sources destinations threads? format? failFast =>
    runProject (overrideRun s threads? format? failFast) t sources destinations
  | .stats paths extensions json => .ofExcept t (printStats s t paths extensions json)
  | .config => .printed t Settings.defaultText

/-- The messages of an error in the settings and of the one behind it. -/
def settingsMessages (e : SettingsError) : List String :=
  e.message :: match e with
    | .unreadable cause => [cause.message]
    | .malformed => ["malformed document"]
    | .invalid _ => []

/-- The settings for a command. -/
def loadSettings (t : FileTree) (environment : Settings.Environment) (config? : Option Path) :
    Except (List String) Settings :=
  match config? with
  | none => (Settings.load t environment).mapError settingsMessages
  | some p =>
    (Settings.ofFile t environment p).mapError fun e => ("loading " ++ p.text) :: settingsMessages e

/-- The explanation of the arguments. -/
def helpText : String :=
  "Extract and resolve class signatures from C#, Java and TypeScript sources\n\n" ++
  "Usage: codesig [OPTIONS] <COMMAND>\n\n" ++
  "Commands:\n" ++
  "  tokens   Print the token tree of a source file\n" ++
  "  parse    Print the block signatures of a source file as JSON\n" ++
  "  resolve  Parse a project, resolve its types and write destination files\n" ++
  "  stats    Count total, blank and comment lines per file and per language\n" ++
  "  config   Print the default configuration\n" ++
  "  help     Print this message or the help of the given subcommand(s)\n"

/-- Does what the arguments ask for.  Arguments that make no sense have an exit code of their
own. -/
def run (t : FileTree) (environment : Settings.Environment) (arguments : List String) : Outcome :=
  match Request.ofArguments arguments with
  | .error e => { exitCode := 2, notes := ["error: " ++ e.message], tree := t }
  | .ok .help => .printed t helpText
  | .ok (.run config? command) =>
    match loadSettings t environment config? with
    | .error errors => .failed t errors
    | .ok s => command.execute s t

end Outline.CommandLine
