import Outline.FileTree.Path
import Outline.Output.Format
import Outline.Settings.Basic

/-!
# Arguments of the command line

The arguments are read from left to right.  An argument with one or two hyphens is an option, and
an option with a value takes the part behind an equals sign or else the next argument.  The first
other argument names the command; `--` ends the options.

The options `--config` and `--verbose` may stand before and after the name of the command.
-/

namespace Outline.CommandLine

/-! ## Commands -/

/-- What a user asks for. -/
inductive Command where
  /-- The tokens of a file, read as the given language. -/
  | tokens (file : Path) (language? : Option String)
  /-- The declarations of a file. -/
  | parse (file : Path)
  /-- A run over a project. -/
  | resolve (sources : List Path) (destinations : List String) (threads? : Option Nat)
      (format? : Option OutputFormat) (failFast : Bool)
  /-- The line statistics of a project. -/
  | stats (paths : List Path) (extensions : List String) (json : Bool)
  /-- The default settings. -/
  | config
  deriving DecidableEq, Repr

/-- What the arguments ask for. -/
inductive Request where
  /-- An explanation of the arguments. -/
  | help
  /-- A command, with the configuration file if one is named. -/
  | run (config? : Option Path) (command : Command)
  deriving DecidableEq, Repr

/-- The arguments make no sense. -/
inductive UsageError where
  /-- An argument is not expected. -/
  | unexpected (argument : String)
  /-- An option has no value, or one that it does not admit. -/
  | badValue (option : String)
  /-- An option is given twice. -/
  | repeated (option : String)
  /-- Something is missing. -/
  | missing (what : String)
  deriving DecidableEq, Repr

namespace UsageError

/-- How the error reads. -/
def message : UsageError → String
  | unexpected argument => "unexpected argument '" ++ argument ++ "'"
  | badValue option => "invalid value for '--" ++ option ++ "'"
  | repeated option => "the argument '--" ++ option ++ "' cannot be used multiple times"
  | missing what => "missing " ++ what

end UsageError

/-! ## Options -/

/-- An option. -/
structure OptionRule where
  /-- Its name, which two hyphens precede. -/
  name : String
  /-- Its letter, which one hyphen precedes. -/
  letter? : Option Char := none
  /-- Whether a value is accepted; without this, the option takes none. -/
  accepts? : Option (String → Bool) := none
  /-- Whether it may be given several times. -/
  repeats : Bool := false

/-- Whether a text can be a path. -/
def isPathText (s : String) : Bool := s != ""

/-- The options that may stand everywhere. -/
def globalOptions : List OptionRule :=
  [{ name := "help", letter? := some 'h' },
    { name := "verbose", letter? := some 'v', repeats := true },
    { name := "config", accepts? := some isPathText }]

/-- The words that may stand between the options. -/
inductive WordRule where
  /-- The name of a command, to which everything behind it belongs. -/
  | commandName
  /-- At most the given number of paths. -/
  | atMost (limit : Nat)
  /-- Any number of paths. -/
  | any
  deriving DecidableEq, Repr

/-- The options and arguments that are read so far. -/
structure Given where
  /-- The options with their values, in order; an option without a value has an empty one. -/
  options : List (String × String) := []
  /-- The other arguments, in order. -/
  words : List String := []
  /-- The arguments that are left to a command. -/
  rest : List String := []
  deriving DecidableEq, Repr

namespace Given

/-- The last value of an option. -/
def value? (g : Given) (name : String) : Option String := g.options.reverse.lookup name

/-- The values of an option. -/
def values (g : Given) (name : String) : List String :=
  (g.options.filter (·.1 == name)).map (·.2)

/-- Whether an option is given. -/
def has (g : Given) (name : String) : Bool := (g.value? name).isSome

end Given

/-- Why the reading of arguments ends early. -/
inductive Stop where
  /-- An explanation is asked for. -/
  | help
  /-- The arguments make no sense. -/
  | usage (e : UsageError)
  deriving DecidableEq, Repr

/-- Adds an option without a value. -/
def addFlag (rule : OptionRule) (g : Given) : Except Stop Given :=
  if rule.accepts?.isSome then .error (.usage (.badValue rule.name))
  else if rule.name == "help" then .error .help
  else if g.has rule.name && !rule.repeats then .error (.usage (.repeated rule.name))
  else .ok { g with options := g.options ++ [(rule.name, "")] }

/-- Adds an option with its value. -/
def addValue (rule : OptionRule) (value : String) (g : Given) : Except Stop Given :=
  match rule.accepts? with
  | none => .error (.usage (.badValue rule.name))
  | some accepts =>
    if !accepts value then .error (.usage (.badValue rule.name))
    else if g.has rule.name && !rule.repeats then .error (.usage (.repeated rule.name))
    else .ok { g with options := g.options ++ [(rule.name, value)] }

/-- Adds the options of a group of letters. -/
def addLetters (rules : List OptionRule) (letters : List Char) (g : Given) : Except Stop Given :=
  letters.foldlM (fun g c =>
    match rules.find? (·.letter? == some c) with
    | some rule => addFlag rule g
    | none => .error (.usage (.unexpected (String.ofList ['-', c])))) g

/-- Whether an argument starts with a hyphen; a hyphen alone is a word. -/
def isOption (argument : String) : Bool :=
  match argument.toList with
  | '-' :: _ :: _ => true
  | _ => false

/-- Whether a path may follow so many others. -/
def WordRule.admits : WordRule → Nat → Bool
  | commandName, _ => false
  | atMost limit, n => n < limit
  | any, _ => true

/-- Adds a path. -/
def addWord (words : WordRule) (word : String) (g : Given) : Except Stop Given :=
  if words.admits g.words.length && isPathText word then .ok { g with words := g.words ++ [word] }
  else .error (.usage (.unexpected word))

/-- Reads arguments. -/
def read (rules : List OptionRule) (words : WordRule) (g : Given) :
    List String → Except Stop Given
  | [] => .ok g
  | argument :: rest =>
    match argument.toList with
    | ['-', '-'] => rest.foldlM (fun g word => addWord words word g) g
    | '-' :: '-' :: body =>
      let name := String.ofList (body.takeWhile (· != '='))
      match rules.find? (·.name == name), body.dropWhile (· != '='), rest with
      | none, _, _ => .error (.usage (.unexpected argument))
      | some rule, _ :: value, rest => do
        let g ← addValue rule (String.ofList value) g
        read rules words g rest
      | some rule, [], value :: rest =>
        if rule.accepts?.isNone then do
          let g ← addFlag rule g
          read rules words g (value :: rest)
        else if isOption value then .error (.usage (.badValue name))
        else do
          let g ← addValue rule value g
          read rules words g rest
      | some rule, [], [] => addFlag rule g
    | '-' :: c :: letters => do
      let g ← addLetters rules (c :: letters) g
      read rules words g rest
    | _ =>
      if words == .commandName then .ok { g with words := [argument], rest }
      else do
        let g ← addWord words argument g
        read rules words g rest

/-! ## Reading commands -/

/-- The options of a command and its words. -/
structure CommandRule where
  /-- The name of the command. -/
  name : String
  /-- Its options, apart from those that may stand everywhere. -/
  options : List OptionRule
  /-- Its words. -/
  words : WordRule
  /-- The command with the given arguments. -/
  command : Given → Except UsageError Command

/-- The file of a command on a single file. -/
def onlyFile (g : Given) : Except UsageError Path :=
  match g.words with
  | [] => .error (.missing "file")
  | word :: _ => .ok ⟨word⟩

/-- The command on the tokens of a file. -/
def tokensRule : CommandRule where
  name := "tokens"
  options := [{ name := "language", accepts? := some fun _ => true }]
  words := .atMost 1
  command g := (onlyFile g).map fun file => .tokens file (g.value? "language")

/-- The command on the declarations of a file. -/
def parseRule : CommandRule where
  name := "parse"
  options := []
  words := .atMost 1
  command g := (onlyFile g).map .parse

/-- The command that runs over a project. -/
def resolveRule : CommandRule where
  name := "resolve"
  options := [
    { name := "src", accepts? := some isPathText, repeats := true },
    { name := "dest", accepts? := some fun _ => true, repeats := true },
    { name := "threads", accepts? := some fun s => (Settings.number? s.toList).isSome },
    { name := "format", accepts? := some fun s => (OutputFormat.ofCode? s).isSome },
    { name := "fail-fast" }]
  words := .atMost 0
  command g :=
    if g.has "src" then
      .ok (.resolve ((g.values "src").map Path.mk) (g.values "dest")
        ((g.value? "threads").bind fun s => Settings.number? s.toList)
        ((g.value? "format").bind OutputFormat.ofCode?) (g.has "fail-fast"))
    else .error (.missing "--src")

/-- The command on line statistics. -/
def statsRule : CommandRule where
  name := "stats"
  options := [
    { name := "ext", accepts? := some fun _ => true, repeats := true },
    { name := "json" }]
  words := .any
  command g :=
    if g.words.isEmpty then .error (.missing "paths")
    else .ok (.stats (g.words.map Path.mk) (g.values "ext") (g.has "json"))

/-- The command on the default settings. -/
def configRule : CommandRule where
  name := "config"
  options := []
  words := .atMost 0
  command _ := .ok .config

/-- The commands. -/
def commandRules : List CommandRule := [tokensRule, parseRule, resolveRule, statsRule, configRule]

/-- Reads the arguments behind a request for help: the name of a command, if any. -/
def readHelp : List String → Stop
  | [] => .help
  | ["help"] => .help
  | name :: rest =>
    if rest.isEmpty && commandRules.any (·.name == name) then .help
    else .usage (.unexpected name)

/-- Reads all arguments. -/
def readAll (arguments : List String) : Except Stop Request := do
  let g ← read globalOptions .commandName {} arguments
  match g.words with
  | [] => throw (.usage (.missing "command"))
  | "help" :: _ => throw (readHelp g.rest)
  | name :: _ =>
    match commandRules.find? (·.name == name) with
    | none => throw (.usage (.unexpected name))
    | some rule =>
      let inner ← read (globalOptions ++ rule.options) rule.words {} g.rest
      let command ← (rule.command inner).mapError .usage
      pure (.run (((inner.value? "config").or (g.value? "config")).map Path.mk) command)

/-- What the arguments ask for. -/
def Request.ofArguments (arguments : List String) : Except UsageError Request :=
  match readAll arguments with
  | .ok r => .ok r
  | .error .help => .ok .help
  | .error (.usage e) => .error e

end Outline.CommandLine
