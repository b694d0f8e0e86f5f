import Outline.Output.Data

/-!
# Output formats

The formats of output files, and who writes them.  How a document reads in JSON and in YAML is up
to a `Printer`; what is chosen here is which of its functions writes the document.
-/

namespace Outline

/-- A format of output files. -/
inductive OutputFormat where
  | json
  | yaml
  deriving DecidableEq, Repr, Inhabited

namespace OutputFormat

/-- Every format. -/
def all : List OutputFormat := [json, yaml]

/-- The name of the format, which is also the extension of its files. -/
def code : OutputFormat → String
  | json => "json"
  | yaml => "yaml"

/-- The format with exactly the given name. -/
def ofCode? (s : String) : Option OutputFormat := all.find? (·.code == s)

/-- The format that a user calls by the given name; capitals do not matter. -/
def ofName? (s : String) : Option OutputFormat :=
  match s.toLower with
  | "json" => some json
  | "yaml" | "yml" => some yaml
  | _ => none

/-- The extension of files of the format. -/
def extension (f : OutputFormat) : String := f.code

end OutputFormat

/-- How output is written. -/
structure OutputStyle where
  /-- The format. -/
  format : OutputFormat := .json
  /-- Whether a JSON document is spread over lines. -/
  pretty : Bool := true
  deriving DecidableEq, Repr

/-- What writes documents.  A document may be refused, with a message that tells why. -/
structure Printer where
  /-- JSON on one line. -/
  compactJson : Data → Except String String
  /-- JSON over several lines. -/
  prettyJson : Data → Except String String
  /-- YAML. -/
  yaml : Data → Except String String

namespace OutputStyle

/-- Writes a document. -/
def print (style : OutputStyle) (printer : Printer) (d : Data) : Except String String :=
  match style.format with
  | .json => if style.pretty then printer.prettyJson d else printer.compactJson d
  | .yaml => printer.yaml d

end OutputStyle

end Outline
