import Outline.Output.Data
import Outline.Output.Yaml.Scalar

/-!
# YAML

Documents as YAML in block style.  The fields of a record stand on lines of their own; the items
of a list that is the value of a field start at the column of the field.  This is the YAML of
`Printer.standard`, the printers of the program; what is written to files is left to a `Printer`.
-/

namespace Outline.Data

/-- The text `out` with a new line that starts at the given column.  A text that ends with a line
break needs none. -/
def newLine (column : Nat) (out : String) : String :=
  let out := if out.isEmpty || Yaml.isBreak out.back then out else out ++ "\n"
  out.pushn ' ' column

/-- The place of a value in a document. -/
inductive YamlPlace where
  /-- The start of the document. -/
  | top
  /-- Behind the dash of a list item or the question mark or colon of a long key. -/
  | inline
  /-- Behind a key. -/
  | afterKey
  deriving DecidableEq, Repr

/-- The text `out` at the start of an entry at the given column.  The first entry behind a dash
stays on its line. -/
def startEntry (place : YamlPlace) (isFirst : Bool) (column : Nat) (out : String) : String :=
  if place == .inline && isFirst then out ++ " " else newLine column out

mutual

/-- Appends a value to `out`, where `column` is the column of the entry that it belongs to. -/
def appendYaml (place : YamlPlace) (column : Nat) (out : String) : Data → String
  | null => out ++ " null"
  | bool b => out ++ (if b then " true" else " false")
  | number n => out ++ " " ++ toString n
  | text s => out ++ " " ++ Yaml.scalar (column + 2) s
  | list [] => out ++ " []"
  | record [] => out ++ " \x7b\x7d"
  | list items =>
    appendItems place true (if place == .inline then column + 2 else column) out items
  | record fields =>
    appendEntries place true (if place == .top then column else column + 2) out fields

/-- Appends the items of a list to `out`. -/
def appendItems (place : YamlPlace) (isFirst : Bool) (column : Nat) (out : String) :
    List Data → String
  | [] => out
  | item :: items =>
    let out := startEntry place isFirst column out ++ "-"
    appendItems place false column (item.appendYaml .inline column out) items

/-- Appends the fields of a record to `out`. -/
def appendEntries (place : YamlPlace) (isFirst : Bool) (column : Nat) (out : String) :
    List (String × Data) → String
  | [] => out
  | (name, value) :: fields =>
    let out := startEntry place isFirst column out
    let out :=
      if Yaml.isSimpleKey name then
        value.appendYaml .afterKey column (out ++ Yaml.scalar (column + 2) name ++ ":")
      else
        let key := newLine column (out ++ "? " ++ Yaml.scalar (column + 2) name)
        value.appendYaml .inline column (key ++ ":")
    appendEntries place false column out fields

end

/-- The document in block style. -/
def yaml (d : Data) : String := newLine 0 (d.appendYaml .top 0 "")

end Outline.Data
