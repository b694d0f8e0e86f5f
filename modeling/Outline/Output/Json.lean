import Outline.Output.Data
import Outline.Text.Quoted

/-!
# JSON

Documents as JSON, on one line or with an indent of two spaces.  All characters but quotes,
backslashes and the control characters of ASCII are written as they are.  This is the JSON of
`Printer.standard`, the printers of the program; what is written to files is left to a `Printer`.
-/

namespace Outline.Data

/-- A control character as a code of four digits. -/
def controlEscape (c : Char) : List Char :=
  ['\\', 'u', '0', '0'] ++ (if c.toNat < 16 then ['0'] else []) ++ Text.hexDigits c.toNat

/-- A character inside a string. -/
def jsonChar (c : Char) : List Char :=
  if c == '\x22' then ['\\', '\x22']
  else if c == '\\' then ['\\', '\\']
  else if c == '\x08' then ['\\', 'b']
  else if c == '\x0C' then ['\\', 'f']
  else if c == '\n' then ['\\', 'n']
  else if c == '\r' then ['\\', 'r']
  else if c == '\t' then ['\\', 't']
  else if c.toNat < 0x20 then controlEscape c
  else [c]

/-- A text between quotes. -/
def jsonString (s : String) : String :=
  String.ofList ('\x22' :: s.toList.flatMap jsonChar ++ ['\x22'])

/-- Items between brackets, separated by commas. -/
def enclose (opening closing : String) (items : List String) : String :=
  opening ++ ",".intercalate items ++ closing

mutual

/-- The document on one line. -/
def compact : Data → String
  | null => "null"
  | bool b => if b then "true" else "false"
  | number n => toString n
  | text s => jsonString s
  | list items => enclose "[" "]" (compactAll items)
  | record fields => enclose "\x7b" "\x7d" (compactFields fields)

/-- The items of a list, each on one line. -/
def compactAll : List Data → List String
  | [] => []
  | item :: items => item.compact :: compactAll items

/-- The fields of a record, each on one line. -/
def compactFields : List (String × Data) → List String
  | [] => []
  | (name, value) :: fields => (jsonString name ++ ":" ++ value.compact) :: compactFields fields

end

/-- Items between brackets on lines of their own, the brackets at the given indent. -/
def encloseLines (opening closing : String) (indent : Nat) (items : List String) : String :=
  if items.isEmpty then opening ++ closing
  else
    let line := "\n".pushn ' ' (indent + 2)
    opening ++ line ++ ("," ++ line).intercalate items ++ "\n".pushn ' ' indent ++ closing

mutual

/-- The document over several lines, the first of which stands at the given indent. -/
def prettyAt (indent : Nat) : Data → String
  | null => "null"
  | bool b => if b then "true" else "false"
  | number n => toString n
  | text s => jsonString s
  | list items => encloseLines "[" "]" indent (prettyAll (indent + 2) items)
  | record fields => encloseLines "\x7b" "\x7d" indent (prettyFields (indent + 2) fields)

/-- The items of a list at the given indent. -/
def prettyAll (indent : Nat) : List Data → List String
  | [] => []
  | item :: items => item.prettyAt indent :: prettyAll indent items

/-- The fields of a record at the given indent. -/
def prettyFields (indent : Nat) : List (String × Data) → List String
  | [] => []
  | (name, value) :: fields =>
    (jsonString name ++ ": " ++ value.prettyAt indent) :: prettyFields indent fields

end

/-- The document over several lines. -/
def pretty (d : Data) : String := d.prettyAt 0

end Outline.Data
