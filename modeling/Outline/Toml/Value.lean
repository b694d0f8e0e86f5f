import Outline.Toml.Lexeme

/-!
# Values of a configuration file

Values and the statements that set them.  Tables that are written inside a value are closed: no
later statement adds to them.
-/

namespace Outline.Toml

/-- A value of a configuration file. -/
inductive Value where
  /-- A text. -/
  | text (s : String)
  /-- An integer. -/
  | integer (n : Int)
  /-- A truth value. -/
  | bool (b : Bool)
  /-- A floating point number. -/
  | float
  /-- A date or a time. -/
  | dateTime
  /-- A list of values. -/
  | array (items : List Value)
  /-- Values with names. -/
  | table (fields : List (String × Value))
  deriving Repr, Inhabited

namespace Value

/-- The value that a word stands for. -/
def ofWord? (cs : List Char) : Option Value :=
  if cs == "true".toList then some (bool true)
  else if cs == "false".toList then some (bool false)
  else match integer? cs with
    | some n => some (integer n)
    | none =>
      if isFloat cs then some float
      else if isDateTime cs then some dateTime
      else none

end Value

/-! ## Tables -/

/-- A table that is being filled. -/
inductive Node where
  /-- A value, which is closed. -/
  | value (v : Value)
  /-- A table.  It is `implied` if only its parts have been named so far, and `dotted` if they
  have been named by keys with dots. -/
  | table (implied dotted : Bool) (fields : List (String × Node))
  /-- A list of tables, of which the last one is filled. -/
  | tables (items : List Node)
  deriving Repr, Inhabited

namespace Node

/-- A table that is named by itself. -/
def openTable : Node := table false false []

mutual

/-- The value of a node. -/
def toValue : Node → Value
  | value v => v
  | table _ _ fields => .table (fieldValues fields)
  | tables items => .array (values items)

/-- The values of a list of fields. -/
def fieldValues : List (String × Node) → List (String × Value)
  | [] => []
  | (key, n) :: fields => (key, n.toValue) :: fieldValues fields

/-- The values of a list of nodes. -/
def values : List Node → List Value
  | [] => []
  | n :: ns => n.toValue :: values ns

end

/-- Replaces or adds the field with the given name. -/
def setField (fields : List (String × Node)) (key : String) (n : Node) : List (String × Node) :=
  if (fields.lookup key).isSome then
    fields.map fun f => if f.1 == key then (key, n) else f
  else fields ++ [(key, n)]

/-- Changes the table to which a path leads.  Tables that are missing on the way are implied.  A
path in the key of a field does not lead through tables that are named by themselves. -/
def edit (byField : Bool) (change : Node → Option Node) : List String → Node → Option Node
  | [], n => change n
  | key :: path, table implied dotted fields => do
    let next ← match fields.lookup key with
      | none => edit byField change path (table true byField [])
      | some (value _) => none
      | some (table implied' dotted' fields') =>
        if byField && !implied' then none
        else edit byField change path (table implied' dotted' fields')
      | some (tables items) =>
        match items.reverse with
        | last :: earlier =>
          (edit byField change path last).map fun n => tables (earlier.reverse ++ [n])
        | [] => none
    pure (table implied dotted (setField fields key next))
  | _ :: _, _ => none

/-- Sets a field of a table.  A field is set once, and a table is filled either by its header or
by keys with dots. -/
def setValue (byPath : Bool) (key : String) (v : Value) : Node → Option Node
  | table implied dotted fields =>
    if dotted == byPath && (fields.lookup key).isNone then
      some (table implied dotted (fields ++ [(key, value v)]))
    else none
  | _ => none

/-- Sets the value that a key with dots names. -/
def assign (key : List String) (v : Value) (n : Node) : Option Node :=
  match key.getLast? with
  | none => none
  | some last => n.edit true (setValue (key.length != 1) last v) key.dropLast

/-- Starts the table with the given name. -/
def startTable (key : String) : Node → Option Node
  | table implied dotted fields =>
    match fields.lookup key with
    | none => some (table implied dotted (fields ++ [(key, openTable)]))
    | some (table true false inner) =>
      some (table implied dotted (setField fields key (table false false inner)))
    | some _ => none
  | _ => none

/-- Starts the next table of the list with the given name. -/
def startItem (key : String) : Node → Option Node
  | table implied dotted fields =>
    match fields.lookup key with
    | none => some (table implied dotted (fields ++ [(key, tables [openTable])]))
    | some (tables items) =>
      some (table implied dotted (setField fields key (tables (items ++ [openTable]))))
    | some _ => none
  | _ => none

/-- Changes the parent of the table to which a path leads, given the last part of the path. -/
def editAbove (change : String → Node → Option Node) (path : List String) (n : Node) :
    Option Node :=
  match path.getLast? with
  | none => none
  | some last => n.edit false (change last) path.dropLast

end Node

/-! ## Values in a text -/

/-- The table with the given fields, which are set in order. -/
def tableOf (fields : List (List String × Value)) : Option Value :=
  (fields.foldlM (fun n f => Node.assign f.1 f.2 n) Node.openTable).map Node.toValue

mutual

/-- Reads a value; `steps` bounds the number of readings inside it. -/
def readValueIn : (steps : Nat) → List Char → Option (Value × List Char)
  | 0, _ => none
  | steps + 1, cs =>
    match cs with
    | '[' :: cs => (readItems steps cs).map (Prod.map .array id)
    | '\x7b' :: cs =>
      match skipSpace cs with
      | '\x7d' :: rest => some (.table [], rest)
      | cs => do
        let (fields, rest) ← readFields steps cs
        pure (← tableOf fields, rest)
    | '\x22' :: _ => (readText cs).map (Prod.map .text id)
    | '\x27' :: _ => (readText cs).map (Prod.map .text id)
    | cs =>
      let (word, rest) := splitWord cs
      (Value.ofWord? word).map (·, rest)

/-- Reads the items of a list up to its closing bracket. -/
def readItems : (steps : Nat) → List Char → Option (List Value × List Char)
  | 0, _ => none
  | steps + 1, cs => do
    match ← skipLines false cs with
    | ']' :: rest => pure ([], rest)
    | cs =>
      let (v, rest) ← readValueIn steps cs
      match ← skipLines false rest with
      | ',' :: rest =>
        let (vs, rest) ← readItems steps rest
        pure (v :: vs, rest)
      | ']' :: rest => pure ([v], rest)
      | _ => none

/-- Reads the fields of a table up to its closing bracket. -/
def readFields : (steps : Nat) → List Char → Option (List (List String × Value) × List Char)
  | 0, _ => none
  | steps + 1, cs => do
    let (key, rest) ← readKey cs
    match rest with
    | '=' :: rest =>
      let (v, rest) ← readValueIn steps (skipSpace rest)
      match skipSpace rest with
      | ',' :: rest =>
        let (fields, rest) ← readFields steps rest
        pure ((key, v) :: fields, rest)
      | '\x7d' :: rest => pure ([(key, v)], rest)
      | _ => none
    | _ => none

end

/-- Reads a value. -/
def readValue (cs : List Char) : Option (Value × List Char) := readValueIn (2 * cs.length + 2) cs

/-! ## Documents -/

/-- A table that is being filled by the statements of a document, with the path to the part that
is filled. -/
structure Filling where
  /-- The whole table. -/
  whole : Node := .openTable
  /-- The path to the part. -/
  path : List String := []
  deriving Repr

namespace Filling

/-- Reads the header of a table between single brackets. -/
def header (f : Filling) (cs : List Char) : Option (Filling × List Char) := do
  let (path, rest) ← readKey cs
  match rest with
  | ']' :: rest =>
    let whole ← f.whole.editAbove Node.startTable path
    pure (⟨whole, path⟩, ← endLine rest)
  | _ => none

/-- Reads the header of a table in a list, between double brackets. -/
def itemHeader (f : Filling) (cs : List Char) : Option (Filling × List Char) := do
  let (path, rest) ← readKey cs
  match rest with
  | ']' :: ']' :: rest =>
    let whole ← f.whole.editAbove Node.startItem path
    pure (⟨whole, path⟩, ← endLine rest)
  | _ => none

/-- Reads a key with its value. -/
def field (f : Filling) (cs : List Char) : Option (Filling × List Char) := do
  let (key, rest) ← readKey cs
  match rest with
  | '=' :: rest =>
    let (v, rest) ← readValue (skipSpace rest)
    let whole ← f.whole.edit false (·.assign key v) f.path
    pure ({ f with whole }, ← endLine rest)
  | _ => none

/-- Reads a statement, or a line without one. -/
def statement (f : Filling) (cs : List Char) : Option (Filling × List Char) :=
  match skipSpace cs with
  | '[' :: '[' :: cs => f.itemHeader cs
  | '[' :: cs => f.header cs
  | cs =>
    match endLine cs with
    | some rest => some (f, rest)
    | none => f.field cs

/-- Reads at most the given number of statements. -/
def statements : Nat → Filling → List Char → Option Filling
  | 0, f, cs => if cs.isEmpty then some f else none
  | steps + 1, f, cs => do
    if cs.isEmpty then pure f
    else
      let (f, rest) ← f.statement cs
      statements steps f rest

end Filling

/-- The fields of a document. -/
def parse (text : String) : Option Value :=
  let cs := text.toList
  let cs := if cs.head? == some '\uFEFF' then cs.drop 1 else cs
  (Filling.statements cs.length {} cs).map (·.whole.toValue)

end Outline.Toml
