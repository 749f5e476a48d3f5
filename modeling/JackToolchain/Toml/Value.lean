import JackToolchain.Text.Json

/-!
# Values of a document

Keys and values know their places in the document. Only the tables on the way to others have none.
-/

namespace JackToolchain.Toml

/-- A place in a document, by the counts of characters from its start and from its end to the end of
the document. -/
structure Extent where
  start : Nat
  stop : Nat
  deriving DecidableEq, Repr

/-- One part of a dotted key. -/
structure Key where
  text : String
  extent : Extent
  deriving DecidableEq, Repr

namespace Key

def isBareChar (c : Char) : Bool :=
  c.isAlphanum || c == '-' || c == '_'

/-- A character of a key between quotation marks, hexadecimal digits in upper case. -/
def escapedChar (c : Char) : List Char :=
  if c.toNat = 0x7f then "\\u007F".toList
  else
    match Text.jsonChar c with
    | ['\\', 'u', '0', '0', a, b] => ['\\', 'u', '0', '0', a.toUpper, b.toUpper]
    | escaped => escaped

/-- The key as it is written where the choice is free: bare if it can be, else between quotation
marks, or between apostrophes where that saves escapes. -/
def written (key : Key) : String :=
  let chars := key.text.toList
  let control := chars.any fun c => (c.toNat < 0x20 && c != '\t') || c.toNat == 0x7f
  let literal := !control && chars.any (fun c => c == '"' || c == '\\') && !chars.contains '\''
  if !chars.isEmpty && chars.all isBareChar then key.text
  else if literal then "'" ++ key.text ++ "'"
  else "\"" ++ String.ofList (chars.flatMap escapedChar) ++ "\""

end Key

/-- How a table came to be. -/
inductive Form
  /-- Under a header of its own. -/
  | header
  /-- On the way to the table of some header. -/
  | implicit
  /-- On the way of a dotted key. -/
  | dotted
  /-- Between braces. -/
  | inline
  deriving DecidableEq, Repr

inductive Value
  | string (extent : Extent) (text : String)
  | integer (extent : Extent) (value : Int)
  /-- A float by its decimal text. -/
  | float (extent : Extent) (text : String)
  | boolean (extent : Extent) (value : Bool)
  | dateTime (extent : Extent)
  | array (extent : Extent) (items : List Value)
  | table (extent : Option Extent) (form : Form) (entries : List (Key × Value))
  /-- The tables under one repeated header. -/
  | tables (extent : Extent) (items : List Value)
  deriving Repr

namespace Value

def extent? : Value → Option Extent
  | string e _ | integer e _ | float e _ | boolean e _ | dateTime e | array e _ | tables e _ => e
  | table e _ _ => e

/-- The name of the kind of a value. -/
def kind : Value → String
  | string .. => "string"
  | integer .. => "integer"
  | float .. => "float"
  | boolean .. => "boolean"
  | dateTime _ => "datetime"
  | array .. => "array"
  | table _ .inline _ => "inline table"
  | table .. => "table"
  | tables .. => "array of tables"

end Value

/-- The entries of a table, in the order in which their keys came up. -/
abbrev Entries := List (Key × Value)

namespace Entries

def get? (entries : Entries) (key : String) : Option Value :=
  (entries.find? fun (k, _) => k.text == key).map (·.2)

/-- Replaces the value of a key that is present; a new key comes last. -/
def set (key : Key) (value : Value) : Entries → Entries
  | [] => [(key, value)]
  | (k, v) :: rest =>
    if k.text = key.text then (k, value) :: rest else (k, v) :: set key value rest

def erase (key : String) (entries : Entries) : Entries :=
  entries.filter fun (k, _) => k.text != key

end Entries

end JackToolchain.Toml
