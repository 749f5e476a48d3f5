/-!
# JSON text

Strings and objects as JSON lines and indented JSON show them.
-/

namespace JackToolchain.Text

def hexDigit (n : Nat) : Char :=
  if n < 10 then Char.ofNat ('0'.toNat + n) else Char.ofNat ('a'.toNat + (n - 10))

/-- A quotation mark, a backslash and the control characters below the space are escaped; all
other characters stand for themselves. -/
def jsonChar (c : Char) : List Char :=
  if c = '"' then ['\\', '"']
  else if c = '\\' then ['\\', '\\']
  else if c = '\n' then ['\\', 'n']
  else if c = '\r' then ['\\', 'r']
  else if c = '\t' then ['\\', 't']
  else if c = '\x08' then ['\\', 'b']
  else if c = '\x0c' then ['\\', 'f']
  else if c.toNat < 0x20 then
    ['\\', 'u', '0', '0', hexDigit (c.toNat / 16), hexDigit (c.toNat % 16)]
  else [c]

def jsonString (text : String) : String :=
  "\"" ++ String.ofList (text.toList.flatMap jsonChar) ++ "\""

/-- An object on one line, from its keys and the texts of their values. -/
def jsonObject (fields : List (String × String)) : String :=
  "\x7b" ++ ",".intercalate (fields.map fun (key, value) => jsonString key ++ ":" ++ value) ++ "\x7d"

/-- An object with one field on a line. -/
def jsonIndented (fields : List (String × String)) : String :=
  "\x7b\n" ++
    ",\n".intercalate (fields.map fun (key, value) => "  " ++ jsonString key ++ ": " ++ value) ++
    "\n\x7d"

end JackToolchain.Text
