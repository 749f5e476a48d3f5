import JackToolchain.Toml.Number

/-!
# Strings of a document

Basic strings know escapes, literal strings do not; both may stand on one line or on several.
-/

namespace JackToolchain.Toml

open JackToolchain.Text Scan

def isSpace (c : Char) : Bool :=
  c == ' ' || c == '\t'

/-- Space and tab, printable ASCII characters and everything beyond ASCII. -/
def isPlain (c : Char) : Bool :=
  c == '\t' || (0x20 ≤ c.toNat && c.toNat != 0x7f)

/-- A line feed, perhaps after a carriage return. Any other character has been read when it is
refused. -/
def lineBreak : Scan Unit := do
  match ← one fun _ => true with
  | '\n' => return
  | '\r' => discard (char '\n')
  | _ => fail

def spaces : Scan Unit := discard (run isSpace)

namespace Quoted

/-- The digits of a character number. -/
def codePoint (digits : Nat) : Scan Char :=
  (commit do
    let start ← get
    let n := ofBase 16 (← exactly digits isHexDigit)
    if n.isValidChar then return Char.ofNat n else refuse start .outOfRange).naming
      s!"unicode {digits}-digit hex code"

def escapeWords : List String :=
  ["`b`", "`f`", "`n`", "`r`", "`t`", "`u`", "`U`", "`\\`", "`\"`"]

/-- A backslash and what it stands for. An unknown ASCII character has been read when it is
refused, a longer one has not. -/
def escape : Scan Char := do
  let _ ← char '\\'
  let start ← get
  match ← one fun _ => true with
  | 'b' => return '\x08'
  | 'f' => return '\x0c'
  | 'n' => return '\n'
  | 'r' => return '\r'
  | 't' => return '\t'
  | 'u' => codePoint 4
  | 'U' => codePoint 8
  | '\\' => return '\\'
  | '"' => return '"'
  | c =>
    let place := if c.toNat < 0x80 then start.drop 1 else start
    ((commit (failAt place)).naming "escape sequence").expecting escapeWords

def isBasic (c : Char) : Bool :=
  isPlain c && c != '"' && c != '\\'

def isLiteral (c : Char) : Bool :=
  isPlain c && c != '\''

def basic : Scan (List Char) := do
  let _ ← char '"'
  let parts ← repeated (orElse (run1 isBasic) (return [← escape]))
  let _ ← (commit (char '"')).naming "basic string"
  return parts.flatten

def literal : Scan (List Char) :=
  Scan.naming "literal string" do
    let _ ← char '\''
    commit do
      let text ← run isLiteral
      let _ ← char '\''
      return text

/-- A backslash in front of a line break takes it away, with the blanks around it. -/
def joinedLine : Scan (List Char) := do
  let _ ← char '\\'
  spaces
  lineBreak
  let _ ← repeated (orElse (discard (one isSpace)) lineBreak)
  return []

/-- A piece of a basic string on several lines that holds no quotation mark. -/
def basicPiece : Scan (List Char) :=
  orElse (run1 isBasic) <| orElse joinedLine <| orElse (do return [← escape]) do
    lineBreak
    return ['\n']

/-- A piece of a literal string on several lines that holds no apostrophe. -/
def literalPiece : Scan (List Char) :=
  orElse (run1 isLiteral) do
    lineBreak
    return ['\n']

/-- One or two quotation marks in front of something. -/
def marks (mark : Char) (next : Scan Unit) : Scan (List Char) :=
  let before (count : Nat) : Scan (List Char) := fun text => do
    let (taken, rest) ← exactly count (· == mark) text
    let _ ← next rest
    return (taken, rest)
  orElse (before 2) (before 1)

/-- The text up to the closing marks, of which there may be one or two more than three. -/
def body (mark : Char) (delimiter : String) (piece : Scan (List Char)) : Scan (List Char) := do
  let first ← repeated piece
  let more ← repeated do
    let quotes ← marks mark (discard piece)
    return quotes ++ (← repeated piece).flatten
  let last ← optional (marks mark (word delimiter))
  return first.flatten ++ more.flatten ++ last.getD []

/-- As `body`, but marks are read in front of any other character, also of one that cannot stand in
a string. -/
def basicBody : Scan (List Char) := do
  let text ← body '"' "\"\"\"" basicPiece
  let _ ← optional (marks '"' (discard (one (· != '"'))))
  return text

/-- A string on several lines; a line break right behind the opening marks is left out. -/
def lines (name delimiter : String) (body : Scan (List Char)) : Scan (List Char) :=
  Scan.naming name do
    word delimiter
    let _ ← optional lineBreak
    commit do
      let text ← body
      word delimiter
      return text

def anyString : Scan String := do
  let text ← orElse (lines "multiline basic string" "\"\"\"" basicBody) <|
    orElse basic <|
      orElse (lines "multiline literal string" "'''" (body '\'' "'''" literalPiece)) literal
  return String.ofList text

end Quoted

end JackToolchain.Toml
