import JackToolchain.Toml.Quoted
import JackToolchain.Toml.Value

/-!
# Keys and layout

Keys are bare or quoted and may be joined by dots. Between them stand blanks, line breaks and
comments.
-/

namespace JackToolchain.Toml

open Scan

/-- Arrays, inline tables and dotted keys stay below this depth. -/
def depthLimit : Nat := 80

namespace Document

/-- Notes the place of what is read. -/
def placed {α : Type} (p : Scan α) : Scan (α × Extent) := fun text =>
  match p text with
  | .ok (a, rest) => .ok ((a, ⟨text.length, rest.length⟩), rest)
  | .error f => .error f

def simpleKey : Scan String := fun text =>
  match text with
  | '"' :: _ => (String.ofList <$> Quoted.basic) text
  | '\'' :: _ => (String.ofList <$> Quoted.literal) text
  | _ => (String.ofList <$> run1 Key.isBareChar) text

def keyPart : Scan Key := do
  spaces
  let (text, extent) ← placed simpleKey
  spaces
  return { text, extent }

def dottedKey : Scan (List Key) := do
  let start ← get
  let path ← (separated1 keyPart (char '.')).naming "key"
  if path.length < depthLimit then return path else refuse start .tooDeep

def comment : Scan Unit := do
  let _ ← char '#'
  discard (run isPlain)

def lineEnd : Scan Unit :=
  orElse lineBreak do
    if ← atEnd then return else fail

/-- What may follow on a line that is complete. -/
def lineRest : Scan Unit :=
  (do
    spaces
    let _ ← optional comment
    lineEnd).expecting ["newline", "`#`"]

/-- Blanks, line breaks and comments; each of the last two takes one from `fuel`. -/
def layoutFrom : Nat → Scan Unit
  | 0 => return
  | fuel + 1 => do
    spaces
    match ← get with
    | '#' :: _ =>
      comment
      lineBreak
      layoutFrom fuel
    | '\n' :: _ | '\r' :: _ =>
      lineBreak
      layoutFrom fuel
    | _ => return

def layout : Scan Unit := fun text => layoutFrom text.length text

end Document

end JackToolchain.Toml
