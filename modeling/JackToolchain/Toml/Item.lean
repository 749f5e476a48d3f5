import JackToolchain.Toml.Number
import JackToolchain.Toml.Table

/-!
# Items

The values of entries: strings, numbers, dates, arrays and inline tables.
-/

namespace JackToolchain.Toml

open Scan

namespace Document

def equalsSign : Scan Unit :=
  discard ((char '=').expecting ["`.`", "`=`"])

/-- An entry between braces. -/
def inlineEntry (value : Scan Value) : Scan (List Key × Value) := do
  let path ← dottedKey
  commit do
    equalsSign
    spaces
    let value ← value
    spaces
    return (path, value)

def inlineTable (value : Scan Value) : Scan Entries := do
  let _ ← char '\x7b'
  let start ← get
  let pairs ← commit do
    let pairs ← separated (inlineEntry value) (char ',')
    spaces
    return pairs
  let built := pairs.foldlM (fun (form, entries) (path, value) =>
    insert .braces none path value form entries) (Form.inline, ([] : Entries))
  match built with
  | .error conflict => commit (refuse start conflict)
  | .ok (_, entries) =>
    let _ ← commit (((char '\x7d').naming "inline table").expecting ["`\x7d`"])
    return entries

def array (value : Scan Value) : Scan (List Value) := do
  let _ ← char '['
  commit do
    if ← ahead "]" then
      let _ ← char ']'
      return []
    else
      let items ← separated (do
        layout
        let item ← value
        layout
        return item) (char ',')
      if !items.isEmpty then
        let _ ← optional (char ',')
      layout
      let _ ← ((char ']').naming "array").expecting ["`]`"]
      return items

/-- A value whose kind the first character tells; what starts like none of them is called a string,
and so is a word that is not complete. `nested` reads the values inside of it. -/
def valueOf (nested : Scan Value) (tooDeep : Bool) : Scan Value := fun text =>
  let scan {α : Type} (p : Scan α) (make : Extent → α → Value) :=
    ((fun (a, extent) => make extent a) <$> placed p) text
  let guarded {α : Type} (p : Scan α) : Scan α :=
    if tooDeep then commit (refuse text .tooDeep) else p
  let plain {α : Type} (p : Scan α) : Scan α := (p.naming "string").expecting ["`\"`", "`'`"]
  let fixed (p : Scan Unit) (make : Extent → Value) := scan (plain p) fun extent _ => make extent
  match text with
  | [] => .error { rest := text }
  | c :: _ =>
    if c == '"' || c == '\'' then scan Quoted.anyString Value.string
    else if c == '[' then scan (guarded (array nested)) Value.array
    else if c == '\x7b' then
      scan (guarded (inlineTable nested)) fun extent es => .table extent .inline es
    else if c == '+' || c == '-' || Text.isDigit c then
      orElse ((fun (_, e) => Value.dateTime e) <$> placed Number.dateTime)
        (orElse ((fun (t, e) => Value.float e t) <$> placed Number.float)
          ((fun (n, e) => Value.integer e n) <$> placed Number.integer)) text
    else if c == '_' then scan (Number.integer.expecting ["leading digit"]) Value.integer
    else if c == '.' then scan (Number.float.expecting ["leading digit"]) Value.float
    else if c == 't' then fixed (commit (Scan.word "true")) (.boolean · true)
    else if c == 'f' then fixed (commit (Scan.word "false")) (.boolean · false)
    else if c == 'i' then fixed (Scan.word "inf") (.float · "inf")
    else if c == 'n' then fixed (Scan.word "nan") (.float · "NaN")
    else plain Scan.fail text

/-- A value with at most so many arrays and inline tables around its innermost values. -/
def value : Nat → Scan Value
  | 0 => valueOf Scan.fail true
  | depth + 1 => valueOf (value depth) false

end Document

end JackToolchain.Toml
