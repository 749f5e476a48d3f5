import JackToolchain.Toml.Draft
import JackToolchain.Toml.Item

/-!
# Documents

A document is a list of lines: comments, headers and entries. An error names its line and column and
shows the line.
-/

namespace JackToolchain.Toml

open Scan

namespace Document

/-- An entry on a line of its own. -/
def entryLine (d : Draft) : Scan Draft := do
  let start ← get
  let path ← dottedKey
  let value ← commit do
    equalsSign
    spaces
    let value ← value (depthLimit - 1)
    lineRest
    return value
  match insert .dotted (some (d.path.map Key.text)) path value .header d.entries with
  | .error conflict => refuse start conflict
  | .ok (_, entries) => 
    let stop := (value.extent?.map Extent.stop).getD d.extent.stop
    return { d with entries, extent.stop := stop }

/-- A header on a line of its own. -/
def headerLine (d : Draft) : Scan Draft :=
  Scan.naming "table header" do
    let start ← get
    if start.length < 2 then fun rest => .error { rest }
    else
      let repeats ← ahead "[["
      let brackets := if repeats then ("[[", "]]") else ("[", "]")
      let (path, extent) ← placed do
        word brackets.1
        commit do
          let path ← dottedKey
          (word brackets.2).expecting ["`.`", "`" ++ brackets.2 ++ "`"]
          return path
      commit lineRest
      let opened := do
        let root ← d.close
        if repeats then Draft.openRepeated root path extent else Draft.openTable root path extent
      match opened with
      | .error conflict => refuse start conflict
      | .ok d => return d

/-- One line of a document, or a part of one. -/
def line (d : Draft) : Scan Draft := do
  let text ← get
  let next ← match text with
    | '#' :: _ => commit do
      comment
      lineEnd
      return d
    | '[' :: _ => commit (headerLine d)
    | '\n' :: _ | '\r' :: _ => do
      lineBreak
      return d
    | [] => Scan.fail
    | _ => commit (entryLine d)
  spaces
  return next

/-- Reads lines until none is left; each takes a character at least. -/
def lines (d : Draft) : Nat → Scan Draft
  | 0 => pure d
  | fuel + 1 => do
    match ← optional (line d) with
    | some d => lines d fuel
    | none => pure d

/-- The byte order mark. -/
def byteOrderMark : Char := '\ufeff'

def draft : Scan Draft := do
  let _ ← optional (char byteOrderMark)
  spaces
  let text ← get
  let d ← lines {} text.length
  if ← atEnd then return d else Scan.fail

end Document

/-- An error with its place in a document: characters before it and characters that it spans. -/
structure DocumentError where
  offset : Nat
  length : Nat
  message : String
  deriving DecidableEq, Repr

namespace DocumentError

/-- The error of a value at some place. -/
def ofExtent (document : String) (extent : Extent) (message : String) : DocumentError :=
  ⟨document.length - extent.start, extent.start - extent.stop, message⟩

def bytes (text : List Char) : Nat :=
  (String.ofList text).utf8ByteSize

/-- The column that an error is shown at. In front of a character beyond ASCII bytes count, and at
the end of the document the last character counts too. -/
def column (front rest : List Char) : Nat :=
  match rest with
  | c :: _ => if c.toNat < 0x80 then front.length else bytes front
  | [] => front.length

/-- The message under the line it is about, with the place marked. -/
def text (document : String) (e : DocumentError) : String :=
  let chars := document.toList
  let front := chars.take e.offset
  let rest := chars.drop e.offset
  let before := if rest.isEmpty then front.dropLast else front
  let line := before.count '\n'
  let start := (before.reverse.takeWhile (· != '\n')).length
  let lineFront := (front.drop (before.length - start))
  let column := column lineFront rest
  let content := (document.splitOn "\n")[line]?.getD ""
  let marked := min (bytes (rest.take e.length)) (content.utf8ByteSize - column)
  let margin := "".pushn ' ' ((toString (line + 1)).length + 1)
  s!"TOML parse error at line {line + 1}, column {column + 1}\n{margin}|\n{line + 1} | {content}\n" ++
    s!"{margin}|" ++ "".pushn ' ' (column + 1) ++ "".pushn '^' (max marked 1) ++
    s!"\n{e.message}\n"

end DocumentError

/-- The entries of a document. -/
def read (text : String) : Except DocumentError Entries :=
  let chars := text.toList
  match Document.draft chars with
  | .error f => .error ⟨chars.length - f.rest.length, 1, f.message⟩
  | .ok (d, _) =>
    match d.close with
    | .error conflict => .error ⟨chars.length, 0, conflict.text⟩
    | .ok entries => .ok entries

end JackToolchain.Toml
