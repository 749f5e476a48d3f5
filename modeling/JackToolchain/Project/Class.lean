import JackToolchain.Compilation
import JackToolchain.Project.Source
import JackToolchain.Token.Reader

/-!
# Compiling a file

The class of a source file is compiled and its commands are written beside it. A failure leaves no
output.
-/

namespace JackToolchain

open JackToolchain.Diagnostics JackToolchain.Files JackToolchain.Source

/-- Why a file was not compiled. -/
inductive ClassError
  | file (e : FileError)
  | compile (e : CompileError)
  deriving DecidableEq, Repr

namespace ClassError

def message : ClassError → String
  | file e => s!"File processing failed: {e.message}"
  | compile e => e.message

def code : ClassError → Code
  | file e => e.code
  | compile e => e.code

def span? : ClassError → Option Span
  | file _ => none
  | compile e => e.span?

def stage : ClassError → String
  | file _ => "file"
  | compile e => e.stage

end ClassError

/-- A source file whose class was compiled and written out. -/
structure CompiledFile where
  source : SourceInfo
  output : Path
  compiled : CompiledClass

namespace Project

/-- Compiles the bytes of a source. -/
def compileBytes (name : String) (bytes : ByteArray) : Attempt CompileError CompiledClass := do
  let session ← get
  let lexer := Lexer.ofBytes bytes session.settings.lexical.detailed
  let outcome :=
    if session.traced then Compilation.traced name lexer else Compilation.ofLexer name lexer
  raiseAll outcome.events
  match outcome.result with
  | .ok compiled => return compiled
  | .error e => throw e

/-- Compiles a source file and writes its commands to a file of the same name with the extension
`vm`. -/
def compileFile (settings : SourceSettings) (path : Path) : Attempt ClassError CompiledFile :=
  inFile path do
    raise (.info "Compiling" [("file", path)])
    let (info, bytes) ← (openSource settings path).adapt ClassError.file
    let compiled ← (compileBytes path bytes).adapt ClassError.compile
    let info := { info with lines := compiled.lines }
    reportSource settings info
    if info.className? != some compiled.className then
      raise (.warning "Class name differs from file name"
        [("class", compiled.className), ("file", path)])
    let output ← (writeOutput path "vm" compiled.text).adapt ClassError.file
    raise (.success .fileDone "Compilation succeeded"
      [("file", path), ("class", compiled.className), ("output", output),
        ("duration_ms", untimed), ("tokens_per_sec", untimed)])
    return { source := info, output, compiled }

end Project

end JackToolchain
