import JackToolchain.Settings.Basic
import JackToolchain.Text.Quoted
import JackToolchain.Toml.Document

/-!
# Settings from a document

A section is a table whose entries set values by their names; an array sets them in order. Names
that mean nothing here are passed over.
-/

namespace JackToolchain.Settings

open JackToolchain.Diagnostics JackToolchain.Toml

/-- A value that does not fit its setting. A table that has no place leaves it to what is around. -/
structure Mismatch where
  extent : Option Extent := none
  message : String
  deriving DecidableEq, Repr

abbrev Reader (α : Type) := Value → Except Mismatch α

/-- Gives a mismatch without a place this one. -/
def placedAt {α : Type} (extent : Option Extent) (result : Except Mismatch α) :
    Except Mismatch α :=
  result.mapError fun m => { m with extent := m.extent <|> extent }

/-- A value as the message of a mismatch names it. -/
def describe : Value → String
  | .string _ text => "string " ++ Text.quoted text
  | .integer _ n => s!"integer `{n}`"
  | .float _ text => s!"floating point `{text}`"
  | .boolean _ b => s!"boolean `{b}`"
  | .array .. | .tables .. => "sequence"
  | .table .. | .dateTime _ => "map"

def wrongType {α : Type} (wanted : String) : Reader α := fun v =>
  .error ⟨v.extent?, s!"invalid type: {describe v}, expected {wanted}"⟩

def readBoolean : Reader Bool
  | .boolean _ b => .ok b
  | v => wrongType "a boolean" v

def readCount : Reader Nat
  | .integer extent n =>
    if 0 ≤ n then .ok n.toNat
    else .error ⟨extent, s!"invalid value: integer `{n}`, expected usize"⟩
  | v => wrongType "usize" v

def readLevelName (extent : Extent) (name : String) : Except Mismatch Level :=
  match Level.ofWord? name with
  | some level => .ok level
  | none => .error ⟨extent,
      s!"unknown variant `{name}`, expected one of `error`, `warning`, `info`, `debug`"⟩

/-- A level may stand for itself, or be the only key of a table that holds nothing. -/
def readLevel : Reader Level
  | .string extent name => readLevelName extent name
  | .table extent _ [] => .error ⟨extent, "wanted exactly 1 element, found 0 elements"⟩
  | .table extent _ [(key, v)] => placedAt extent do
    let level ← readLevelName key.extent key.text
    match v with
    | .table _ _ [] | .array _ [] => return level
    | .table .. | .array .. => throw ⟨v.extent?, "expected empty table"⟩
    | .tables .. => throw ⟨v.extent?, "expected empty array"⟩
    | v => throw ⟨v.extent?, s!"expected table, found {v.kind}"⟩
  | .table extent _ _ => .error ⟨extent, "wanted exactly 1 element, more than 1 element"⟩
  | v => .error ⟨v.extent?, "wanted string or table"⟩

/-- The settings of a section, each under its name. -/
abbrev Fields (σ : Type) := List (String × (σ → Value → Except Mismatch σ))

def readSection {σ : Type} (title : String) (fields : Fields σ) (start : σ) : Reader σ
  | .table _ _ entries => entries.foldlM (fun s (key, v) =>
      match fields.lookup key.text with
      | some set => placedAt (v.extent? <|> some key.extent) (set s v)
      | none => return s) start
  | .array _ items | .tables _ items =>
    (fields.zip items).foldlM (fun s ((_, set), v) => set s v) start
  | .dateTime _ => return start
  | v => wrongType s!"struct {title}" v

def sourceFields : Fields SourceSettings :=
  [("require_jack_extension", fun s v => do
      return { s with requireExtension := ← readBoolean v }),
    ("enable_performance_logging", fun s v => do
      return { s with reportReading := ← readBoolean v })]

def lexicalFields : Fields LexicalSettings :=
  [("collect_detailed_metrics", fun s v => do return { s with detailed := ← readBoolean v })]

def batchFields : Fields BatchSettings :=
  [("max_threads", fun s v => do return { s with threads := clampThreads (← readCount v) }),
    ("fail_fast", fun s v => do return { s with failFast := ← readBoolean v }),
    ("progress_reporting", fun s v => do return { s with progress := ← readBoolean v })]

def loggingFields : Fields LoggingSettings :=
  [("use_structured_logging", fun s v => do return { s with structured := ← readBoolean v }),
    ("enable_console_logging", fun s v => do return { s with console := ← readBoolean v }),
    ("min_log_level", fun s v => do return { s with least := ← readLevel v }),
    ("enable_cargo_style_output", fun s v => do return { s with summary := ← readBoolean v })]

def sections : Fields Settings :=
  [("file_processor", fun s v => do
      return { s with
        source := ← readSection "FileProcessorPreferences" sourceFields s.source v }),
    ("lexical", fun s v => do
      return { s with lexical := ← readSection "LexicalPreferences" lexicalFields s.lexical v }),
    ("batch", fun s v => do
      return { s with batch := ← readSection "BatchPreferences" batchFields s.batch v }),
    ("logging", fun s v => do
      return { s with logging := ← readSection "LoggingPreferences" loggingFields s.logging v })]

/-- The settings of a document, with those of the environment for whatever it leaves out. -/
def ofDocument (env : Environment) (document : String) : Except DocumentError Settings := do
  let entries ← Toml.read document
  let whole : Extent := ⟨document.length, 0⟩
  let root := Value.table whole .header entries
  (readSection "RuntimeConfig" sections (ofEnvironment env) root).mapError fun m =>
    .ofExtent document (m.extent.getD whole) m.message

end JackToolchain.Settings
