/-!
# Scanning

Scanners read from a list of characters and stop in front of what they cannot read. After a failure
another alternative may be tried on the same text, unless the failure is final.
-/

namespace JackToolchain.Toml

/-- What is wrong with the meaning of a text that reads well otherwise. -/
inductive Conflict
  | duplicateKey (key : String) (table : Option (List String))
  | notATable (path : List String) (actual : String)
  | outOfRange
  | numberTooLarge
  | numberTooSmall
  | tooDeep
  deriving DecidableEq, Repr

namespace Conflict

def text : Conflict → String
  | duplicateKey key none => s!"duplicate key `{key}`"
  | duplicateKey key (some []) => s!"duplicate key `{key}` in document root"
  | duplicateKey key (some table) =>
    let path := ".".intercalate table
    s!"duplicate key `{key}` in table `{path}`"
  | notATable path actual =>
    let path := ".".intercalate path
    s!"dotted key `{path}` attempted to extend non-table type ({actual})"
  | outOfRange => "value is out of range"
  | numberTooLarge => "number too large to fit in target type"
  | numberTooSmall => "number too small to fit in target type"
  | tooDeep => "recursion limit exceeded"

end Conflict

/-- A failure in front of `rest`: the innermost construct with a name, what could have stood there
and what is wrong with the meaning. -/
structure Failure where
  rest : List Char
  construct : Option String := none
  expected : List String := []
  conflict : Option Conflict := none
  final : Bool := false
  deriving DecidableEq, Repr

namespace Failure

def message (f : Failure) : String :=
  "\n".intercalate <|
    (f.construct.map fun name => s!"invalid {name}").toList ++
    (if f.expected.isEmpty then [] else ["expected " ++ ", ".intercalate f.expected]) ++
    (f.conflict.map Conflict.text).toList

end Failure

abbrev Scan := StateT (List Char) (Except Failure)

namespace Scan

variable {α β : Type}

def fail : Scan α := fun rest => .error { rest }

/-- Fails in front of a given text. -/
def failAt (rest : List Char) : Scan α := fun _ => .error { rest }

/-- Fails in front of a given text, because of its meaning. -/
def refuse (rest : List Char) (conflict : Conflict) : Scan α := fun _ =>
  .error { rest, conflict := some conflict }

def mapFailure (f : Failure → Failure) (p : Scan α) : Scan α := fun text =>
  (p text).mapError f

/-- Makes every failure final. -/
def commit (p : Scan α) : Scan α :=
  p.mapFailure fun f => { f with final := true }

/-- Names the construct, unless an inner one has a name. -/
def naming (name : String) (p : Scan α) : Scan α :=
  p.mapFailure fun f => { f with construct := f.construct <|> some name }

def expecting (words : List String) (p : Scan α) : Scan α :=
  p.mapFailure fun f => { f with expected := f.expected ++ words }

/-- Tries the second scanner on the same text after a failure that is not final. -/
def orElse (p q : Scan α) : Scan α := fun text =>
  match p text with
  | .error f => if f.final then .error f else q text
  | done => done

/-- Reads nothing after a failure that is not final. -/
def optional (p : Scan α) : Scan (Option α) :=
  orElse (some <$> p) (pure none)

def one (accepts : Char → Bool) : Scan Char := fun text =>
  match text with
  | c :: rest => if accepts c then .ok (c, rest) else .error { rest := text }
  | [] => .error { rest := text }

def char (c : Char) : Scan Char := one (· == c)

def dropWord? : List Char → List Char → Option (List Char)
  | [], text => some text
  | _ :: _, [] => none
  | c :: word, d :: text => if c = d then dropWord? word text else none

def word (w : String) : Scan Unit := fun text =>
  match dropWord? w.toList text with
  | some rest => .ok ((), rest)
  | none => .error { rest := text }

/-- The longest run of characters of a kind, perhaps empty. -/
def run (accepts : Char → Bool) : Scan (List Char) := fun text =>
  .ok (text.takeWhile accepts, text.dropWhile accepts)

def run1 (accepts : Char → Bool) : Scan (List Char) := do
  let c ← one accepts
  return c :: (← run accepts)

/-- Exactly so many characters of a kind; fewer are left unread. -/
def exactly (count : Nat) (accepts : Char → Bool) : Scan (List Char) := fun text =>
  let taken := (text.take count).takeWhile accepts
  if taken.length = count then .ok (taken, text.drop count) else .error { rest := text }

/-- Whether the text goes on with a word. -/
def ahead (w : String) : Scan Bool := fun text =>
  .ok ((dropWord? w.toList text).isSome, text)

def atEnd : Scan Bool := fun text => .ok (text.isEmpty, text)

/-- Reads as often as it can, but at most `fuel` times. -/
def repeatFrom (p : Scan α) (done : List α) : Nat → Scan (List α)
  | 0 => pure done.reverse
  | fuel + 1 => do
    match ← optional p with
    | some a => repeatFrom p (a :: done) fuel
    | none => pure done.reverse

/-- Reads as often as it can; each reading takes a character at least. -/
def repeated (p : Scan α) : Scan (List α) := fun text => repeatFrom p [] text.length text

/-- Items with separators between them, one item at least. A separator without an item behind it is
left unread. -/
def separated1 (item : Scan α) (separator : Scan β) : Scan (List α) := do
  let first ← item
  let rest ← repeated do
    let _ ← separator
    item
  return first :: rest

def separated (item : Scan α) (separator : Scan β) : Scan (List α) := do
  return (← optional (separated1 item separator)).getD []

end Scan

end JackToolchain.Toml
