import JackToolchain.Toml.Key

/-!
# Tables by path

A dotted key or a header leads from table to table. Tables on the way are made where they are not
there yet, and some may not be entered.
-/

namespace JackToolchain.Toml

namespace Document

/-- What leads to a table. -/
inductive Way
  /-- The path of a header. -/
  | header
  /-- A dotted key on a line. -/
  | dotted
  /-- A dotted key between braces. -/
  | braces
  deriving DecidableEq, Repr

/-- The form of the tables on the way that are not there yet. -/
def Way.between : Way → Form
  | header => .implicit
  | dotted | braces => .dotted

/-- Dotted keys do not reach into a table that is complete, and nothing reaches into the braces of
another entry. -/
def Way.check (way : Way) (path : List String) (key : String) : Form → Except Conflict Unit
  | .header => if way = .dotted then throw (.duplicateKey key none) else return
  | .inline =>
    if way = .braces then throw (.duplicateKey key none)
    else throw (.notATable path "inline table")
  | _ => return

/-- Changes the table at the end of a path; `seen` is the path so far. -/
def descend (way : Way) (update : Form → Entries → Except Conflict (Form × Entries))
    (seen : List String) : List Key → Form → Entries → Except Conflict (Form × Entries)
  | [], form, entries => update form entries
  | key :: path, form, entries => do
    let seen := seen ++ [key.text]
    match entries.get? key.text with
    | none =>
      let (inner, es) ← descend way update seen path way.between []
      return (form, entries.set key (.table none inner es))
    | some (.table extent inner es) =>
      way.check seen key.text inner
      let (inner, es) ← descend way update seen path inner es
      return (form, entries.set key (.table extent inner es))
    | some (.tables extent items) =>
      match items.getLast? with
      | some (.table e inner es) =>
        let (inner, es) ← descend way update seen path inner es
        return (form,
          entries.set key (.tables extent (items.dropLast ++ [.table e inner es])))
      | _ => return (form, entries)
    | some value => throw (.notATable seen value.kind)

/-- Adds an entry to a table that must not have its key. `table` names the table in the message. -/
def addEntry (table : Option (List String)) (key : Key) (viaDots : Bool) (value : Value)
    (form : Form) (entries : Entries) : Except Conflict (Form × Entries) :=
  if (form = .dotted) ≠ viaDots then throw (.duplicateKey key.text none)
  else
    match entries.get? key.text with
    | some _ => throw (.duplicateKey key.text table)
    | none => return (form, entries.set key value)

/-- Sets a dotted key in a table. -/
def insert (way : Way) (table : Option (List String)) (path : List Key) (value : Value)
    (form : Form) (entries : Entries) : Except Conflict (Form × Entries) :=
  match path.getLast? with
  | none => return (form, entries)
  | some key =>
    let front := path.dropLast
    descend way (addEntry table key (!front.isEmpty) value) [] front form entries

end Document

end JackToolchain.Toml
