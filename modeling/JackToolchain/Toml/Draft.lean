import JackToolchain.Toml.Table

/-!
# Drafts

The tables of a document are put together while it is read, so that a key or a table that comes up
twice is found where it does.
-/

namespace JackToolchain.Toml

/-- A document that is being read: its finished tables, and the one that entries go to. -/
structure Draft where
  root : Entries := []
  /-- The header of the table in progress; the document root has none. -/
  path : List Key := []
  repeats : Bool := false
  extent : Extent := ⟨0, 0⟩
  entries : Entries := []

namespace Draft

open Document

/-- Changes the table that holds the last key of a header. -/
def updateParent (path : List Key) (change : Key → Entries → Except Conflict Entries)
    (root : Entries) : Except Conflict Entries :=
  match path.getLast? with
  | none => return root
  | some key => do
    let update (form : Form) (entries : Entries) := do return (form, ← change key entries)
    return (← descend .header update [] path.dropLast .header root).2

/-- Puts the table in progress into its place. -/
def close (d : Draft) : Except Conflict Entries :=
  if d.path.isEmpty then return d.entries
  else
    let table := Value.table (some d.extent) .header d.entries
    updateParent d.path (fun key entries =>
      if d.repeats then
        match entries.get? key.text with
        | some (.tables extent items) =>
          return entries.set key (.tables ⟨extent.start, d.extent.stop⟩ (items ++ [table]))
        | _ => return entries.set key (.tables d.extent [table])
      else return entries.set key table) d.root

def headerConflict (path : List Key) (key : Key) : Conflict :=
  .duplicateKey key.written (some (path.dropLast.map Key.text))

/-- The entries of the table at the end of a path, none if there is no such table. -/
def entriesAt : List Key → Entries → Entries
  | [], entries => entries
  | key :: path, entries =>
    match entries.get? key.text with
    | some (.table _ _ es) => entriesAt path es
    | some (.tables _ items) =>
      match items.getLast? with
      | some (.table _ _ es) => entriesAt path es
      | _ => []
    | _ => []

/-- Starts the table of a header. A table that was implicit so far moves out of the root for this
time. -/
def openTable (root : Entries) (path : List Key) (extent : Extent) : Except Conflict Draft := do
  let rest ← updateParent path (fun key entries =>
    match entries.get? key.text with
    | none | some (.table _ .implicit _) => return entries.erase key.text
    | some _ => throw (headerConflict path key)) root
  return { root := rest, path, extent, entries := entriesAt path root }

/-- Starts one more table of a repeated header. -/
def openRepeated (root : Entries) (path : List Key) (extent : Extent) : Except Conflict Draft := do
  let root ← updateParent path (fun key entries =>
    match entries.get? key.text with
    | none | some (.tables ..) => return entries
    | some _ => throw (headerConflict path key)) root
  return { root, path, extent, repeats := true }

end Draft

end JackToolchain.Toml
