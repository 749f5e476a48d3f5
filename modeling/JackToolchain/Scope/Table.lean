import JackToolchain.Diagnostics.Event
import JackToolchain.Stack.Command
import JackToolchain.Syntax.Tree
import Std.Data.TreeMap

/-!
# Scopes

A scope gives each of its names a slot. Slots are counted for each storage on its own, in the order
of declaration. A name that is declared twice keeps the later slot.
-/

namespace JackToolchain.Scope

open JackToolchain.Diagnostics JackToolchain.Stack JackToolchain.Syntax

inductive Storage
  | static
  | field
  | parameter
  | locals
  deriving DecidableEq, Repr

namespace Storage

def text : Storage → String
  | static => "static"
  | field => "field"
  | parameter => "parameter"
  | locals => "local"

def all : List Storage := [.static, .field, .parameter, .locals]

def ofText? (text : String) : Option Storage :=
  all.find? fun s => s.text == text

/-- The position in `all`. -/
def rank : Storage → Nat
  | static => 0
  | field => 1
  | parameter => 2
  | locals => 3

/-- Where the machine keeps variables of this storage. -/
def segment : Storage → Segment
  | static => .static
  | field => .this
  | parameter => .argument
  | locals => .locals

end Storage

structure Declaration where
  name : String
  type : TypeName
  storage : Storage
  deriving DecidableEq, Repr

structure Entry extends Declaration where
  index : UInt16
  deriving DecidableEq, Repr

namespace Entry

def segment (e : Entry) : Segment := e.storage.segment

/-- By storage, then by slot. -/
def ble (a b : Entry) : Bool :=
  a.storage.rank < b.storage.rank || (a.storage == b.storage && a.index ≤ b.index)

end Entry

/-- How many slots of each storage are taken. -/
structure Counts where
  static : Nat := 0
  field : Nat := 0
  parameter : Nat := 0
  locals : Nat := 0
  deriving DecidableEq, Repr

namespace Counts

def get (c : Counts) : Storage → Nat
  | .static => c.static
  | .field => c.field
  | .parameter => c.parameter
  | .locals => c.locals

/-- Counts stop at the greatest slot. -/
def next (n : Nat) : Nat := min (n + 1) 65535

def bump (c : Counts) : Storage → Counts
  | .static => { c with static := next c.static }
  | .field => { c with field := next c.field }
  | .parameter => { c with parameter := next c.parameter }
  | .locals => { c with locals := next c.locals }

@[simp] theorem get_bump_self (c : Counts) (s : Storage) : (c.bump s).get s = next (c.get s) := by
  cases s <;> rfl

theorem get_bump_of_ne (c : Counts) {s t : Storage} (h : t ≠ s) : (c.bump s).get t = c.get t := by
  cases s <;> cases t <;> simp_all [get, bump]

end Counts

structure Table where
  map : Std.TreeMap String Entry := {}
  counts : Counts := {}

namespace Table

def lookup? (t : Table) (name : String) : Option Entry := t.map[name]?

/-- The entry that a declaration makes in a table. -/
def entryFor (t : Table) (d : Declaration) : Entry :=
  { d with index := (t.counts.get d.storage).toUInt16 }

def define (t : Table) (d : Declaration) : Table :=
  { map := t.map.insert d.name (t.entryFor d), counts := t.counts.bump d.storage }

theorem lookup?_define (t : Table) (d : Declaration) (name : String) :
    (t.define d).lookup? name = if d.name = name then some (t.entryFor d) else t.lookup? name := by
  simp [define, lookup?, Std.TreeMap.getElem?_insert]

/-- The warning for a declaration of a name that the table has. -/
def redeclared? (t : Table) (d : Declaration) : Option Event :=
  (t.lookup? d.name).map fun previous =>
    .warning "Variable declared twice in the same scope"
      [("name", d.name), ("previous_kind", previous.storage.text),
        ("previous_index", toString previous.index.toNat),
        ("new_index", toString (t.entryFor d).index.toNat)]

def ofDeclarations (ds : List Declaration) : Table :=
  ds.foldl define {}

/-- The warnings of declarations made one after the other. -/
def warnings (ds : List Declaration) : List Event :=
  (ds.foldl (fun (t, found) d =>
    (t.define d, match t.redeclared? d with | some e => e :: found | none => found))
    (({} : Table), ([] : List Event))).2.reverse

def size (t : Table) : Nat := t.map.size

def isEmpty (t : Table) : Bool := t.map.isEmpty

/-- All entries, by storage and slot. -/
def entries (t : Table) : List Entry :=
  (t.map.toList.map Prod.snd).mergeSort Entry.ble

end Table

/-- The declarations of a class, in their order. -/
def classDeclarations (c : ClassTree) : List Declaration :=
  c.classVars.flatMap fun vars =>
    let storage : Storage := match vars.kind with | .static => .static | .field => .field
    vars.names.map fun name => ⟨name, vars.type, storage⟩

/-- The declarations of a subroutine: the receiver of a method, parameters, locals. -/
def subroutineDeclarations (className : String) (s : Subroutine) : List Declaration :=
  (if s.kind = .method then [⟨"this", .named className, .parameter⟩] else []) ++
    s.parameters.map (fun p => ⟨p.name, p.type, .parameter⟩) ++
    s.locals.flatMap fun vars => vars.names.map fun name => ⟨name, vars.type, .locals⟩

def Table.ofClass (c : ClassTree) : Table :=
  .ofDeclarations (classDeclarations c)

def Table.ofSubroutine (className : String) (s : Subroutine) : Table :=
  .ofDeclarations (subroutineDeclarations className s)

/-- A name means what the subroutine says, else what the class says. -/
def resolve? (classTable subroutineTable : Table) (name : String) : Option Entry :=
  (subroutineTable.lookup? name).or (classTable.lookup? name)

end JackToolchain.Scope
