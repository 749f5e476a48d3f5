/-!
# Paths

A path is a text; its components decide which paths are equal and how they are ordered.
-/

namespace JackToolchain.Files

inductive Component
  | root
  | current
  | parent
  | name (text : String)
  deriving DecidableEq, Repr

namespace Component

def rank : Component → Nat
  | root => 0
  | current => 1
  | parent => 2
  | name _ => 3

/-- By kind, and names among themselves by their characters. -/
def compare : Component → Component → Ordering
  | name a, name b => Ord.compare a b
  | a, b => Ord.compare a.rank b.rank

end Component

abbrev Path := String

namespace Path

/-- The texts between slashes. -/
def parts (path : Path) : List String :=
  (path.toList.splitOn '/').map String.ofList

/-- The parts that are neither empty nor a single dot. -/
def pieces (path : Path) : List String :=
  path.parts.filter fun part => part != "" && part != "."

def isAbsolute (path : Path) : Bool :=
  path.startsWith '/'

/-- A leading dot is a component of its own; elsewhere dots and doubled slashes say nothing. -/
def components (path : Path) : List Component :=
  let rest := path.pieces.map fun piece => if piece = ".." then .parent else .name piece
  if path.isAbsolute then .root :: rest
  else if path.parts.head? = some "." then .current :: rest
  else rest

def compareComponents : List Component → List Component → Ordering
  | [], [] => .eq
  | [], _ :: _ => .lt
  | _ :: _, [] => .gt
  | a :: as, b :: bs => (a.compare b).then (compareComponents as bs)

def compare (a b : Path) : Ordering :=
  compareComponents a.components b.components

/-- Drops slashes and single dots after the last name; the path is given in reverse. -/
def dropTail : List Char → List Char
  | '/' :: rest => dropTail rest
  | '.' :: '/' :: rest => dropTail ('/' :: rest)
  | rest => rest

/-- The path up to the end of its last name, and that name, both in reverse. -/
def lastName? (path : Path) : Option (List Char × List Char) :=
  let core := dropTail path.toList.reverse
  let name := core.takeWhile (· != '/')
  if name = [] || name = ['.'] || name = ['.', '.'] then none else some (core, name)

/-- The last dot of a name parts the stem from the extension, unless it is the first character. -/
def splitName (name : List Char) : List Char × Option (List Char) :=
  let extension := name.takeWhile (· != '.')
  match name.dropWhile (· != '.') with
  | '.' :: stem => if stem.isEmpty then (name, none) else (stem, some extension)
  | _ => (name, none)

def stem? (path : Path) : Option String :=
  path.lastName?.map fun (_, name) => String.ofList (splitName name).1.reverse

def stem (path : Path) : String :=
  path.stem?.getD ""

def extension? (path : Path) : Option String :=
  path.lastName?.bind fun (_, name) =>
    (splitName name).2.map fun extension => String.ofList extension.reverse

/-- The stem of the last name with an extension, or alone if that is empty. A path without a last name
stays as it is. -/
def extendStem (path : Path) (extension : String) : Path :=
  match path.lastName? with
  | none => path
  | some (core, name) =>
    let dropped := name.length - (splitName name).1.length
    let front := String.ofList (core.drop dropped).reverse
    if extension = "" then front else front ++ "." ++ extension

/-- The path with the extension of its last name replaced, or dropped if the new one is empty. The
old one is cut off first: two dots that it leaves are no name, and nothing is put behind them. -/
def withExtension (path : Path) (extension : String) : Path :=
  let old := (path.extension?.map String.length).getD 0
  extendStem (String.ofList (path.toList.take (path.length - old))) extension

/-- A name inside a directory. -/
def child (directory : Path) (name : String) : Path :=
  if directory = "" || directory.endsWith '/' then directory ++ name else directory ++ "/" ++ name

/-- The extension is the given one, letter case aside. -/
def hasExtension (path : Path) (extension : String) : Bool :=
  path.extension?.any fun e => e.map Char.toLower == extension

def isJackSource (path : Path) : Bool :=
  path.hasExtension "jack"

end Path

end JackToolchain.Files
