/-!
# Arguments

Options start with dashes and may take a value; everything else is an operand. Two dashes alone end
the options. Arguments are taken from left to right, and the first one that does not fit, or that
asks for help or the version, ends the reading.
-/

namespace JackToolchain.CommandLine

structure Flag where
  name : String
  short : Option Char := none
  takesValue : Bool := false
  /-- The values that it takes. -/
  accepts : String → Bool := fun _ => true

/-- What a command understands. -/
structure Interface where
  /-- The command itself, without the name of the program. -/
  topic : String := ""
  flags : List Flag := []
  operands : Nat := 1
  hasVersion : Bool := false

/-- Why the reading of arguments ended early. -/
inductive Stop
  | help (topic : String)
  | version
  | refused
  deriving DecidableEq, Repr

/-- Options by their names, those without a value with an empty one, and operands in order. -/
structure Arguments where
  options : List (String × String) := []
  operands : List String := []
  deriving DecidableEq, Repr

namespace Arguments

/-- An option may stand only once. -/
def addOption (a : Arguments) (f : Flag) (value : String) : Except Stop Arguments :=
  if a.options.any (·.1 == f.name) || !f.accepts value then .error .refused
  else .ok { a with options := a.options ++ [(f.name, value)] }

def addOperand (a : Arguments) (i : Interface) (text : String) : Except Stop Arguments :=
  if text.isEmpty || a.operands.length ≥ i.operands then .error .refused
  else .ok { a with operands := a.operands ++ [text] }

def has (a : Arguments) (name : String) : Bool := a.options.any (·.1 == name)

def value? (a : Arguments) (name : String) : Option String := a.options.lookup name

end Arguments

/-- A dash in front, and more than that. -/
def looksLikeOption (text : String) : Bool :=
  text.startsWith "-" && text != "-"

/-- The name of a long option and the value behind an equals sign. -/
def splitLong (text : String) : String × Option String :=
  let body := text.toList.drop 2
  match body.dropWhile (· != '=') with
  | _ :: value => (String.ofList (body.takeWhile (· != '=')), some (String.ofList value))
  | [] => (String.ofList body, none)

/-- Options of one letter each behind one dash. The first one that takes a value takes what follows
it; a value that is still to come is left to the caller. -/
def readShort (i : Interface) (a : Arguments) :
    List Char → Except Stop (Arguments × Option Flag)
  | [] => .ok (a, none)
  | c :: rest =>
    if c = 'h' then .error (.help i.topic)
    else if c = 'V' && i.hasVersion then .error .version
    else
      match i.flags.find? (·.short == some c) with
      | none => .error .refused
      | some f =>
        if !f.takesValue then do readShort i (← a.addOption f "") rest
        else
          match rest with
          | [] => .ok (a, some f)
          | '=' :: value => do return (← a.addOption f (String.ofList value), none)
          | value => do return (← a.addOption f (String.ofList value), none)

/-- A long option. -/
def readLong (i : Interface) (a : Arguments) (text : String) :
    Except Stop (Arguments × Option Flag) :=
  let (name, value) := splitLong text
  if name = "help" then .error (if value.isNone then .help i.topic else .refused)
  else if name = "version" && i.hasVersion then
    .error (if value.isNone then .version else .refused)
  else
    match i.flags.find? (·.name == name), value with
    | none, _ => .error .refused
    | some f, some value =>
      if f.takesValue then do return (← a.addOption f value, none) else .error .refused
    | some f, none => if f.takesValue then .ok (a, some f) else do return (← a.addOption f "", none)

/-- Reads arguments behind those that are known. `pending` is an option whose value comes next. -/
def readArguments (i : Interface) (a : Arguments) (pending : Option Flag) :
    List String → Except Stop Arguments
  | [] => if pending.isSome then .error .refused else .ok a
  | text :: rest =>
    match pending with
    | some f =>
      if looksLikeOption text then .error .refused
      else do readArguments i (← a.addOption f text) none rest
    | none =>
      if text = "--" then rest.foldlM (fun a operand => a.addOperand i operand) a
      else if text.startsWith "--" then do
        let (a, pending) ← readLong i a text
        readArguments i a pending rest
      else if looksLikeOption text then do
        let (a, pending) ← readShort i a (text.toList.drop 1)
        readArguments i a pending rest
      else do readArguments i (← a.addOperand i text) none rest

/-- Reads arguments, all operands of which have to be there. -/
def Interface.read (i : Interface) (arguments : List String) : Except Stop Arguments := do
  let a ← readArguments i {} none arguments
  if a.operands.length < i.operands then throw .refused else return a

end JackToolchain.CommandLine
