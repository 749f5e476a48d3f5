import JackToolchain.Text.Shortest
import JackToolchain.Toml.Scan

/-!
# Numbers and dates

Integers are signed words of 64 bits, in four bases. Floats are kept as their shortest decimal text.
Dates and times are checked and forgotten.
-/

namespace JackToolchain.Toml

open JackToolchain.Text Scan

def isHexDigit (c : Char) : Bool :=
  isDigit c || ('a' ≤ c && c ≤ 'f') || ('A' ≤ c && c ≤ 'F')

def hexValue (c : Char) : Nat :=
  if isDigit c then c.toNat - '0'.toNat else c.toLower.toNat - 'a'.toNat + 10

/-- The number that digits of a base denote. -/
def ofBase (base : Nat) (digits : List Char) : Nat :=
  digits.foldl (fun n c => base * n + hexValue c) 0

namespace Number

/-- Digits after a first one; single underscores may stand between them. -/
def moreDigits (accepts : Char → Bool) : Scan (List Char) :=
  repeated <| orElse (one accepts) do
    let _ ← char '_'
    commit ((one accepts).expecting ["digit"])

def digitsFrom (first accepts : Char → Bool) : Scan (List Char) := do
  let c ← one first
  return c :: (← moreDigits accepts)

def sign : Scan Bool := do
  return (← optional (one fun c => c == '+' || c == '-')) == some '-'

/-- A sign and digits without leading zeros. -/
def decimal : Scan (Bool × List Char) :=
  Scan.naming "integer" do
    let negative ← sign
    let digits ← orElse (digitsFrom (fun c => isDigit c && c != '0') isDigit)
      (return [← one isDigit])
    return (negative, digits)

/-- The bound of signed words of 64 bits. -/
def wordBound : Nat := 0x8000000000000000

/-- Integers of another base follow a sign of their base. -/
def based (lead name : String) (base : Nat) (accepts : Char → Bool) : Scan Nat := do
  let start ← get
  let digits ← Scan.naming name do
    word lead
    commit (digitsFrom accepts accepts)
  let n := ofBase base digits
  if n < wordBound then return n else refuse start .numberTooLarge

def integer : Scan Int := do
  if ← ahead "0x" then return (← commit (based "0x" "hexadecimal integer" 16 isHexDigit))
  else if ← ahead "0o" then
    return (← commit (based "0o" "octal integer" 8 fun c => '0' ≤ c && c ≤ '7'))
  else if ← ahead "0b" then
    return (← commit (based "0b" "binary integer" 2 fun c => c == '0' || c == '1'))
  else
    let start ← get
    let (negative, digits) ← decimal
    let n := ofDigits digits
    if n < wordBound || (negative && n = wordBound) then return if negative then -n else n
    else commit (refuse start (if negative then .numberTooSmall else .numberTooLarge))

def fraction : Scan (List Char) := do
  let _ ← char '.'
  commit ((digitsFrom isDigit isDigit).expecting ["digit"])

def exponent : Scan Int := do
  let _ ← one fun c => c == 'e' || c == 'E'
  let negative ← sign
  let digits ← commit (digitsFrom isDigit isDigit)
  let n : Int := ofDigits digits
  return if negative then -n else n

def finite : Scan String := do
  let start ← get
  let (negative, whole) ← decimal
  let (part, e) ← orElse (do return ([], ← exponent))
    (do return (← fraction, (← optional exponent).getD 0))
  let d : Decimal := ⟨ofDigits (whole ++ part), e - part.length⟩
  match d.asFloat? with
  | some shortest => return (if negative then "-" else "") ++ shortest.text
  | none => if negative then return "-inf" else commit (failAt start)

def special : Scan String := do
  let negative ← sign
  orElse (do word "inf"; return if negative then "-inf" else "inf")
    (do word "nan"; return "NaN")

def float : Scan String :=
  (orElse finite special).naming "floating-point number"

/-- A number of two digits in a range. -/
def pair (least greatest : Nat) : Scan Nat := do
  let start ← get
  let n := ofDigits (← exactly 2 isDigit)
  if least ≤ n && n ≤ greatest then return n else refuse start .outOfRange

def isLeapYear (year : Nat) : Bool :=
  year % 4 == 0 && (year % 100 != 0 || year % 400 == 0)

def daysOf (year month : Nat) : Nat :=
  if month = 2 then (if isLeapYear year then 29 else 28)
  else if month = 4 || month = 6 || month = 9 || month = 11 then 30
  else 31

def date : Scan Unit := do
  let year := ofDigits (← exactly 4 isDigit)
  let _ ← char '-'
  commit do
    let month ← pair 1 12
    let _ ← char '-'
    let start ← get
    let day ← pair 1 31
    if day > daysOf year month then refuse start .outOfRange

def time : Scan Unit := do
  let _ ← pair 0 23
  let _ ← char ':'
  commit do
    let _ ← pair 0 59
    let _ ← char ':'
    let _ ← pair 0 60
    let _ ← optional do
      let _ ← char '.'
      run1 isDigit

def offset : Scan Unit :=
  Scan.naming "time offset" <| orElse (discard (one fun c => c == 'Z' || c == 'z')) do
    let _ ← one fun c => c == '+' || c == '-'
    commit do
      let _ ← pair 0 23
      let _ ← char ':'
      let _ ← pair 0 59

def dateTime : Scan Unit :=
  orElse
    (Scan.naming "date-time" do
      date
      let _ ← optional do
        let _ ← one fun c => c == 'T' || c == 't' || c == ' '
        time
        optional offset)
    (time.naming "time")

end Number

end JackToolchain.Toml
