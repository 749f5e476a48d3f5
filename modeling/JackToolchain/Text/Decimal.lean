/-!
# Decimal numbers

Reading unsigned numbers under a bound, and writing a quotient with a fixed count of decimals, a
half going to the even neighbour.
-/

namespace JackToolchain.Text

def isDigit (c : Char) : Bool :=
  '0' ≤ c && c ≤ '9'

def digitValue (c : Char) : Nat :=
  c.toNat - '0'.toNat

/-- The number that a run of digits denotes. -/
def ofDigits (digits : List Char) : Nat :=
  digits.foldl (fun n c => 10 * n + digitValue c) 0

/-- The number written by a text of digits only, if it is at most `max`. -/
def readDigits? (max : Nat) (text : List Char) : Option Nat :=
  if text.isEmpty || !text.all isDigit then none
  else
    let n := ofDigits text
    if n ≤ max then some n else none

/-- As `readDigits?`, with one plus sign allowed in front. -/
def readUnsigned? (max : Nat) : List Char → Option Nat
  | '+' :: digits => readDigits? max digits
  | text => readDigits? max text

theorem le_of_readDigits? {max n : Nat} {text : List Char} (h : readDigits? max text = some n) :
    n ≤ max := by
  unfold readDigits? at h
  split at h
  · simp at h
  · simp only at h
    split at h
    · cases h
      assumption
    · simp at h

/-- `num / den` rounded to the nearest whole number, a half to the even one. -/
def roundDiv (num den : Nat) : Nat :=
  let q := num / den
  let twice := 2 * (num % den)
  if twice > den || (twice == den && q % 2 == 1) then q + 1 else q

/-- `num / den` with `places` decimals. -/
def fixed (places num den : Nat) : String :=
  let scaled := roundDiv (num * Nat.pow 10 places) den
  let whole := toString (scaled / Nat.pow 10 places)
  let part := toString (scaled % Nat.pow 10 places)
  if places = 0 then whole
  else whole ++ "." ++ "".pushn '0' (places - part.length) ++ part

/-- The bound of the fraction bits of a float. -/
def fractionBound : Nat := 0x10000000000000

/-- A finite, non-negative float with `places` decimals, from its exact value. -/
def fixedFloat (places : Nat) (x : Float) : String :=
  let bits := x.toBits.toNat
  let exponent := bits / fractionBound % 2048
  let fraction := bits % fractionBound
  let (mantissa, exponent) :=
    if exponent = 0 then (fraction, 1) else (fraction + fractionBound, exponent)
  if exponent ≥ 1075 then fixed places (mantissa * Nat.pow 2 (exponent - 1075)) 1
  else fixed places mantissa (Nat.pow 2 (1075 - exponent))

end JackToolchain.Text
