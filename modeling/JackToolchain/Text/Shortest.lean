import JackToolchain.Text.Decimal

/-!
# Shortest decimals

The float of 64 bits that is nearest to a decimal number, and the decimal number with the fewest
digits that is nearest to that float among all floats. Both are found in whole numbers.
-/

namespace JackToolchain.Text

/-- The number `digits * 10 ^ exponent`. -/
structure Decimal where
  digits : Nat
  exponent : Int
  deriving DecidableEq, Repr

/-- The number `mantissa * 2 ^ exponent`. -/
structure Binary where
  mantissa : Nat
  exponent : Int
  deriving DecidableEq, Repr

/-- A power with a whole exponent; a negative one counts as zero. -/
def scale (base : Nat) (exponent : Int) : Nat :=
  Nat.pow base exponent.toNat

namespace Binary

/-- The bound of mantissas; those of all but the smallest floats are at least half of it. -/
def mantissaBound : Nat := 0x20000000000000

def leastExponent : Int := -1074

def greatestExponent : Int := 971

/-- The greatest whole number whose power of two is not above a positive quotient. -/
def magnitude (num den : Nat) : Int :=
  let guess : Int := (num.log2 : Int) - den.log2
  if num * scale 2 (-guess) ≥ den * scale 2 guess then guess else guess - 1

/-- The float nearest to a positive quotient, of two the one with the even mantissa; none if the
quotient is too large. -/
def nearest? (num den : Nat) : Option Binary :=
  let exponent := max (magnitude num den - 52) leastExponent
  let mantissa := roundDiv (num * scale 2 (-exponent)) (den * scale 2 exponent)
  let x : Binary :=
    if mantissa = mantissaBound then ⟨mantissa / 2, exponent + 1⟩ else ⟨mantissa, exponent⟩
  if x.exponent > greatestExponent then none else some x

/-- The decimal with an exponent that is closest to a float, if that float is the nearest one to it;
of two the greater one. -/
def decimalAt? (x : Binary) (exponent : Int) : Option Decimal :=
  -- A quarter of the last place of the float is the unit on the one side.
  let ten := scale 10 exponent * scale 2 (2 - x.exponent)
  let quarter := scale 10 (-exponent) * scale 2 (x.exponent - 2)
  let value := 4 * x.mantissa * quarter
  let narrow := 2 * x.mantissa = mantissaBound ∧ x.exponent ≠ leastExponent
  let least := (4 * x.mantissa - if narrow then 1 else 2) * quarter
  let greatest := (4 * x.mantissa + 2) * quarter
  let reads (digits : Nat) : Bool :=
    let n := digits * ten
    if x.mantissa % 2 = 0 then least ≤ n && n ≤ greatest else least < n && n < greatest
  let digits := value / ten
  if reads digits && (!reads (digits + 1) || 2 * value < (2 * digits + 1) * ten) then
    some ⟨digits, exponent⟩
  else if reads (digits + 1) then some ⟨digits + 1, exponent⟩
  else none

/-- The greatest exponent of a decimal that a float is nearest to. -/
def greatestTen : Nat := 309

/-- Seventeen digits are enough for any float, and the smallest ones need fewer. -/
def tensCount : Nat := 650

/-- The decimal with the fewest digits that a positive float is the nearest one to: the one with the
greatest exponent. -/
def shortest (x : Binary) : Decimal :=
  ((List.range tensCount).findSome? fun (i : Nat) =>
    x.decimalAt? ((greatestTen : Int) - i)).getD ⟨0, 0⟩

end Binary

namespace Decimal

/-- Positive numbers at or above ten to this power are too large for a float. -/
def tooLarge : Int := 310

/-- Numbers below ten to this power are zero as floats. -/
def tooSmall : Int := -330

/-- The float nearest to a number by its shortest decimal; zero has the exponent zero, and numbers
too large have none. -/
def asFloat? (d : Decimal) : Option Decimal :=
  let size : Int := (toString d.digits).length + d.exponent
  if d.digits = 0 || size < tooSmall then some ⟨0, 0⟩
  else if size > tooLarge then none
  else
    (Binary.nearest? (d.digits * scale 10 d.exponent) (scale 10 (-d.exponent))).map fun x =>
      if x.mantissa = 0 then ⟨0, 0⟩ else x.shortest

/-- All digits around a point, one at least on both sides. -/
def text (d : Decimal) : String :=
  let digits := toString d.digits
  if 0 ≤ d.exponent then digits ++ "".pushn '0' d.exponent.toNat ++ ".0"
  else
    let places := (-d.exponent).toNat
    let padded := ("".pushn '0' (places + 1 - digits.length) ++ digits).toList
    String.ofList (padded.take (padded.length - places)) ++ "." ++
      String.ofList (padded.drop (padded.length - places))

end Decimal

end JackToolchain.Text
