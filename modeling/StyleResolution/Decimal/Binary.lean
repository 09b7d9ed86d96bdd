/-!
# The exact value of a double

A finite double is `± mantissa * 2 ^ exponent` with natural mantissa. All decimal text is computed
from that exact value, in natural-number arithmetic.
-/

namespace StyleResolution.Decimal

/-- What the 64 bits of a double stand for. -/
inductive Binary where
  /-- The number `mantissa * 2 ^ exponent`, negated if `negative`. -/
  | finite (negative : Bool) (mantissa : Nat) (exponent : Int)
  | infinite (negative : Bool)
  | notANumber
  deriving Repr, DecidableEq

/-- Splits the bits into sign, exponent and mantissa; the leading one of a normal number is
    implicit in the bits and explicit in the mantissa. -/
def Binary.ofFloat (x : Float) : Binary :=
  let bits : Nat := x.toBits.toNat
  let negative := bits / Nat.pow 2 63 % 2 == 1
  let exponent : Nat := bits / Nat.pow 2 52 % Nat.pow 2 11
  let fraction : Nat := bits % Nat.pow 2 52
  if exponent == 2047 then
    if fraction == 0 then .infinite negative else .notANumber
  else if exponent == 0 then
    .finite negative fraction (-1074)
  else
    .finite negative (fraction + Nat.pow 2 52) ((exponent : Int) - 1075)

/-- Numerator and denominator of `mantissa * 2 ^ exponent`. -/
def fractionOf (mantissa : Nat) (exponent : Int) : Nat × Nat :=
  if 0 ≤ exponent then
    (mantissa * Nat.pow 2 exponent.toNat, 1)
  else
    (mantissa, Nat.pow 2 (-exponent).toNat)

/-- The quotient rounded to the nearest natural number, a tie to the even one. -/
def roundToEven (numerator denominator : Nat) : Nat :=
  let quotient := numerator / denominator
  let twice := 2 * (numerator % denominator)
  if twice < denominator then quotient
  else if denominator < twice then quotient + 1
  else if quotient % 2 == 0 then quotient
  else quotient + 1

end StyleResolution.Decimal
