import StyleResolution.Decimal.Binary

/-!
# Numbers as text

Whole numbers below `10 ^ 15` are written as integers. Every other number is written with eight
places of its exact value, a tie going to the even neighbour, and then loses the zeros and the
point at its end.
-/

namespace StyleResolution.Decimal

/-- How numbers are written. -/
structure Format where
  /-- Places after the point before zeros are dropped. -/
  places : Nat
  /-- Whole numbers of smaller magnitude are written as integers. -/
  wholeBelow : Nat
  infinity : String
  notANumber : String
  deriving Repr

/-- Eight places; whole numbers below `10 ^ 15` without a point. -/
def numberFormat : Format where
  places := 8
  wholeBelow := Nat.pow 10 15
  infinity := "inf"
  notANumber := "NaN"

/-- Decimal digits of a natural number. -/
def digits (n : Nat) : List Char :=
  Nat.toDigits 10 n

/-- Decimal digits with zeros in front up to the width. -/
def paddedDigits (width n : Nat) : List Char :=
  let ds := digits n
  List.replicate (width - ds.length) '0' ++ ds

/-- The text without the run of `c` at its end. -/
def dropTrailing (c : Char) (cs : List Char) : List Char :=
  (cs.reverse.dropWhile (· == c)).reverse

/-- The digits of `numerator / denominator` with `places` places after the point. -/
def fixed (places numerator denominator : Nat) : List Char :=
  let scaled := roundToEven (numerator * Nat.pow 10 places) denominator
  digits (scaled / Nat.pow 10 places) ++
    '.' :: paddedDigits places (scaled % Nat.pow 10 places)

def Binary.text (format : Format) : Binary → String
  | .notANumber => format.notANumber
  | .infinite negative => if negative then "-" ++ format.infinity else format.infinity
  | .finite negative mantissa exponent =>
    let (numerator, denominator) := fractionOf mantissa exponent
    let whole := numerator / denominator
    let sign := if negative then ['-'] else []
    if numerator % denominator == 0 && whole < format.wholeBelow then
      String.ofList (if whole == 0 then digits 0 else sign ++ digits whole)
    else
      let written := fixed format.places numerator denominator
      String.ofList (sign ++ dropTrailing '.' (dropTrailing '0' written))

def numberText (x : Float) : String :=
  (Binary.ofFloat x).text numberFormat

end StyleResolution.Decimal
