import StyleResolution.Text.Reader

/-!
# Numerals

A numeral is a sign, digits before the point and digits after it, of which one part may be
missing. It denotes the double nearest to its value.
-/

namespace StyleResolution.Decimal

/-- A number as it is written. -/
structure Numeral where
  negative : Bool
  /-- Digits before the point. -/
  whole : List Char
  /-- Digits after the point; empty if there is no point. -/
  fraction : List Char
  deriving Repr, DecidableEq

/-- Whether `c` is a decimal digit. -/
def isDigit (c : Char) : Bool :=
  '0' ≤ c && c ≤ '9'

/-- The number that a run of digits denotes. -/
def naturalOf (ds : List Char) : Nat :=
  ds.foldl (fun n d => 10 * n + (d.toNat - '0'.toNat)) 0

namespace Numeral

def chars (n : Numeral) : List Char :=
  (if n.negative then ['-'] else []) ++ n.whole ++
    (if n.fraction.isEmpty then [] else '.' :: n.fraction)

/-- The double nearest to the numeral's value. -/
def toFloat (n : Numeral) : Float :=
  let magnitude := Float.ofScientific (naturalOf (n.whole ++ n.fraction)) true n.fraction.length
  if n.negative then -magnitude else magnitude

def readFraction : Reader (List Char) := do
  let _ ← Reader.char '.'
  Reader.takeWhile1 isDigit

/-- Digits with an optional fraction, or a fraction alone. -/
def readMagnitude : Reader (List Char × List Char) :=
  (do
    let whole ← Reader.takeWhile1 isDigit
    let fraction ← Reader.opt readFraction
    pure (whole, fraction.getD [])) <|>
  (do
    let fraction ← readFraction
    pure ([], fraction))

/-- `10`, `-1.5`, `.25` -/
def read : Reader Numeral := do
  let sign ← Reader.opt (Reader.char '-')
  let (whole, fraction) ← readMagnitude
  pure ⟨sign.isSome, whole, fraction⟩

end Numeral

end StyleResolution.Decimal
