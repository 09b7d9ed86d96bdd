import StyleResolution.Value

/-!
# Arithmetic on values

Operations combine dimensions with dimensions and colours with colours or plain numbers. Operands
that cannot be combined stay an operation. Two situations are worth a warning: a division by zero,
which also stays an operation, and two different units, of which the left one is kept.
-/

namespace StyleResolution

def Operator.apply : Operator → Float → Float → Float
  | .add, a, b => a + b
  | .subtract, a, b => a - b
  | .multiply, a, b => a * b
  | .divide, a, b => a / b

/-- Red, green and blue, each meant to lie between 0 and 255. -/
structure Channels where
  red : Float
  green : Float
  blue : Float
  deriving Repr

namespace Channels

/-- The digit that a hexadecimal character stands for. -/
def hexDigit (c : Char) : Option Nat :=
  if '0' ≤ c && c ≤ '9' then some (c.toNat - '0'.toNat)
  else if 'a' ≤ c && c ≤ 'f' then some (c.toNat - 'a'.toNat + 10)
  else if 'A' ≤ c && c ≤ 'F' then some (c.toNat - 'A'.toNat + 10)
  else none

/-- Two characters as one channel. A plus sign in front of a single digit is allowed. -/
def channel (high low : Char) : Option Float := do
  let l ← hexDigit low
  if high == '+' then
    pure (Float.ofNat l)
  else
    let h ← hexDigit high
    pure (Float.ofNat (16 * h + l))

/-- The channels of a colour with three or six digits. -/
def ofColor (text : String) : Option Channels :=
  match text.toList with
  | ['#', r, g, b] => do
    pure ⟨← channel r r, ← channel g g, ← channel b b⟩
  | ['#', r, r', g, g', b, b'] => do
    pure ⟨← channel r r', ← channel g g', ← channel b b'⟩
  | _ => none

def ofValue : Value → Option Channels
  | .color text => ofColor text
  | .dimension d => if d.isUnitless then some ⟨d.number, d.number, d.number⟩ else none
  | _ => none

/-- A channel rounded half away from zero and kept between 0 and 255. -/
def clamp (x : Float) : Nat :=
  let rounded := x.round
  if rounded ≤ 0.0 then 0
  else if 255.0 ≤ rounded then 255
  else rounded.toUInt8.toNat

def hexPair (n : Nat) : List Char :=
  [Nat.digitChar (n / 16), Nat.digitChar (n % 16)]

def text (c : Channels) : String :=
  String.ofList
    ('#' :: (hexPair (clamp c.red) ++ hexPair (clamp c.green) ++ hexPair (clamp c.blue)))

def combine (op : Operator) (a b : Channels) : Channels :=
  ⟨op.apply a.red b.red, op.apply a.green b.green, op.apply a.blue b.blue⟩

def hasZero (c : Channels) : Bool :=
  c.red == 0.0 || c.green == 0.0 || c.blue == 0.0

end Channels

namespace Value

/-- A value together with the warning that its computation gave rise to. -/
structure Computed where
  value : Value
  warning : Option String := none
  deriving Repr

def divisionByZero (lhs rhs : Value) : String :=
  "division by zero in `" ++ lhs.text ++ " / " ++ rhs.text ++ "`"

/-- The warning about two different units. -/
def incompatibleUnits (op : Operator) (a b : Dimension) : String :=
  "incompatible units " ++ a.unit ++ " and " ++ b.unit ++ " in `" ++ a.text ++ " " ++ op.symbol ++
    " " ++ b.text ++ "`, keeping " ++ a.unit

/-- An operation on two dimensions. The result takes the unit of the operand that has one, the
    left one first. -/
def operateDimensions (op : Operator) (a b : Dimension) : Computed :=
  let result := op.apply a.number b.number
  if op == .divide && b.number == 0.0 then
    ⟨.operation op (.dimension a) (.dimension b),
      some (divisionByZero (.dimension a) (.dimension b))⟩
  else if a.unit == b.unit || b.isUnitless then
    ⟨.dimension ⟨result, a.unit⟩, none⟩
  else if a.isUnitless then
    ⟨.dimension ⟨result, b.unit⟩, none⟩
  else
    ⟨.dimension ⟨result, a.unit⟩, some (incompatibleUnits op a b)⟩

/-- An operation in which a colour takes part. -/
def operateColors (op : Operator) (lhs rhs : Value) : Computed :=
  match Channels.ofValue lhs, Channels.ofValue rhs with
  | some a, some b =>
    if op == .divide && b.hasZero then
      ⟨.operation op lhs rhs, some (divisionByZero lhs rhs)⟩
    else
      ⟨.color (Channels.combine op a b).text, none⟩
  | _, _ => ⟨.operation op lhs rhs, none⟩

/-- Applies an operator to evaluated operands. -/
def operate (op : Operator) (lhs rhs : Value) : Computed :=
  match lhs, rhs with
  | .dimension a, .dimension b => operateDimensions op a b
  | .color a, rhs => operateColors op (.color a) rhs
  | lhs, .color b => operateColors op lhs (.color b)
  | lhs, rhs => ⟨.operation op lhs rhs, none⟩

/-- Whether an operation is a negation, which is written as a product with `-1`. -/
def isNegation (op : Operator) (lhs : Value) : Bool :=
  match op, lhs with
  | .multiply, .dimension d => d.isUnitless && d.number == -1.0
  | _, _ => false

end Value

end StyleResolution
