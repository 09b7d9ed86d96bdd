import StyleResolution.Decimal.Text
import StyleResolution.Text.Join

/-!
# Values

A value read from a sheet may still hold variable references, operations and strings with holes;
evaluation replaces those by literals. A value is written back by `Value.text`, and two values
count as equal in patterns and guards by `Value.cssEq`.
-/

namespace StyleResolution

/-- A number with an optional unit: `10`, `1.5em`, `50%`. -/
structure Dimension where
  number : Float
  /-- Empty for a plain number. -/
  unit : String
  deriving Repr

namespace Dimension

/-- Whether the dimension is a plain number. -/
def isUnitless (d : Dimension) : Bool :=
  d.unit == ""

def text (d : Dimension) : String :=
  Decimal.numberText d.number ++ d.unit

def comparable (a b : Dimension) : Bool :=
  a.unit == b.unit || a.isUnitless || b.isUnitless

end Dimension

/-- What stands between the items of a list. -/
inductive Separator where
  | space
  | comma
  deriving Repr, DecidableEq

def Separator.text : Separator → String
  | .space => " "
  | .comma => ", "

/-- An arithmetic operator. -/
inductive Operator where
  | add
  | subtract
  | multiply
  | divide
  deriving Repr, DecidableEq

def Operator.symbol : Operator → String
  | .add => "+"
  | .subtract => "-"
  | .multiply => "*"
  | .divide => "/"

/-- A property value, an argument, or any part of one. -/
inductive Value where
  /-- A bare identifier: `red`, `solid`, `true`. -/
  | keyword (text : String)
  | dimension (d : Dimension)
  /-- A hexadecimal colour in source form, with its `#`. -/
  | color (text : String)
  /-- A string. Without a quote it is an escaped string, written as its bare text. -/
  | quoted (text : String) (quote : Option Char)
  | url (inner : Value)
  /-- `@name` -/
  | variable (name : String)
  /-- `@@name`: the variable whose name is the value of `@name`. -/
  | indirect (name : String)
  | list (separator : Separator) (items : List Value)
  | operation (op : Operator) (lhs rhs : Value)
  | paren (inner : Value)
  | call (name : String) (args : List Value)
  deriving Repr, Inhabited

namespace Value

/-- A number without a unit. -/
def number (x : Float) : Value :=
  .dimension ⟨x, ""⟩

/-- `true` or `false` as a keyword. -/
def boolean (b : Bool) : Value :=
  .keyword (if b then "true" else "false")

def spaceList (items : List Value) : Value :=
  .list .space items

def commaList (items : List Value) : Value :=
  .list .comma items

/-- A single item stands for itself; any other number of items makes a list. -/
def collapse (separator : Separator) : List Value → Value
  | [item] => item
  | items => .list separator items

def quotedText (text : String) : Option Char → String
  | some q => q.toString ++ text ++ q.toString
  | none => text

mutual

def text : Value → String
  | .keyword t => t
  | .dimension d => d.text
  | .color t => t
  | .quoted t quote => quotedText t quote
  | .url inner => "url(" ++ inner.text ++ ")"
  | .variable name => "@" ++ name
  | .indirect name => "@@" ++ name
  | .list separator items => Text.join separator.text (texts items)
  | .operation op lhs rhs => lhs.text ++ " " ++ op.symbol ++ " " ++ rhs.text
  | .paren inner => "(" ++ inner.text ++ ")"
  | .call name args => name ++ "(" ++ Text.join ", " (texts args) ++ ")"

def texts : List Value → List String
  | [] => []
  | v :: vs => v.text :: texts vs

end

theorem texts_eq_map (vs : List Value) : texts vs = vs.map text := by
  induction vs with
  | nil => rfl
  | cons v vs ih => simp [texts, ih]

/-- Whether the value is the keyword `true`. -/
def isTrue : Value → Bool
  | .keyword t => t == "true"
  | _ => false

def items : Value → List Value
  | .list _ items => items
  | v => [v]

/-- The text without quotes, as it enters a string or names a variable. -/
def unquoted : Value → String
  | .quoted t _ => t
  | v => v.text

/-- Whether a string holds the opening of a hole, an at-sign followed by a brace. -/
def opensHole : List Char → Bool
  | '@' :: '{' :: _ => true
  | _ :: rest => opensHole rest
  | [] => false

mutual

/-- Whether the value still needs evaluation. -/
def isUnresolved : Value → Bool
  | .keyword _ | .dimension _ | .color _ => false
  | .quoted t _ => opensHole t.toList
  | .url inner | .paren inner => inner.isUnresolved
  | .variable _ | .indirect _ | .operation _ _ _ => true
  | .list _ items => anyUnresolved items
  | .call _ args => anyUnresolved args

/-- Whether some value of the list still needs evaluation. -/
def anyUnresolved : List Value → Bool
  | [] => false
  | v :: vs => v.isUnresolved || anyUnresolved vs

end

/-- Whether two texts agree up to the case of ASCII letters. -/
def sameAnyCase (a b : String) : Bool :=
  a.toList.map Char.toLower == b.toList.map Char.toLower

mutual

/-- Equality of values in patterns and guards. Dimensions compare as numbers, and a plain number
    equals the same number in any unit; colours compare up to case; lists compare item by item,
    whatever separates the items; everything else compares by its text. -/
def cssEq : Value → Value → Bool
  | .dimension a, .dimension b => a.number == b.number && a.comparable b
  | .color a, .color b => sameAnyCase a b
  | .list _ as, .list _ bs => cssEqItems as bs
  | a, b => a.text == b.text

/-- Item by item equality of lists of the same length. -/
def cssEqItems : List Value → List Value → Bool
  | [], [] => true
  | a :: as, b :: bs => a.cssEq b && cssEqItems as bs
  | _, _ => false

end

end Value

end StyleResolution
