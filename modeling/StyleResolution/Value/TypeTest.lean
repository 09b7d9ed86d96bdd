import StyleResolution.Value

/-!
# Type tests

Functions such as `isnumber` or `isunit` ask for the kind of a value. Their names are read in any
case, and a call with the wrong number of arguments is no type test.
-/

namespace StyleResolution.Value

def hasUnit (v : Value) (unit : String) : Bool :=
  match v with
  | .dimension d => d.unit == unit
  | _ => false

def typeTest1 (name : String) (v : Value) : Option Bool :=
  match name with
  | "isnumber" => some (match v with | .dimension _ => true | _ => false)
  | "iscolor" => some (match v with | .color _ => true | _ => false)
  | "isstring" => some (match v with | .quoted _ _ => true | _ => false)
  | "iskeyword" => some (match v with | .keyword _ => true | _ => false)
  | "isurl" => some (match v with | .url _ => true | _ => false)
  | "ispixel" => some (v.hasUnit "px")
  | "isem" => some (v.hasUnit "em")
  | "ispercentage" => some (v.hasUnit "%")
  | _ => none

/-- The answer of a type test, or `none` if the call is not one. -/
def typeTest (name : String) (args : List Value) : Option Value :=
  let name := String.ofList (name.toList.map Char.toLower)
  match args with
  | [v] => (typeTest1 name v).map boolean
  | [v, unit] => if name == "isunit" then some (boolean (v.hasUnit unit.unquoted)) else none
  | _ => none

end StyleResolution.Value
