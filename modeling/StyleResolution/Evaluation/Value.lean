import StyleResolution.Evaluation.Lookup
import StyleResolution.Value.Arithmetic
import StyleResolution.Value.Template
import StyleResolution.Value.TypeTest

/-!
# Evaluating values

Variables are lazy: the value of a definition is evaluated each time it is referred to, in the
environment of the reference. A definition that is referred to while it is being evaluated is
circular.

`valueWith` evaluates a value given the meaning of variables, and `dereferenceWithin n` gives them
their meaning with at most `n` definitions inside each other. Definitions under evaluation are
pairwise different, so the number of rules in scope is a sufficient bound.
-/

namespace StyleResolution.Eval

def fillHoles (fetch : String → Eval Value) : List Template.Piece → Eval String
  | [] => pure ""
  | .text cs :: rest => do
    let tail ← fillHoles fetch rest
    pure (String.ofList cs ++ tail)
  | .hole name :: rest => do
    let v ← fetch (String.ofList name)
    let tail ← fillHoles fetch rest
    pure (v.unquoted ++ tail)

def applyFunction (name : String) (args : List Value) : Eval Value := do
  match name == "default" && args.isEmpty, (← state).defaultAnswer with
  | true, some answer => pure (.boolean answer)
  | _, _ =>
    match Value.typeTest name args with
    | some result => pure result
    | none =>
      match (← setting).functions name args with
      | some result => pure result
      | none =>
        emit (.unknownFunction name)
        pure (.call name args)

/-- The result of an operation on evaluated operands. Under strict math, an operation outside
    parentheses is kept unless it is a negation. -/
def applyOperator (op : Operator) (lhs rhs : Value) : Eval Value := do
  if (← setting).options.strictMath && (← state).parenDepth == 0 && !Value.isNegation op lhs then
    pure (.operation op lhs rhs)
  else
    let computed := Value.operate op lhs rhs
    match computed.warning with
    | some message => warn message
    | none => pure ()
    pure computed.value

/-- A name without the at-signs in front. -/
def bareName (name : String) : String :=
  String.ofList (name.toList.dropWhile (· == '@'))

/-- A parenthesis around an evaluated value. Numbers and colours stand without one. -/
def parenthesized : Value → Value
  | .dimension d => .dimension d
  | .color t => .color t
  | v => .paren v

mutual

/-- Evaluates a value, where `fetch` gives the value of a variable. -/
def valueWith (fetch : String → Eval Value) : Value → Eval Value
  | .keyword t => pure (.keyword t)
  | .dimension d => pure (.dimension d)
  | .color t => pure (.color t)
  | .quoted t quote => do
    let filled ← fillHoles fetch (Template.pieces t.toList)
    pure (.quoted filled quote)
  | .url inner => do
    let inner ← valueWith fetch inner
    pure (.url inner)
  | .variable name => fetch name
  | .indirect name => do
    let target ← fetch name
    fetch (bareName target.unquoted)
  | .list separator items => do
    let items ← valuesWith fetch items
    pure (.list separator items)
  | .operation op lhs rhs => do
    let lhs ← valueWith fetch lhs
    let rhs ← valueWith fetch rhs
    applyOperator op lhs rhs
  | .paren inner => do
    let inner ← inParens (valueWith fetch inner)
    pure (parenthesized inner)
  | .call name args => do
    let args ← valuesWith fetch args
    applyFunction name args

/-- Evaluates values from left to right. -/
def valuesWith (fetch : String → Eval Value) : List Value → Eval (List Value)
  | [] => pure []
  | v :: vs => do
    let v ← valueWith fetch v
    let vs ← valuesWith fetch vs
    pure (v :: vs)

end

/-- The value of a definition, with at most `n` definitions under evaluation inside each other. -/
def dereferenceWithin (env : Environment) : Nat → Variable → Eval Value
  | 0, _ => failWith .exhausted
  | n + 1, v => do
    if (← state).evaluating.contains v.site then
      fail { cause := .circularReference v.definition.name, span := some v.definition.span }
    else
      let fetch := fun name => do dereferenceWithin env n (← lookup env name)
      locatedAt v.definition.span
        (whileEvaluating v.site (outsideParens (valueWith fetch v.definition.value)))

def dereference (env : Environment) (v : Variable) : Eval Value := do
  dereferenceWithin env ((← scopeSize env) + 2) v

/-- The value of the nearest definition of a name. -/
def variableValue (env : Environment) (name : String) : Eval Value := do
  dereference env (← lookup env name)

def value (env : Environment) (v : Value) : Eval Value :=
  valueWith (variableValue env) v

end StyleResolution.Eval
