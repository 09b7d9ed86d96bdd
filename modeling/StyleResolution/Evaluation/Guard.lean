import StyleResolution.Evaluation.Value

/-!
# Evaluating guards

The groups of a guard are alternatives, and the conditions of a group have to hold together. A
condition without a comparison holds if its value is the keyword `true`. Conditions count as
parenthesised, so their arithmetic is carried out under strict math too.
-/

namespace StyleResolution

/-- Numbers with comparable units compare as numbers. Anything else can only be equal. -/
def Comparison.holds (op : Comparison) (lhs rhs : Value) : Bool :=
  let equalOnly :=
    match op with
    | .equal | .lessEqual | .greaterEqual => lhs.cssEq rhs
    | .less | .greater => false
  match lhs, rhs with
  | .dimension a, .dimension b =>
    if a.comparable b then
      match op with
      | .equal => a.number == b.number
      | .less => a.number < b.number
      | .greater => a.number > b.number
      | .lessEqual => a.number ≤ b.number
      | .greaterEqual => a.number ≥ b.number
    else equalOnly
  | _, _ => equalOnly

mutual

/-- Whether the value calls `default`. -/
def Value.callsDefault : Value → Bool
  | .call name args => name == "default" || Value.anyCallsDefault args
  | .list _ items => Value.anyCallsDefault items
  | .operation _ lhs rhs => lhs.callsDefault || rhs.callsDefault
  | .paren inner | .url inner => inner.callsDefault
  | .keyword _ | .dimension _ | .color _ | .quoted _ _ | .variable _ | .indirect _ => false

/-- Whether one of the values calls `default`. -/
def Value.anyCallsDefault : List Value → Bool
  | [] => false
  | v :: vs => v.callsDefault || Value.anyCallsDefault vs

end

/-- Whether the condition calls `default`. -/
def Condition.callsDefault (c : Condition) : Bool :=
  c.lhs.callsDefault ||
    match c.comparison with
    | some (_, rhs) => rhs.callsDefault
    | none => false

/-- Whether some condition of the guard calls `default`. -/
def Guard.callsDefault (g : Guard) : Bool :=
  g.groups.any (·.any Condition.callsDefault)

namespace Eval

/-- Whether a condition holds, its negation apart. -/
def comparisonHolds (env : Environment) (c : Condition) : Eval Bool := do
  let lhs ← value env c.lhs
  match c.comparison with
  | none => pure lhs.isTrue
  | some (op, rhs) =>
    let rhs ← value env rhs
    pure (op.holds lhs rhs)

def conditionHolds (env : Environment) (c : Condition) : Eval Bool := do
  let holds ← inParens (comparisonHolds env c)
  pure (holds != c.negated)

/-- Whether all conditions hold; the first one that does not ends the test. -/
def allHold (env : Environment) : List Condition → Eval Bool
  | [] => pure true
  | c :: cs => do
    if ← conditionHolds env c then allHold env cs else pure false

/-- Whether some group holds; the first one that does ends the test. -/
def anyHolds (env : Environment) : List (List Condition) → Eval Bool
  | [] => pure false
  | group :: groups => do
    if ← allHold env group then pure true else anyHolds env groups

def guardHolds (env : Environment) (g : Guard) : Eval Bool :=
  anyHolds env g.groups

end Eval

end StyleResolution
