import StyleResolution.Rule

/-!
# Binding arguments to parameters

A call fits a mixin if it supplies enough arguments and not too many, if every named argument has
a parameter of its name, if every required parameter receives an argument, and if every pattern
equals the argument it receives. Named arguments go to the parameter of their name, wherever it
stands. Positional arguments fill the remaining parameters from left to right, and a variadic
parameter takes what is left.

Arguments are evaluated before they are bound. Fallbacks are not: they are bound as they are
written and evaluated by the caller of `bind`.
-/

namespace StyleResolution.Mixin

/-- Why a mixin does not take a call. -/
inductive MatchFailure where
  | tooFew (required supplied : Nat)
  | tooMany (allowed supplied : Nat)
  | unknownName (name : String)
  | patternMismatch (position : Nat) (expected actual : Value)
  deriving Repr

namespace MatchFailure

/-- Whether the arguments themselves are at fault. A pattern that does not match merely selects
    another overload. -/
def isArgumentError : MatchFailure → Bool
  | .patternMismatch _ _ _ => false
  | _ => true

def message : MatchFailure → String
  | .tooFew required supplied =>
    "expected at least " ++ Nat.repr required ++ " argument(s), got " ++ Nat.repr supplied
  | .tooMany allowed supplied =>
    "expected at most " ++ Nat.repr allowed ++ " argument(s), got " ++ Nat.repr supplied
  | .unknownName name => "named argument for @" ++ name ++ " not found"
  | .patternMismatch position expected actual =>
    "argument " ++ Nat.repr (position + 1) ++ " is `" ++ actual.text ++ "`, pattern expects `" ++
      expected.text ++ "`"

end MatchFailure

/-- Where the value of a parameter comes from. -/
inductive Bound where
  /-- The call, evaluated. -/
  | supplied (value : Value)
  /-- The parameter's fallback, unevaluated. -/
  | fallback (value : Value)
  deriving Repr

/-- The value, whatever its source. -/
def Bound.value : Bound → Value
  | .supplied v | .fallback v => v

/-- What a call binds. -/
structure Binding where
  /-- In the order of the parameters. -/
  bindings : List (String × Bound)
  /-- All arguments in the order of the call. -/
  arguments : List Value
  deriving Repr

/-- The value bound to a name; the last one if there are several. -/
def Binding.get? (b : Binding) (name : String) : Option Value :=
  (b.bindings.reverse.lookup name).map Bound.value

/-- One slot per parameter, and the arguments left for a variadic parameter. -/
structure Assignment where
  slots : List (Option Value)
  rest : List Value
  deriving Repr

/-- Whether the parameter has a fallback and this name. -/
def isNamed (name : String) : Param → Bool
  | .named n _ => n == name
  | _ => false

/-- Whether an argument counts towards the required ones. An argument named after a parameter
    with a fallback does not. -/
def counts (params : List Param) (arg : Argument) : Bool :=
  match arg.name with
  | some name => !params.any (isNamed name)
  | none => true

/-- Whether a named argument goes to this parameter. -/
def takesName (name : String) (p : Param) : Bool :=
  !p.isVariadic && p.name == some name

/-- Puts every named argument into the slot of its parameter; the last one of a name wins. -/
def assignNamed (params : List Param) :
    List (Option Value) → List Argument → Except MatchFailure (List (Option Value))
  | slots, [] => .ok slots
  | slots, arg :: args =>
    match arg.name with
    | none => assignNamed params slots args
    | some name =>
      match params.findIdx? (takesName name) with
      | some position => assignNamed params (slots.set position (some arg.value)) args
      | none => .error (.unknownName name)

/-- Fills the empty slots with positional arguments, up to the first variadic parameter, which
    takes the remaining ones. Answers with the slots, the variadic rest and the arguments that
    found no place. -/
def fillPositional :
    List Param → List (Option Value) → List Value → List (Option Value) × List Value × List Value
  | .variadic _ :: _, slots, values => (slots, values, [])
  | _ :: ps, some v :: slots, values =>
    let (filled, rest, left) := fillPositional ps slots values
    (some v :: filled, rest, left)
  | _ :: ps, none :: slots, [] =>
    let (filled, rest, left) := fillPositional ps slots []
    (none :: filled, rest, left)
  | _ :: ps, none :: slots, v :: values =>
    let (filled, rest, left) := fillPositional ps slots values
    (some v :: filled, rest, left)
  | _, slots, values => (slots, [], values)

def checkSlots (required filled : Nat) :
    Nat → List Param → List (Option Value) → Except MatchFailure Unit
  | position, p :: ps, slot :: slots =>
    match p, slot with
    | .pattern expected, some actual =>
      if expected.cssEq actual then checkSlots required filled (position + 1) ps slots
      else .error (.patternMismatch position expected actual)
    | p, none =>
      if p.isRequired then .error (.tooFew required filled)
      else checkSlots required filled (position + 1) ps slots
    | _, _ => checkSlots required filled (position + 1) ps slots
  | _, _, _ => .ok ()

def positionals (args : List Argument) : List Value :=
  (args.filter (·.name.isNone)).map (·.value)

/-- Distributes the arguments over the parameters, or says why they do not fit. -/
def assign (params : List Param) (args : List Argument) : Except MatchFailure Assignment := do
  let isVariadic := params.any Param.isVariadic
  let fixed := params.countP (!·.isVariadic)
  let required := params.countP Param.isRequired
  let counted := args.countP (counts params)
  if counted < required then
    throw (.tooFew required counted)
  if !isVariadic && fixed < args.length then
    throw (.tooMany fixed args.length)
  let named ← assignNamed params (List.replicate params.length none) args
  let (slots, rest, left) := fillPositional params named (positionals args)
  if !left.isEmpty then
    throw (.tooMany fixed args.length)
  checkSlots required (slots.countP Option.isSome) 0 params slots
  pure ⟨slots, rest⟩

/-- What one parameter binds, given its slot. -/
def bindParam (rest : List Value) : Param → Option Value → List (String × Bound)
  | .positional name, some v => [(name, .supplied v)]
  | .positional _, none => []
  | .named name _, some v => [(name, .supplied v)]
  | .named name fallback, none => [(name, .fallback fallback)]
  | .pattern _, _ => []
  | .variadic (some name), _ => [(name, .supplied (.spaceList rest))]
  | .variadic none, _ => []

def bind (params : List Param) (args : List Argument) : Except MatchFailure Binding := do
  let assignment ← assign params args
  pure
    { bindings := (params.zip assignment.slots).flatMap fun (p, slot) =>
        bindParam assignment.rest p slot
      arguments := args.map (·.value) }

/-- Whether the call fits the parameters. -/
def accepts (params : List Param) (args : List Argument) : Bool :=
  match assign params args with
  | .ok _ => true
  | .error _ => false

end StyleResolution.Mixin
