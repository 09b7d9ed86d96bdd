import StyleResolution.Path
import StyleResolution.Selector
import StyleResolution.Value

/-!
# Rules

A sheet is a sequence of rules, and most kinds of rules hold rules themselves. The same tree
serves as input and as output; after resolution it holds declarations, rulesets, `@media` blocks,
other at-rules and plain imports only.
-/

namespace StyleResolution

/-- A position in a source. File 0 is the main sheet; lines and columns start at 1. -/
structure Span where
  file : Nat
  line : Nat
  column : Nat
  deriving Repr, DecidableEq

/-- The position of a rule that was not read from a text. -/
def Span.none : Span :=
  ⟨0, 0, 0⟩

def Span.text (s : Span) : String :=
  Nat.repr s.line ++ ":" ++ Nat.repr s.column

/-- `property: value [!important];` -/
structure Declaration where
  property : String
  value : Value
  important : Bool
  span : Span
  deriving Repr

/-- `@name: value;`, with the value unevaluated. -/
structure Definition where
  name : String
  value : Value
  span : Span
  deriving Repr

/-- One formal parameter of a mixin. -/
inductive Param where
  /-- `@name` -/
  | positional (name : String)
  /-- `@name: fallback` -/
  | named (name : String) (fallback : Value)
  /-- A literal that the argument must equal. -/
  | pattern (value : Value)
  /-- `...` or `@rest...` -/
  | variadic (name : Option String)
  deriving Repr

namespace Param

def name : Param → Option String
  | .positional n | .named n _ => some n
  | .variadic n => n
  | .pattern _ => none

/-- Whether every call has to supply the parameter. -/
def isRequired : Param → Bool
  | .positional _ | .pattern _ => true
  | .named _ _ | .variadic _ => false

/-- Whether the parameter takes all remaining arguments. -/
def isVariadic : Param → Bool
  | .variadic _ => true
  | _ => false

end Param

/-- A comparison in a guard. -/
inductive Comparison where
  | equal
  | less
  | greater
  | lessEqual
  | greaterEqual
  deriving Repr, DecidableEq

/-- `[not] (lhs [op rhs])` -/
structure Condition where
  negated : Bool
  lhs : Value
  comparison : Option (Comparison × Value)
  deriving Repr

/-- A guard holds if all conditions of one of its groups hold. -/
structure Guard where
  groups : List (List Condition)
  deriving Repr

/-- Everything about a mixin definition except its body. -/
structure MixinHead where
  name : String
  params : List Param
  guard : Option Guard
  span : Span
  deriving Repr

/-- Whether some parameter takes all remaining arguments. -/
def MixinHead.isVariadic (m : MixinHead) : Bool :=
  m.params.any Param.isVariadic

/-- An argument of a call, with the name it is passed by, if any. -/
structure Argument where
  name : Option String
  value : Value
  deriving Repr

/-- `.name(args) [!important];`, `#ns > .name();` -/
structure MixinCall where
  /-- The namespaces followed by the mixin's name, each with its mark. -/
  path : List String
  args : List Argument
  important : Bool
  span : Span
  deriving Repr

structure ImportOptions where
  /-- At most once per compilation. -/
  once : Bool := false
  /-- Every time. -/
  multiple : Bool := false
  /-- A missing file is skipped. -/
  optional : Bool := false
  /-- Stays in the output. -/
  css : Bool := false
  /-- Resolved whatever the extension. -/
  less : Bool := false
  deriving Repr, DecidableEq

/-- `@import (options) path media;` -/
structure Import where
  path : Value
  options : ImportOptions
  media : Option Value
  span : Span
  deriving Repr

/-- Whether the path depends on variables. -/
def Import.isInterpolated (i : Import) : Bool :=
  i.path.isUnresolved

/-- A rule of a sheet. -/
inductive Rule where
  | declaration (d : Declaration)
  | variable (d : Definition)
  | ruleset (selectors : List Selector) (rules : List Rule) (span : Span)
  | mixin (head : MixinHead) (rules : List Rule)
  | call (c : MixinCall)
  | fileImport (i : Import)
  | media (features : Value) (rules : List Rule) (span : Span)
  /-- An at-rule without a block, such as `@charset`. -/
  | atStatement (name : String) (prelude : Option Value) (span : Span)
  /-- An at-rule with a block, such as `@font-face`. -/
  | atBlock (name : String) (prelude : Option Value) (rules : List Rule) (span : Span)
  deriving Repr

/-- A sequence of rules and the path it was read from, if it is known. -/
structure Stylesheet where
  path : Option Path
  rules : List Rule
  deriving Repr

mutual

/-- The number of rules in a rule, itself included. -/
def Rule.size : Rule → Nat
  | .declaration _ | .variable _ | .call _ | .fileImport _ | .atStatement _ _ _ => 1
  | .ruleset _ rules _ | .mixin _ rules | .media _ rules _ | .atBlock _ _ rules _ =>
    1 + Rule.sizes rules

/-- The number of rules in a sequence, at all depths. -/
def Rule.sizes : List Rule → Nat
  | [] => 0
  | r :: rs => r.size + Rule.sizes rs

end

end StyleResolution
