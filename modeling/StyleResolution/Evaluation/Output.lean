import StyleResolution.Evaluation.State

/-!
# What a block is evaluated in, and what it evaluates to
-/

namespace StyleResolution

/-- Where a block is evaluated. -/
structure Context where
  /-- The effective selectors of the enclosing ruleset; empty at the root. -/
  selectors : List Selector := []
  /-- The joined features of the enclosing media blocks. -/
  media : Option Value := none
  /-- Whether the block is expanded by an `!important` call. -/
  important : Bool := false
  deriving Repr

/-- What a block contributes to its surroundings. -/
structure Output where
  /-- Declarations for the enclosing ruleset. -/
  declarations : List Declaration := []
  /-- Rules beside the enclosing ruleset. -/
  rules : List Rule := []
  deriving Repr

namespace Output

def append (a b : Output) : Output :=
  ⟨a.declarations ++ b.declarations, a.rules ++ b.rules⟩

instance : Append Output :=
  ⟨append⟩

def ofRules (rules : List Rule) : Output :=
  { rules }

def declarationRules (o : Output) : List Rule :=
  o.declarations.map Rule.declaration

end Output

/-- How a block is evaluated: the innermost frame of the environment, whose imports are expanded
    already, in a context. -/
abbrev BlockEvaluator := Environment → Context → Eval Output

end StyleResolution
