import StyleResolution.Compiler

/-! # What declarations are written for

A declaration in a tree is written for the selectors of all rulesets around it and under the media
blocks around it, and both start afresh inside other at-rules. A flat tree says the same in place:
each declaration stands in the one ruleset and in the one media block that it is meant for.

`Stylesheet.written` reads the declarations off a nested tree, with the meaning that the nesting
gives them, and `Rule.standingIn` reads them off a flat tree as they stand. The declarations written
side by side in one block are one cluster, in their order.
-/

namespace StyleResolution

/-- An at-rule around a declaration. -/
structure Enclosure where
  name : String
  prelude : Option Value
  /-- The features of the media blocks that the at-rule itself stands in. -/
  media : Option Value
  span : Span
  deriving Repr

/-- What a declaration stands in. -/
structure Surroundings where
  /-- The at-rules other than media blocks, outermost first. -/
  atRules : List Enclosure := []
  /-- The features of the media blocks inside the innermost at-rule. -/
  media : Option Value := none
  /-- The selectors of the ruleset inside the innermost at-rule. -/
  selectors : List Selector := []
  deriving Repr

/-- The surroundings inside a media block: its features follow those of the media blocks around it,
    with `and` in between. -/
def Surroundings.inMedia (around : Surroundings) (features : Value) : Surroundings :=
  match around.media with
  | some outer => { around with media := some (.spaceList [outer, .keyword "and", features]) }
  | none => { around with media := some features }

def Surroundings.inAtRule (around : Surroundings) (name : String) (prelude : Option Value)
    (span : Span) : Surroundings :=
  { atRules := around.atRules ++ [⟨name, prelude, around.media, span⟩] }

/-- Declarations that stand side by side. -/
structure Cluster where
  around : Surroundings
  declarations : List Declaration
  deriving Repr

def Cluster.entries (g : Cluster) : List (Surroundings × Declaration) :=
  g.declarations.map (g.around, ·)

def Surroundings.clusterOf (around : Surroundings) (declarations : List Declaration) : List Cluster :=
  if declarations.isEmpty then [] else [⟨around, declarations⟩]

/-! ## Nested trees -/

/-- The blocks around a rule, innermost first, each with its site. -/
abbrev Scope := List (Site × List Rule)

namespace Scope

def state (scope : Scope) : Evaluation :=
  { frames := ⟨(scope.map fun block => Frame.ofBlock block.1 block.2 0).toArray⟩ }

/-- The environment of the innermost block. -/
def environment (scope : Scope) : Environment :=
  { frames := List.range scope.length }

def value (setting : Setting) (scope : Scope) (v : Value) : Option Value :=
  (Eval.value scope.environment v setting scope.state).1.toOption

def prelude (setting : Setting) (scope : Scope) : Option Value → Option (Option Value)
  | none => some none
  | some v => (scope.value setting v).map some

def declarations (setting : Setting) (scope : Scope) : List Rule → Option (List Declaration)
  | [] => some []
  | .declaration d :: rules => do
    let v ← scope.value setting d.value
    let others ← declarations setting scope rules
    pure ({ d with value := v } :: others)
  | _ :: rules => declarations setting scope rules

end Scope

mutual

def Rule.written (setting : Setting) (scope : Scope) (around : Surroundings) (site : Site) :
    Rule → Option (List Cluster)
  | .ruleset selectors rules _ => do
    let limit := setting.options.maxSelectorExpansions
    let effective ← (Selector.combine around.selectors selectors limit).toOption
    let inside := { around with selectors := effective }
    let own ← Scope.declarations setting ((site, rules) :: scope) rules
    let others ← Rule.writtenFrom setting ((site, rules) :: scope) inside site 0 rules
    pure (inside.clusterOf own ++ others)
  | .media features rules _ => do
    let features ← scope.value setting features
    let inside := around.inMedia features
    let own ← Scope.declarations setting ((site, rules) :: scope) rules
    let others ← Rule.writtenFrom setting ((site, rules) :: scope) inside site 0 rules
    pure (inside.clusterOf own ++ others)
  | .atBlock name prelude rules span => do
    let prelude ← scope.prelude setting prelude
    let inside := around.inAtRule name prelude span
    let own ← Scope.declarations setting ((site, rules) :: scope) rules
    let others ← Rule.writtenFrom setting ((site, rules) :: scope) inside site 0 rules
    pure (inside.clusterOf own ++ others)
  | .declaration _ | .variable _ | .mixin _ _ | .call _ | .fileImport _ | .atStatement _ _ _ =>
    some []

def Rule.writtenFrom (setting : Setting) (scope : Scope) (around : Surroundings) (site : Site) :
    Nat → List Rule → Option (List Cluster)
  | _, [] => some []
  | position, r :: rs => do
    let first ← Rule.written setting scope around (site.child position) r
    let later ← Rule.writtenFrom setting scope around site (position + 1) rs
    pure (first ++ later)

end

/-- The clusters of a sheet, if its values and selectors can be evaluated. -/
def Stylesheet.written (setting : Setting) (sheet : Stylesheet) : Option (List Cluster) := do
  let root := Site.written 0 []
  let own ← Scope.declarations setting [(root, sheet.rules)] sheet.rules
  let others ← Rule.writtenFrom setting [(root, sheet.rules)] {} root 0 sheet.rules
  pure (Surroundings.clusterOf {} own ++ others)

mutual

/-- Whether there are neither calls nor imports in the rule. The bodies of mixins do not matter. -/
def Rule.isPlain : Rule → Bool
  | .ruleset _ rules _ | .media _ rules _ | .atBlock _ _ rules _ => Rule.arePlain rules
  | .declaration _ | .variable _ | .mixin _ _ | .atStatement _ _ _ => true
  | .call _ | .fileImport _ => false

/-- Whether there are neither calls nor imports in the rules. -/
def Rule.arePlain : List Rule → Bool
  | [] => true
  | r :: rs => r.isPlain && Rule.arePlain rs

end

/-! ## Flat trees -/

def Rule.asDeclaration : Rule → Option Declaration
  | .declaration d => some d
  | _ => none

mutual

def Rule.standing (around : Surroundings) : Rule → List Cluster
  | .ruleset selectors rules _ =>
    let inside := { around with selectors }
    inside.clusterOf (rules.filterMap Rule.asDeclaration) ++ Rule.standingAmong inside rules
  | .media features rules _ =>
    let inside := { around with media := some features }
    inside.clusterOf (rules.filterMap Rule.asDeclaration) ++ Rule.standingAmong inside rules
  | .atBlock name prelude rules span =>
    let inside := around.inAtRule name prelude span
    inside.clusterOf (rules.filterMap Rule.asDeclaration) ++ Rule.standingAmong inside rules
  | .declaration _ | .variable _ | .mixin _ _ | .call _ | .fileImport _ | .atStatement _ _ _ => []

def Rule.standingAmong (around : Surroundings) : List Rule → List Cluster
  | [] => []
  | r :: rs => Rule.standing around r ++ Rule.standingAmong around rs

end

/-- The clusters of a flat tree. -/
def Rule.standingIn (rules : List Rule) : List Cluster :=
  Surroundings.clusterOf {} (rules.filterMap Rule.asDeclaration) ++ Rule.standingAmong {} rules

mutual

/-- Whether the rule is flat: rulesets hold nothing but declarations, media blocks hold no media
    blocks, and nothing is left to be resolved. -/
def Rule.isFlat : Rule → Bool
  | .ruleset _ rules _ => rules.all (·.asDeclaration.isSome)
  | .media _ rules _ => rules.all (!Eval.isMedia ·) && Rule.areFlat rules
  | .atBlock _ _ rules _ => Rule.areFlat rules
  | .declaration _ | .fileImport _ | .atStatement _ _ _ => true
  | .variable _ | .mixin _ _ | .call _ => false

def Rule.areFlat : List Rule → Bool
  | [] => true
  | r :: rs => r.isFlat && Rule.areFlat rs

end

end StyleResolution
