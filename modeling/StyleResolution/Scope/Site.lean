import StyleResolution.Rule

/-!
# The identity of rules

Two rules may look alike and still be different rules, and one rule may stand in several frames.
A site tells rules apart: it is the file and the position of the rule in that file's tree, or a
serial number for a definition that came into being during evaluation.
-/

namespace StyleResolution

/-- Which rule it is. -/
inductive Site where
  /-- A rule of a file. The path gives its position in its block, then the position of the
      enclosing rule in its block, and so on; it is empty for the file as a whole. -/
  | written (file : Nat) (path : List Nat)
  /-- A definition made during evaluation. -/
  | made (serial : Nat)
  deriving Repr, DecidableEq

/-- The site of a rule in the block of the rule at this site. -/
def Site.child : Site → Nat → Site
  | .written file path, position => .written file (position :: path)
  | .made serial, _ => .made serial

/-- A rule together with its identity. -/
structure Placed where
  rule : Rule
  site : Site
  deriving Repr

def Placed.ofBlock (site : Site) (rules : List Rule) : List Placed :=
  rules.mapIdx fun position rule => ⟨rule, site.child position⟩

/-- A variable definition together with its identity. -/
structure Variable where
  definition : Definition
  site : Site
  deriving Repr

/-- Something that a mixin call can expand: a mixin, or a ruleset with a class or id as one of its
    selectors. -/
inductive Callable where
  | mixin (site : Site) (head : MixinHead) (rules : List Rule)
  | ruleset (site : Site) (selectors : List Selector) (rules : List Rule)
  deriving Repr

namespace Callable

def site : Callable → Site
  | .mixin site _ _ | .ruleset site _ _ => site

def rules : Callable → List Rule
  | .mixin _ _ rules | .ruleset _ _ rules => rules

/-- Whether a call by this name means the callable. -/
def answersTo (c : Callable) (name : String) : Bool :=
  match c with
  | .mixin _ head _ => head.name == name
  | .ruleset _ selectors _ => selectors.any (·.mixinName == some name)

def params : Callable → List Param
  | .mixin _ head _ => head.params
  | .ruleset _ _ _ => []

def guard : Callable → Option Guard
  | .mixin _ head _ => head.guard
  | .ruleset _ _ _ => none

def name : Callable → String
  | .mixin _ head _ => head.name
  | .ruleset _ selectors _ => Selector.listText selectors

/-- Whether a path may lead through the callable: a ruleset, or a mixin without parameters. -/
def isNamespace : Callable → Bool
  | .mixin _ head _ => head.params.isEmpty
  | .ruleset _ _ _ => true

end Callable

namespace Placed

/-- The variable that the rule defines, if it defines one. -/
def asVariable (p : Placed) : Option Variable :=
  match p.rule with
  | .variable d => some ⟨d, p.site⟩
  | _ => none

def asCallable (p : Placed) : Option Callable :=
  match p.rule with
  | .mixin head rules => some (.mixin p.site head rules)
  | .ruleset selectors rules _ =>
    if selectors.any (·.mixinName.isSome) then some (.ruleset p.site selectors rules) else none
  | _ => none

end Placed

end StyleResolution
