import StyleResolution.Text.Join

/-!
# Selectors

A selector is a sequence of elements, each with the combinator that attaches it to the element
before. The element `&` stands for the enclosing selector.
-/

namespace StyleResolution

/-- How an element attaches to the element before it. -/
inductive Combinator where
  /-- Nothing in between: `a.b`, `&:hover`. -/
  | attached
  | descendant
  /-- `>` -/
  | child
  /-- `+` -/
  | adjacent
  /-- `~` -/
  | sibling
  deriving Repr, DecidableEq

/-- What an element selects by itself. -/
inductive Simple where
  /-- A type, class, id, pseudo-class, percentage or `*`, as written. -/
  | literal (text : String)
  /-- An attribute test; operator and operand come together. -/
  | attribute (name : String) (op value : Option String)
  /-- `&`, the enclosing selector. -/
  | wildcard
  deriving Repr, DecidableEq

/-- A simple selector with its combinator. -/
structure Element where
  combinator : Combinator
  simple : Simple
  deriving Repr, DecidableEq

/-- Elements from left to right. -/
structure Selector where
  elements : List Element
  deriving Repr, DecidableEq

/-- The simple selector as it is written. -/
def Simple.text : Simple → String
  | .literal t => t
  | .wildcard => "&"
  | .attribute name (some op) (some value) => "[" ++ name ++ op ++ value ++ "]"
  | .attribute name _ _ => "[" ++ name ++ "]"

/-- Whether the simple selector is `&`. -/
def Simple.isWildcard : Simple → Bool
  | .wildcard => true
  | _ => false

/-- Whether the element is `&`. -/
def Element.isWildcard (e : Element) : Bool :=
  e.simple.isWildcard

/-- The combinator in front of a first element. -/
def Combinator.leadingText : Combinator → String
  | .attached | .descendant => ""
  | .child => "> "
  | .adjacent => "+ "
  | .sibling => "~ "

def Combinator.innerText : Combinator → String
  | .attached => ""
  | .descendant => " "
  | .child => " > "
  | .adjacent => " + "
  | .sibling => " ~ "

namespace Selector

/-- The elements after the first one as they are written. -/
def tailText : List Element → String
  | [] => ""
  | e :: es => e.combinator.innerText ++ e.simple.text ++ tailText es

def text (s : Selector) : String :=
  match s.elements with
  | [] => ""
  | e :: es => e.combinator.leadingText ++ e.simple.text ++ tailText es

/-- The number of `&` in the selector. -/
def wildcardCount (s : Selector) : Nat :=
  s.elements.countP Element.isWildcard

/-- Whether the selector holds a `&`. -/
def hasWildcard (s : Selector) : Bool :=
  s.elements.any Element.isWildcard

/-- Whether a text is marked as a class or an id. -/
def isMarked (text : String) : Bool :=
  match text.toList with
  | c :: _ => c == '.' || c == '#'
  | [] => false

/-- The name under which a selector can be called as a mixin: only a single class or id has
    one. -/
def mixinName (s : Selector) : Option String :=
  match s.elements with
  | [⟨_, .literal t⟩] => if isMarked t then some t else none
  | _ => none

def listText (selectors : List Selector) : String :=
  Text.join ", " (selectors.map text)

end Selector

end StyleResolution
