import StyleResolution.Selector

/-!
# Combining nested selectors

The effective selectors of a nested ruleset are its own selectors joined with those of the
enclosing ruleset, its ancestors. A selector without `&` is put behind every ancestor. In a
selector with `&`, each `&` is replaced by every ancestor independently, the first `&` varying
slowest. The number of selectors is limited.
-/

namespace StyleResolution.Selector

/-- Why selectors could not be combined. -/
inductive CombineError where
  /-- An enclosing selector has no elements. -/
  | emptyAncestor
  /-- There would be more than `limit` selectors. -/
  | tooMany (limit : Nat)
  deriving Repr, DecidableEq

def CombineError.reason : CombineError → String
  | .emptyAncestor => "enclosing selector is empty"
  | .tooMany limit =>
    "nested selector expands to more than " ++ Nat.repr limit ++ " selectors"

/-- Fails if `count` exceeds the limit. -/
def checkLimit (count limit : Nat) : Except CombineError Unit :=
  if limit < count then .error (.tooMany limit) else .ok ()

/-- The first element attaches as a descendant unless it has a combinator of its own. -/
def asDescendant : List Element → List Element
  | [] => []
  | e :: es =>
    (if e.combinator = .attached then { e with combinator := .descendant } else e) :: es

def behind (ancestor s : Selector) : Selector :=
  ⟨ancestor.elements ++ asDescendant s.elements⟩

/-- The ancestor's elements in the place of a `&` with this combinator. -/
def substitute (combinator : Combinator) (ancestor : Selector) : List Element :=
  match ancestor.elements with
  | [] => []
  | e :: es => { e with combinator } :: es

/-- Extends every partial selector by an element; a `&` multiplies them by the ancestors. -/
def expandElement (ancestors : List Selector) (limit : Nat) (partials : List (List Element))
    (e : Element) : Except CombineError (List (List Element)) :=
  if e.isWildcard then do
    checkLimit (partials.length * ancestors.length) limit
    pure (partials.flatMap fun done =>
      ancestors.map fun ancestor => done ++ substitute e.combinator ancestor)
  else
    pure (partials.map (· ++ [e]))

/-- All ways of replacing the `&` among the elements. -/
def expandElements (ancestors : List Selector) (limit : Nat) :
    List (List Element) → List Element → Except CombineError (List (List Element))
  | partials, [] => .ok partials
  | partials, e :: es => do
    let next ← expandElement ancestors limit partials e
    expandElements ancestors limit next es

/-- All selectors that one nested selector stands for. -/
def expand (ancestors : List Selector) (limit : Nat) (s : Selector) :
    Except CombineError (List Selector) :=
  if s.hasWildcard then do
    let expanded ← expandElements ancestors limit [[]] s.elements
    pure (expanded.map Selector.mk)
  else
    pure (ancestors.map (behind · s))

/-- Appends the expansions of the selectors one after the other, within the limit. -/
def expandAll (ancestors : List Selector) (limit : Nat) :
    List Selector → List Selector → Except CombineError (List Selector)
  | done, [] => .ok done
  | done, s :: rest => do
    let expanded ← expand ancestors limit s
    checkLimit (done.length + expanded.length) limit
    expandAll ancestors limit (done ++ expanded) rest

/-- Joins the selectors of a nested ruleset with its ancestors. At the top, without ancestors,
    they stay as they are. -/
def combine (ancestors current : List Selector) (limit : Nat) :
    Except CombineError (List Selector) :=
  if ancestors.isEmpty then .ok current
  else if ancestors.any (·.elements.isEmpty) then .error .emptyAncestor
  else expandAll ancestors limit [] current

end StyleResolution.Selector
