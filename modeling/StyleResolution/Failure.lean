import StyleResolution.Rule
import StyleResolution.Selector.Combination
import StyleResolution.Text.Quoted

/-!
# Failures and warnings

A failure has a cause, the position and file where it happened, and the trail of rulesets and
mixin calls that were being resolved, innermost first. The innermost position is the one that
counts.
-/

namespace StyleResolution

/-- Why a sheet could not be read or resolved. -/
inductive Cause where
  | undefinedVariable (name : String)
  /-- The value of a variable refers back to itself. -/
  | circularReference (name : String)
  | mixinNotFound (name : String)
  /-- There are mixins of that name, but none takes the arguments. -/
  | argumentMismatch (call reason : String)
  | mixinTooDeep (name : String) (limit : Nat)
  | selectorCombination (error : Selector.CombineError)
  | fileNotFound (path : String) (searched : List Path)
  | importTooDeep (path : String) (limit : Nat)
  | invalidSyntax (reason : String)
  | inputOutput (reason : String)
  /-- A warning where warnings are errors. -/
  | warning (message : String)
  /-- The bound on the number of evaluation steps was too small. -/
  | exhausted
  deriving Repr, DecidableEq

def Cause.message : Cause → String
  | .undefinedVariable name => "variable @" ++ name ++ " is undefined"
  | .circularReference name => "recursive variable definition for @" ++ name
  | .mixinNotFound name => name ++ " is undefined"
  | .argumentMismatch call reason =>
    "no matching definition was found for `" ++ call ++ "`: " ++ reason
  | .mixinTooDeep name limit =>
    "mixin " ++ name ++ " exceeded the recursion limit of " ++ Nat.repr limit
  | .selectorCombination error => "cannot combine selectors: " ++ error.reason
  | .fileNotFound path searched =>
    "file '" ++ path ++ "' wasn't found, tried " ++ Text.quotedList (searched.map Path.text)
  | .importTooDeep path limit =>
    "import of '" ++ path ++ "' exceeded the import depth limit of " ++ Nat.repr limit
  | .invalidSyntax reason => "CSS syntax error: " ++ reason
  | .inputOutput reason => "I/O error: " ++ reason
  | .warning message => message
  | .exhausted => "evaluation ran out of steps"

/-- A cause with its circumstances. -/
structure Failure where
  cause : Cause
  span : Option Span := none
  file : Option Path := none
  /-- The enclosing rulesets and mixin calls, innermost first. -/
  trail : List String := []
  deriving Repr, DecidableEq

namespace Failure

/-- Records a position unless a more precise one is known. -/
def located (f : Failure) (span : Span) : Failure :=
  { f with span := f.span.or (some span) }

/-- Records a file unless one is known. -/
def inFile (f : Failure) (file : Path) : Failure :=
  { f with file := f.file.or (some file) }

/-- Adds an enclosing rule or call to the trail. -/
def inside (f : Failure) (frame : String) : Failure :=
  { f with trail := f.trail ++ [frame] }

def isUndefinedVariable (f : Failure) : Bool :=
  match f.cause with
  | .undefinedVariable _ => true
  | _ => false

end Failure

/-- A remark that does not end the compilation. -/
structure Warning where
  message : String
  span : Span
  deriving Repr, DecidableEq

end StyleResolution
