import StyleResolution.Failure
import StyleResolution.Mixin.Binding
import StyleResolution.Rule.Text

/-!
# The log of a compilation

Every noteworthy step of a compilation is an event. An event has a level, the part of the engine
it comes from, and a message; the log shows one line per event.
-/

namespace StyleResolution

/-- How noteworthy an event is, most noteworthy first. -/
inductive Level where
  | warn
  | debug
  | trace
  deriving Repr, DecidableEq

/-- The level as the log shows it. -/
def Level.text : Level → String
  | .warn => "WARN"
  | .debug => "DEBUG"
  | .trace => "TRACE"

/-- The level as a number that grows with detail. -/
def Level.detail : Level → Nat
  | .warn => 0
  | .debug => 1
  | .trace => 2

/-- A step of a compilation. -/
inductive Event where
  | compiled (rules warnings : Nat)
  /-- The index of a frame was built. -/
  | indexed (definitions callables : Nat)
  | combined (ancestors selectors results : Nat)
  /-- Callables were found for a call, which is given as it is written. -/
  | candidates (count : Nat) (call : String)
  /-- A callable does not take the arguments of a call. -/
  | rejected (name : String) (failure : Mixin.MatchFailure)
  | guardFalse (name : String)
  /-- No guard holds, so a call expands to nothing. -/
  | nothingToExpand (call : String)
  | expanding (name : String) (depth : Nat)
  | warned (warning : Warning)
  /-- A function is not known and its call stays. -/
  | unknownFunction (name : String)
  | deferring (path : Value)
  | importing (path : CanonicalPath) (depth : Nat)
  | replaying (count : Nat)
  /-- The rule at a queued location is not an import any more. -/
  | importGone (location : Nat)
  | stillBlocked (path : Value) (cause : Cause)
  | mainNotNormalized (path : Path) (message : String)
  | optionalNotFound (path : String)
  | alreadyImported (path : CanonicalPath)
  | cacheHit (path : CanonicalPath)
  | cacheMiss (path : CanonicalPath)
  deriving Repr

namespace Event

def level : Event → Level
  | .warned _ => .warn
  | .indexed _ _ | .combined _ _ _ | .rejected _ _ | .guardFalse _ | .unknownFunction _ => .trace
  | _ => .debug

/-- The part of the engine that the event comes from, as the log names it. -/
def origin : Event → String
  | .compiled _ _ => "lcss"
  | .indexed _ _ => "lcss::env"
  | .combined _ _ _ => "lcss::combinator"
  | .candidates _ _ | .rejected _ _ | .guardFalse _ | .nothingToExpand _ | .expanding _ _ =>
    "lcss::mixin::resolver"
  | .warned _ => "lcss::eval"
  | .unknownFunction _ => "lcss::eval::value"
  | .deferring _ | .importing _ _ | .replaying _ | .importGone _ | .stillBlocked _ _ =>
    "lcss::eval::imports"
  | .mainNotNormalized _ _ | .optionalNotFound _ | .alreadyImported _ | .cacheHit _
  | .cacheMiss _ => "lcss::import"

def message : Event → String
  | .compiled rules warnings =>
    "compiled " ++ Nat.repr rules ++ " top-level rule(s) with " ++ Nat.repr warnings ++
      " warning(s)"
  | .indexed definitions callables =>
    "rebuilt frame index: " ++ Nat.repr definitions ++ " variables, " ++ Nat.repr callables ++
      " callables"
  | .combined ancestors selectors results =>
    "combined " ++ Nat.repr ancestors ++ " ancestor(s) with " ++ Nat.repr selectors ++
      " selector(s) into " ++ Nat.repr results
  | .candidates count call => Nat.repr count ++ " candidate(s) for " ++ call
  | .rejected name failure => name ++ " rejected: " ++ failure.message
  | .guardFalse name => name ++ " guard is false"
  | .nothingToExpand call =>
    "every guard for " ++ call ++ " is false, nothing to expand"
  | .expanding name depth => "expanding " ++ name ++ " (depth " ++ Nat.repr depth ++ ")"
  | .warned warning => warning.message ++ " (at " ++ warning.span.text ++ ")"
  | .unknownFunction name => "passing through unknown function " ++ name ++ "()"
  | .deferring path => "deferring interpolated import `" ++ path.text ++ "`"
  | .importing path depth => "importing " ++ path.text ++ " at depth " ++ Nat.repr depth
  | .replaying count => "replaying " ++ Nat.repr count ++ " deferred import(s)"
  | .importGone location => "no import left at " ++ Nat.repr location ++ ", dropping"
  | .stillBlocked path cause =>
    "deferred import `" ++ path.text ++ "` still blocked: " ++ cause.message
  | .mainNotNormalized path message =>
    "main stylesheet " ++ path.text ++ " not normalized: " ++ message
  | .optionalNotFound path => "optional import '" ++ path ++ "' not found, skipping"
  | .alreadyImported path => path.text ++ " already imported, skipping"
  | .cacheHit path => "import cache hit: " ++ path.text
  | .cacheMiss path => "import cache miss: " ++ path.text

/-- The event as the log shows it. -/
def line (e : Event) : String :=
  "[" ++ e.level.text ++ "] " ++ e.origin ++ ": " ++ e.message

/-- The stretches of a text between newlines. -/
def splitLines : List Char → List (List Char)
  | [] => [[]]
  | c :: rest =>
    if c == '\n' then [] :: splitLines rest
    else
      match splitLines rest with
      | [] => [[c]]
      | part :: parts => (c :: part) :: parts

/-- The line without a carriage return at its end, which belongs to the end of the line. -/
def withoutReturn (line : List Char) : List Char :=
  if line.getLast? == some '\r' then line.dropLast else line

/-- The lines of the log at a level. A message with newlines makes several lines. -/
def logLines (level : Level) (events : List Event) : List String :=
  (events.filter fun e => e.level.detail ≤ level.detail).flatMap fun e =>
    (splitLines e.line.toList).map fun line => String.ofList (withoutReturn line)

end Event

end StyleResolution
