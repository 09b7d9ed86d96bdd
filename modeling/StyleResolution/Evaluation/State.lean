import StyleResolution.Event
import StyleResolution.Import.Importer
import StyleResolution.Options

/-!
# The state of an evaluation

Evaluation is a computation on a state that survives failures: frames, the importer, warnings and
the log stay as they are when a computation fails. Part of the state is scoped: it is changed for
the time of an inner computation and set back on every exit, by `Eval.between`.
-/

namespace StyleResolution

/-- Functions that can be called in values; `none` leaves the call in the output. -/
abbrev FunctionLibrary := String → List Value → Option Value

def FunctionLibrary.none : FunctionLibrary :=
  fun _ _ => Option.none

/-- What stays fixed during a compilation. -/
structure Setting where
  options : Options := {}
  loader : Sources := ({} : Loader)
  functions : FunctionLibrary := FunctionLibrary.none

/-- The beginning of an evaluation that could come back to itself. -/
inductive Beginning where
  /-- Of a definition, with the definitions that are being evaluated from then on. -/
  | definition (site : Site) (evaluating : List Site)
  /-- Of the body of a callable, with the callables that are being expanded. -/
  | body (site : Site) (expanding : List Site)
  deriving Repr, DecidableEq

/-- An import that was to be opened: the text of its path, the importer before and after, and what
    became of it. -/
structure Opening where
  node : Import
  path : String
  before : Importer
  outcome : Except Failure Opened
  after : Importer
  deriving Repr

/-- A call that was to be expanded, with the frames as they were. -/
structure Calling where
  /-- Which rule the call is. -/
  site : Site
  call : MixinCall
  env : Environment
  frames : Frames
  deriving Repr

/-- What was done so far, newest first. -/
structure Trace where
  openings : List Opening := []
  callings : List Calling := []
  deriving Repr

/-- What changes during a compilation. -/
structure Evaluation where
  frames : Frames := {}
  importer : Importer := {}
  /-- Oldest first. -/
  warnings : Array Warning := #[]
  /-- Oldest first. -/
  events : Array Event := #[]
  /-- The number of parentheses around the expression being evaluated. -/
  parenDepth : Nat := 0
  /-- What `default()` answers while a guard is evaluated. -/
  defaultAnswer : Option Bool := none
  /-- The definitions being evaluated, innermost first. -/
  evaluating : List Site := []
  /-- The callables being expanded, innermost first. -/
  expanding : List Site := []
  /-- The position that warnings are given. -/
  span : Span := Span.none
  /-- The number of definitions made so far. -/
  made : Nat := 0
  /-- What was begun so far, newest first. Nothing depends on it. -/
  history : List Beginning := []
  /-- The imports and calls so far. Nothing depends on it. -/
  trace : Trace := {}
  deriving Repr

def Evaluation.note (s : Evaluation) (o : Opening) : Evaluation :=
  { s with trace := { s.trace with openings := o :: s.trace.openings } }

@[simp] theorem Evaluation.note_frames (s : Evaluation) (o : Opening) :
    (s.note o).frames = s.frames := rfl

@[simp] theorem Evaluation.note_importer (s : Evaluation) (o : Opening) :
    (s.note o).importer = s.importer := rfl

/-- A computation that may fail and keeps its state when it does. -/
def Eval (α : Type) : Type :=
  Setting → Evaluation → Except Failure α × Evaluation

namespace Eval

variable {α β : Type}

instance : Monad Eval where
  pure a := fun _ s => (.ok a, s)
  bind x f := fun setting s =>
    match x setting s with
    | (.ok a, s') => f a setting s'
    | (.error e, s') => (.error e, s')

@[simp] theorem pure_apply (a : α) (setting : Setting) (s : Evaluation) :
    (pure a : Eval α) setting s = (.ok a, s) := rfl

theorem bind_apply (x : Eval α) (f : α → Eval β) (setting : Setting) (s : Evaluation) :
    (x >>= f) setting s = match x setting s with
      | (.ok a, s') => f a setting s'
      | (.error e, s') => (.error e, s') := rfl

def run (x : Eval α) (setting : Setting) (s : Evaluation) : Except Failure α × Evaluation :=
  x setting s

def state : Eval Evaluation :=
  fun _ s => (.ok s, s)

def setting : Eval Setting :=
  fun setting s => (.ok setting, s)

def change (f : Evaluation → Evaluation) : Eval Unit :=
  fun _ s => (.ok (), f s)

def fail (f : Failure) : Eval α :=
  fun _ s => (.error f, s)

def failWith (cause : Cause) : Eval α :=
  fail { cause }

/-- The result of a computation that cannot fail by itself, or its failure. -/
def ofExcept : Except Failure α → Eval α
  | .ok a => pure a
  | .error f => fail f

/-- The outcome of a computation, whether it fails or not. -/
def attempt (x : Eval α) : Eval (Except Failure α) := fun setting s =>
  match x setting s with
  | (outcome, s') => (.ok outcome, s')

/-- Changes the failure of a computation. -/
def mapFailure (f : Failure → Failure) (x : Eval α) : Eval α := fun setting s =>
  match x setting s with
  | (.ok a, s') => (.ok a, s')
  | (.error e, s') => (.error (f e), s')

/-- Locates the failures of a computation at a position, unless they are located already. -/
def locatedAt (span : Span) (x : Eval α) : Eval α :=
  mapFailure (·.located span) x

/-- Adds an enclosing rule or call to the failures of a computation. -/
def insideOf (frame : Unit → String) (x : Eval α) : Eval α :=
  mapFailure (fun f => f.inside (frame ())) x

/-- Runs a computation between two changes of the state; the second one is made whether the
    computation fails or not. -/
def between (enter leave : Evaluation → Evaluation) (x : Eval α) : Eval α := fun setting s =>
  match x setting (enter s) with
  | (outcome, s') => (outcome, leave s')

def emit (e : Event) : Eval Unit :=
  change fun s => { s with events := s.events.push e }

def warn (message : String) : Eval Unit := do
  let span := (← state).span
  if (← setting).options.warningsAsErrors then
    fail { cause := .warning message, span := some span }
  else
    emit (.warned ⟨message, span⟩)
    change fun s => { s with warnings := s.warnings.push ⟨message, span⟩ }

/-- Sets the position that warnings are given. -/
def setSpan (span : Span) : Eval Unit :=
  change fun s => { s with span }

/-- Runs a computation inside one more pair of parentheses. -/
def inParens (x : Eval α) : Eval α :=
  between (fun s => { s with parenDepth := s.parenDepth + 1 })
    (fun s => { s with parenDepth := s.parenDepth - 1 }) x

/-- Runs a computation outside all parentheses. -/
def outsideParens (x : Eval α) : Eval α := do
  let depth := (← state).parenDepth
  between (fun s => { s with parenDepth := 0 }) (fun s => { s with parenDepth := depth }) x

/-- Runs a computation with an answer for `default()`. -/
def answeringDefault (answer : Bool) (x : Eval α) : Eval α := do
  let saved := (← state).defaultAnswer
  between (fun s => { s with defaultAnswer := some answer })
    (fun s => { s with defaultAnswer := saved }) x

/-- Runs a computation while a definition is being evaluated. -/
def whileEvaluating (site : Site) (x : Eval α) : Eval α :=
  between
    (fun s =>
      { s with
        evaluating := site :: s.evaluating
        history := .definition site (site :: s.evaluating) :: s.history })
    (fun s => { s with evaluating := s.evaluating.tail }) x

/-- Runs a computation while a callable is being expanded. -/
def whileExpanding (site : Site) (x : Eval α) : Eval α :=
  between (fun s => { s with expanding := site :: s.expanding })
    (fun s => { s with expanding := s.expanding.tail }) x

/-- Notes that the body of a callable is evaluated from now on. -/
def beginBody (site : Site) : Eval Unit :=
  change fun s => { s with history := .body site s.expanding :: s.history }

/-- Notes that a call is expanded from now on. -/
def noteCalling (site : Site) (call : MixinCall) (env : Environment) : Eval Unit :=
  change fun s =>
    { s with trace := { s.trace with callings := ⟨site, call, env, s.frames⟩ :: s.trace.callings } }

def noteOpening (node : Import) (path : String) (x : Eval Opened) : Eval Opened := fun setting s =>
  match x setting s with
  | (outcome, s') => (outcome, s'.note ⟨node, path, s.importer, outcome, s'.importer⟩)

/-- Runs a computation for a block found at an import nesting. -/
def atBaseDepth (depth : Nat) (x : Eval α) : Eval α := do
  let outer := (← state).importer.baseDepth
  between (fun s => { s with importer := { s.importer with baseDepth := depth } })
    (fun s => { s with importer := { s.importer with baseDepth := outer } }) x

/-- Runs a computation while one more import is open. -/
def whileImporting (x : Eval α) : Eval α :=
  between
    (fun s => { s with importer := { s.importer with openImports := s.importer.openImports + 1 } })
    (fun s => { s with importer := { s.importer with openImports := s.importer.openImports - 1 } })
    x

def frame (id : FrameId) : Eval Frame := do
  pure ((← state).frames.get id)

def changeFrame (id : FrameId) (f : Frame → Frame) : Eval Unit :=
  change fun s => { s with frames := s.frames.modify id f }

def addFrame (f : Frame) : Eval FrameId := fun _ s =>
  let (id, frames) := s.frames.add f
  (.ok id, { s with frames })

def changeImporter (f : Importer → Importer) : Eval Unit :=
  change fun s => { s with importer := f s.importer }

/-- A new identity for a definition made during evaluation. -/
def makeSite : Eval Site := fun _ s =>
  (.ok (.made s.made), { s with made := s.made + 1 })

/-- Applies a computation to the items of a list in order. -/
def mapList (f : α → Eval β) : List α → Eval (List β)
  | [] => pure []
  | a :: as => do
    let b ← f a
    let bs ← mapList f as
    pure (b :: bs)

end Eval

end StyleResolution
