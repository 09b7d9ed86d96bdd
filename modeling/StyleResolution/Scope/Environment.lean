import StyleResolution.Scope.Frame

/-!
# Environments

All frames of a compilation live in one store and are referred to by number, so that a change of a
frame is seen wherever the frame is in scope. An environment is a stack of frames, innermost
first, followed by the stacks of the environments it was captured in, which are consulted once its
own frames are exhausted.
-/

namespace StyleResolution

/-- The store of frames. -/
structure Frames where
  frames : Array Frame := #[]
  deriving Repr

namespace Frames

def get (store : Frames) (id : FrameId) : Frame :=
  store.frames[id]?.getD Frame.empty

def modify (store : Frames) (id : FrameId) (change : Frame → Frame) : Frames :=
  ⟨store.frames.modify id change⟩

/-- Adds a frame and answers with its number. -/
def add (store : Frames) (frame : Frame) : FrameId × Frames :=
  (store.frames.size, ⟨store.frames.push frame⟩)

def keepIndex (store : Frames) (id : FrameId) : Frames :=
  store.modify id Frame.indexed

def variableIn (store : Frames) (name : String) : List FrameId → Option Variable
  | [] => none
  | id :: ids =>
    match (store.get id).names.definitionOf name with
    | some v => some v
    | none => store.variableIn name ids

end Frames

/-- The frames in scope. -/
structure Environment where
  /-- Innermost first. -/
  frames : List FrameId := []
  /-- The frames of the captured environment, then those of the environment it captured, and so
      on. -/
  captured : List (List FrameId) := []
  deriving Repr, DecidableEq

namespace Environment

/-- The environment with a frame as the innermost scope. -/
def push (env : Environment) (id : FrameId) : Environment :=
  { env with frames := id :: env.frames }

def pushAll (env : Environment) (ids : List FrameId) : Environment :=
  { env with frames := ids.reverse ++ env.frames }

/-- All stacks, one's own first. -/
def allStacks (env : Environment) : List (List FrameId) :=
  env.frames :: env.captured

/-- The environment with another one captured in place of its own. -/
def capture (env captured : Environment) : Environment :=
  { env with captured := captured.allStacks }

def captured? (env : Environment) : Option Environment :=
  match env.captured with
  | [] => none
  | frames :: captured => some ⟨frames, captured⟩

def innermost? (env : Environment) : Option FrameId :=
  env.frames.head?

/-- The scope of the frame at a depth, counted from the outermost frame. -/
def scopeOf (env : Environment) (depth : Nat) : Environment :=
  { env with frames := env.frames.drop (env.frames.length - (depth + 1)) }

/-- All frames in the order in which names are looked up. -/
def chain (env : Environment) : List FrameId :=
  env.allStacks.flatten

/-- The nearest definition of a name. -/
def resolve (env : Environment) (store : Frames) (name : String) : Option Variable :=
  store.variableIn name env.chain

end Environment

end StyleResolution
