import StyleResolution.Evaluation.State

/-!
# Looking names up during evaluation

A look-up consults the frames of an environment one after the other. Consulting a frame keeps its
index, and building an index is an event.
-/

namespace StyleResolution.Eval

/-- The index of a frame, which is kept from now on. -/
def consult (id : FrameId) : Eval Index := do
  let f ← frame id
  match f.index with
  | some index => pure index
  | none =>
    let index := f.names
    emit (.indexed index.definitions.length index.callables.length)
    change fun s => { s with frames := s.frames.keepIndex id }
    pure index

def lookupIn (name : String) : List FrameId → Eval (Option Variable)
  | [] => pure none
  | id :: ids => do
    let index ← consult id
    match index.definitionOf name with
    | some v => pure (some v)
    | none => lookupIn name ids

/-- The nearest definition of a name, which has to exist. -/
def lookup (env : Environment) (name : String) : Eval Variable := do
  match ← lookupIn name env.chain with
  | some v => pure v
  | none => failWith (.undefinedVariable name)

/-- The number of rules in scope, which bounds the number of definitions in scope. -/
def scopeSize (env : Environment) : Eval Nat := do
  let frames := (← state).frames
  pure (env.chain.foldr (fun id total => (frames.get id).size + total) 0)

end StyleResolution.Eval
