import StyleResolution.Evaluation.Lookup

/-!
# Finding what a call means

A call means the callables that answer to its path in the nearest frame that has any. A path of
several names leads through namespaces. The body of a callable is evaluated in the scope of the
frame it was found in, inside the frames in between: the closure of an exported mixin and the
blocks of the namespaces.
-/

namespace StyleResolution

/-- A callable that a call may mean, with the frames between the searched frame and its body,
    outermost first. -/
structure Reached where
  callable : Callable
  between : List FrameId
  deriving Repr

/-- A callable with the scope of its body. -/
structure Candidate where
  callable : Callable
  scope : Environment
  deriving Repr

namespace Eval

def closureIn (f : Frame) : Callable → List FrameId
  | .mixin site _ _ => (f.closureOf site).getD []
  | .ruleset _ _ _ => []

def searchNamespaces (search : FrameId → Eval (List Reached)) (f : Frame) :
    List Callable → Eval (List Reached)
  | [] => pure []
  | c :: cs => do
    let inner ← addFrame (Frame.ofBlock c.site c.rules 0)
    let found ← search inner
    let others ← searchNamespaces search f cs
    pure (found.map (fun r => ⟨r.callable, closureIn f c ++ inner :: r.between⟩) ++ others)

/-- The callables that a path leads to from a frame. -/
def searchFrame : List String → FrameId → Eval (List Reached)
  | [], _ => pure []
  | [name], id => do
    let index ← consult id
    let f ← frame id
    pure ((index.callablesNamed name).map fun c => ⟨c, closureIn f c⟩)
  | name :: next :: rest, id => do
    let index ← consult id
    let f ← frame id
    searchNamespaces (searchFrame (next :: rest)) f
      ((index.callablesNamed name).filter Callable.isNamespace)

def searchStack (path : List String) (captured : List (List FrameId)) :
    List FrameId → Eval (List Candidate)
  | [] => pure []
  | id :: outer => do
    let found ← searchFrame path id
    if found.isEmpty then
      searchStack path captured outer
    else
      let scope : Environment := ⟨id :: outer, captured⟩
      pure (found.map fun r => ⟨r.callable, scope.pushAll r.between⟩)

def searchStacks (path : List String) : List (List FrameId) → Eval (List Candidate)
  | [] => pure []
  | stack :: captured => do
    let found ← searchStack path captured stack
    if found.isEmpty then searchStacks path captured else pure found

/-- The callables that a path means in an environment. -/
def findCandidates (env : Environment) (path : List String) : Eval (List Candidate) :=
  searchStacks path env.allStacks

end Eval

end StyleResolution
