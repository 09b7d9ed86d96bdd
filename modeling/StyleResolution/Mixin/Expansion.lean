import StyleResolution.Evaluation.Guard
import StyleResolution.Evaluation.Output
import StyleResolution.Import.Expansion
import StyleResolution.Mixin.Candidates

/-!
# Expanding mixin calls

A call evaluates its arguments, finds its candidates, binds the arguments to the parameters of
each, and tests their guards. A guard that calls `default()` is tested with both answers: such a
candidate is expanded depending on whether another candidate is.

The body of a candidate is evaluated with the parameters in front of the scope of its definition,
and the caller's environment behind it. The variables and mixins that the body defines are
exported to the caller's frame, where they never override its own.
-/

namespace StyleResolution

/-- How a candidate depends on `default()`. -/
inductive DefaultGroup where
  /-- Not at all. -/
  | plain
  /-- Its guard holds only where `default()` is true. -/
  | whenDefault
  /-- Its guard holds only where `default()` is false. -/
  | unlessDefault
  deriving Repr, DecidableEq

/-- A candidate that takes the arguments and whose guard can hold. -/
structure MatchedCandidate where
  callable : Callable
  /-- The scope of the body: the definition's, the parameters, and the caller's behind it. -/
  scope : Environment
  params : FrameId
  group : DefaultGroup
  deriving Repr

/-- What became of the candidates of a call. -/
structure Selection where
  /-- In document order. -/
  matched : List MatchedCandidate := []
  failures : List Mixin.MatchFailure := []
  deriving Repr

namespace Eval

/-- Evaluates the arguments of a call from left to right. -/
def evaluateArguments (env : Environment) : List Argument → Eval (List Argument) :=
  mapList fun arg => do
    let v ← value env arg.value
    pure { arg with value := v }

/-- Adds a definition at the end of a frame. -/
def define (id : FrameId) (name : String) (v : Value) (span : Span) : Eval Unit := do
  let site ← makeSite
  changeFrame id (·.push ⟨.variable ⟨name, v, span⟩, site⟩)

/-- The value of a bound parameter. A fallback sees the parameters before it, then the scope of the
    definition, then the caller's. -/
def boundValue (params : FrameId) (scope caller : Environment) : Mixin.Bound → Eval Value
  | .supplied v => pure v
  | .fallback v => value ((scope.push params).capture caller) v

def defineParams (params : FrameId) (scope caller : Environment) (span : Span) :
    List (String × Mixin.Bound) → Eval Unit
  | [] => pure ()
  | (name, bound) :: rest => do
    let v ← boundValue params scope caller bound
    define params name v span
    defineParams params scope caller span rest

/-- A frame with the bound parameters and `@arguments`. -/
def parameterFrame (binding : Mixin.Binding) (scope caller : Environment) (span : Span) :
    Eval FrameId := do
  let params ← addFrame Frame.empty
  defineParams params scope caller span binding.bindings
  define params "arguments" (.spaceList binding.arguments) span
  pure params

/-- The group of a candidate, or `none` if its guard cannot hold. -/
def defaultGroup (callable : Callable) (scope : Environment) : Eval (Option DefaultGroup) := do
  match callable.guard with
  | none => pure (some .plain)
  | some guard =>
    if guard.callsDefault then
      let without ← answeringDefault false (guardHolds scope guard)
      let alone ← answeringDefault true (guardHolds scope guard)
      match without, alone with
      | true, true => pure (some .plain)
      | false, true => pure (some .whenDefault)
      | true, false => pure (some .unlessDefault)
      | false, false => pure none
    else if ← guardHolds scope guard then
      pure (some .plain)
    else
      emit (.guardFalse callable.name)
      pure none

/-- Matches one candidate: its failure to take the arguments, or itself if its guard can hold. -/
def matchCandidate (caller : Environment) (args : List Argument) (span : Span)
    (candidate : Candidate) : Eval (Except Mixin.MatchFailure (Option MatchedCandidate)) := do
  match Mixin.bind candidate.callable.params args with
  | .error failure =>
    emit (.rejected candidate.callable.name failure)
    pure (.error failure)
  | .ok binding =>
    let params ← parameterFrame binding candidate.scope caller span
    let scope := (candidate.scope.push params).capture caller
    let group ← defaultGroup candidate.callable scope
    pure (.ok (group.map fun group => ⟨candidate.callable, scope, params, group⟩))

def matchCandidates (caller : Environment) (args : List Argument) (span : Span) :
    List Candidate → Eval Selection
  | [] => pure {}
  | candidate :: rest => do
    let outcome ← matchCandidate caller args span candidate
    let others ← matchCandidates caller args span rest
    match outcome with
    | .error failure => pure { others with failures := failure :: others.failures }
    | .ok none => pure others
    | .ok (some found) => pure { others with matched := found :: others.matched }

/-- The group that is expanded beside the plain candidates. Without plain candidates, more than
    one candidate that depends on `default()` is ambiguous. -/
def chosenGroup (matched : List MatchedCandidate) (call : MixinCall) : Eval DefaultGroup :=
  if matched.any (·.group == .plain) then pure .unlessDefault
  else if 1 < matched.length then
    failWith (.argumentMismatch call.text "ambiguous use of `default()`")
  else pure .whenDefault

/-- The definitions of a body as they are exported: variables with their values, and mixins. -/
def exportsOf (env : Environment) : List Entry → Eval (List Placed)
  | [] => pure []
  | e :: es => do
    match e.rule with
    | .variable d =>
      let v ← dereference env ⟨d, e.site⟩
      let site ← makeSite
      let others ← exportsOf env es
      pure (⟨.variable { d with value := v }, site⟩ :: others)
    | .mixin _ _ =>
      let others ← exportsOf env es
      pure (e.toPlaced :: others)
    | _ => exportsOf env es

/-- Exports the definitions of an expanded body to the caller's frame. -/
def exportTo (caller : Option FrameId) (bodyEnv : Environment) (params body : FrameId) :
    Eval Unit := do
  match caller with
  | none => pure ()
  | some caller =>
    let rules ← exportsOf bodyEnv (← frame body).entries
    let source ← frame body
    changeFrame caller (·.prependExports rules [params, body] source)

/-- Evaluates the body of a callable in a frame of its own, and answers with the frame too. -/
def evaluateBody (evaluate : BlockEvaluator) (ctx : Context) (nesting : Nat)
    (m : MatchedCandidate) : Eval (FrameId × Output) := do
  let body ← addFrame (Frame.ofBlock m.callable.site m.callable.rules nesting)
  let env := m.scope.push body
  expandImports body env false
  let output ← evaluate env ctx
  pure (body, output)

/-- Evaluates the body of a callable that is being expanded, and exports its definitions. -/
def expandBody (evaluate : BlockEvaluator) (ctx : Context) (nesting : Nat)
    (caller : Option FrameId) (m : MatchedCandidate) : Eval Output := do
  let depth := (← state).expanding.count m.callable.site
  let limit := (← setting).options.maxMixinDepth
  if limit < depth then
    failWith (.mixinTooDeep m.callable.name limit)
  else
    beginBody m.callable.site
    emit (.expanding m.callable.name depth)
    let (body, output) ← evaluateBody evaluate ctx nesting m
    exportTo caller (m.scope.push body) m.params body
    pure output

def expandAll (evaluate : BlockEvaluator) (ctx : Context) (nesting : Nat)
    (caller : Option FrameId) : List MatchedCandidate → Eval Output
  | [] => pure {}
  | m :: ms => do
    let first ← whileExpanding m.callable.site (expandBody evaluate ctx nesting caller m)
    let others ← expandAll evaluate ctx nesting caller ms
    pure (first ++ others)

/-- The failure of a call that no candidate matches, or nothing if only guards are in the way. -/
def unmatched (call : MixinCall) (candidates : Nat) (failures : List Mixin.MatchFailure) :
    Eval Output :=
  match failures.find? (·.isArgumentError) with
  | some failure => failWith (.argumentMismatch call.text failure.message)
  | none =>
    if failures.length == candidates then
      failWith (.mixinNotFound call.text)
    else do
      emit (.nothingToExpand call.text)
      pure {}

/-- Resolves a call made from the innermost frame of an environment. -/
def resolveCall (evaluate : BlockEvaluator) (env : Environment) (ctx : Context) (nesting : Nat)
    (call : MixinCall) : Eval Output := do
  let args ← evaluateArguments env call.args
  let candidates ← findCandidates env call.path
  if candidates.isEmpty then
    failWith (.mixinNotFound (Text.join " > " call.path))
  else
    emit (.candidates candidates.length call.text)
    let selection ← matchCandidates env args call.span candidates
    if selection.matched.isEmpty then
      unmatched call candidates.length selection.failures
    else
      let group ← chosenGroup selection.matched call
      let inner := { ctx with important := ctx.important || call.important }
      expandAll evaluate inner nesting env.innermost?
        (selection.matched.filter fun m => m.group == .plain || m.group == group)

/-- Expands a call; bodies are entered at the call's import nesting. -/
def callMixin (evaluate : BlockEvaluator) (env : Environment) (ctx : Context) (nesting : Nat)
    (call : MixinCall) : Eval Output := do
  setSpan call.span
  insideOf (fun _ => call.text) (locatedAt call.span (resolveCall evaluate env ctx nesting call))

end Eval

end StyleResolution
