import StyleResolution.Mixin.Expansion

/-!
# Evaluating blocks

The mixin calls of a block are expanded first, so that the definitions they export are visible to
the whole block. Then its rules are evaluated in order, each call's expansion standing in the place
of the call: declarations are collected for the enclosing ruleset, nested rulesets are combined
with the enclosing selectors, media blocks move out of rulesets and of other media blocks, and
other at-rules start a context of their own.

`blockWith` evaluates a block given the evaluator of inner blocks, and `blockWithin n` closes the
circle for blocks and expansions nested less than `n` deep.
-/

namespace StyleResolution.Eval

def enterBlock (env : Environment) (site : Site) (rules : List Rule) (nesting : Nat) :
    Eval Environment := do
  let id ← addFrame (Frame.ofBlock site rules nesting)
  let inner := env.push id
  expandImports id inner false
  pure inner

def expandCalls (evaluate : BlockEvaluator) (env : Environment) (ctx : Context) :
    List Entry → Eval (List Output)
  | [] => pure []
  | e :: es => do
    match e.rule with
    | .call c =>
      noteCalling e.site c env
      let expanded ← callMixin evaluate env ctx e.nesting c
      let others ← expandCalls evaluate env ctx es
      pure (expanded :: others)
    | _ => expandCalls evaluate env ctx es

/-- The effective selectors of a nested ruleset. -/
def effectiveSelectors (ancestors selectors : List Selector) (span : Span) :
    Eval (List Selector) := do
  let limit := (← setting).options.maxSelectorExpansions
  match Selector.combine ancestors selectors limit with
  | .error error => fail { cause := .selectorCombination error, span := some span }
  | .ok combined =>
    if ancestors.isEmpty then
      pure combined
    else
      emit (.combined ancestors.length selectors.length combined.length)
      pure combined

def rulesetOf (selectors : List Selector) (o : Output) (span : Span) : List Rule :=
  if o.declarations.isEmpty then [] else [.ruleset selectors o.declarationRules span]

def evaluateRuleset (evaluate : BlockEvaluator) (env : Environment) (ctx : Context) (e : Entry)
    (selectors : List Selector) (rules : List Rule) (span : Span) : Eval Output := do
  let effective ← effectiveSelectors ctx.selectors selectors span
  let label := fun (_ : Unit) => Selector.listText selectors
  let inner ← insideOf label (enterBlock env e.site rules e.nesting)
  let body ← insideOf label (evaluate inner { ctx with selectors := effective })
  pure (.ofRules (rulesetOf effective body span ++ body.rules))

/-- Whether the rule is a media block. -/
def isMedia : Rule → Bool
  | .media _ _ _ => true
  | _ => false

/-- The features of a media block inside others. -/
def joinFeatures (outer : Option Value) (features : Value) : Value :=
  match outer with
  | some outer => .spaceList [outer, .keyword "and", features]
  | none => features

/-- The rules that stay in a media block: its declarations, in the enclosing selectors if there are
    any, and its rules other than media blocks. -/
def mediaBody (selectors : List Selector) (body : Output) (span : Span) : List Rule :=
  (if selectors.isEmpty then body.declarationRules else rulesetOf selectors body span) ++
    body.rules.filter (!isMedia ·)

/-- A media block. The media blocks inside it follow it. -/
def evaluateMedia (evaluate : BlockEvaluator) (env : Environment) (ctx : Context) (e : Entry)
    (features : Value) (rules : List Rule) (span : Span) : Eval Output := do
  let own ← locatedAt span (value env features)
  let joined := joinFeatures ctx.media own
  let inner ← enterBlock env e.site rules e.nesting
  let body ← evaluate inner { ctx with media := some joined }
  let kept := mediaBody ctx.selectors body span
  let media := if kept.isEmpty then [] else [Rule.media joined kept span]
  pure (.ofRules (media ++ body.rules.filter isMedia))

def evaluatePrelude (env : Environment) (span : Span) : Option Value → Eval (Option Value)
  | none => pure none
  | some v => do
    let v ← locatedAt span (value env v)
    pure (some v)

def evaluateAtBlock (evaluate : BlockEvaluator) (env : Environment) (ctx : Context) (e : Entry)
    (name : String) (prelude : Option Value) (rules : List Rule) (span : Span) : Eval Output := do
  let prelude ← evaluatePrelude env span prelude
  let inner ← enterBlock env e.site rules e.nesting
  let body ← insideOf (fun _ => "@" ++ name) (evaluate inner { important := ctx.important })
  pure (.ofRules [.atBlock name prelude (body.declarationRules ++ body.rules) span])

def evaluateDeclaration (env : Environment) (ctx : Context) (d : Declaration) : Eval Output := do
  setSpan d.span
  let v ← locatedAt d.span (value env d.value)
  pure { declarations := [{ d with value := v, important := d.important || ctx.important }] }

/-- A variable definition, which contributes nothing but has to have a value. -/
def evaluateDefinition (env : Environment) (v : Variable) : Eval Output := do
  setSpan v.definition.span
  let _ ← locatedAt v.definition.span (dereference env v)
  pure {}

def evaluateImport (env : Environment) (i : Import) : Eval Output := do
  let path ← locatedAt i.span (value env i.path)
  let media ← evaluatePrelude env i.span i.media
  pure (.ofRules [.fileImport { i with path, media }])

def evaluateRule (evaluate : BlockEvaluator) (env : Environment) (ctx : Context) (e : Entry) :
    Eval Output :=
  match e.rule with
  | .declaration d => evaluateDeclaration env ctx d
  | .variable d => evaluateDefinition env ⟨d, e.site⟩
  | .ruleset selectors rules span => evaluateRuleset evaluate env ctx e selectors rules span
  | .mixin _ _ => pure {}
  | .call _ => pure {}
  | .fileImport i => evaluateImport env i
  | .media features rules span => evaluateMedia evaluate env ctx e features rules span
  | .atStatement name prelude span => do
    let prelude ← evaluatePrelude env span prelude
    pure (.ofRules [.atStatement name prelude span])
  | .atBlock name prelude rules span => evaluateAtBlock evaluate env ctx e name prelude rules span

/-- Evaluates the rules in order, with the expansions of the calls among them. -/
def evaluateEntries (evaluate : BlockEvaluator) (env : Environment) (ctx : Context) :
    List Entry → List Output → Eval Output
  | [], _ => pure {}
  | e :: es, expansions => do
    match e.rule, expansions with
    | .call _, expanded :: later =>
      let others ← evaluateEntries evaluate env ctx es later
      pure (expanded ++ others)
    | _, _ =>
      let own ← evaluateRule evaluate env ctx e
      let others ← evaluateEntries evaluate env ctx es expansions
      pure (own ++ others)

/-- Evaluates the innermost frame of an environment, where `evaluate` evaluates inner blocks. -/
def blockWith (evaluate : BlockEvaluator) : BlockEvaluator := fun env ctx => do
  match env.innermost? with
  | none => pure {}
  | some id =>
    let expansions ← expandCalls evaluate env ctx (← frame id).entries
    evaluateEntries evaluate env ctx (← frame id).entries expansions

/-- Evaluates the innermost frame of an environment, with blocks nested less than `n` deep. -/
def blockWithin : Nat → BlockEvaluator
  | 0 => fun _ _ => failWith .exhausted
  | n + 1 => fun env ctx => blockWith (blockWithin n) env ctx

end StyleResolution.Eval
