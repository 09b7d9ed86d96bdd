import StyleResolution.Evaluation.Block
import StyleResolution.Proofs.Sheet.Origin

/-! # Relations that computations inherit from their parts

Evaluation is put together from few kinds of steps. A relation between computations that holds
between the single steps, and between computations that are put together in the same way from
related ones, holds between whole evaluations. The structures below say what has to be known of the
steps, for looking names up, for values, for imports, for calls and for blocks. A property of
computations counts as the relation that says it of the first one.
-/

namespace StyleResolution

/-- The setting with its limits, and what it does with warnings, left at the defaults. -/
def Setting.bare (setting : Setting) : Setting :=
  { setting with
    options :=
      { strictMath := setting.options.strictMath
        includePaths := setting.options.includePaths
        importOnce := setting.options.importOnce } }

/-- The state without its log. -/
def Evaluation.unlogged (s : Evaluation) : Evaluation :=
  { s with events := #[] }

namespace Eval

def OfOpening : Cause → Prop
  | .fileNotFound _ _ | .importTooDeep _ _ | .invalidSyntax _ | .inputOutput _ => True
  | _ => False

/-- A relation between computations. -/
abbrev Relation :=
  ∀ ⦃α : Type⦄, Eval α → Eval α → Prop

/-- The computation is related to itself. -/
abbrev Relation.Self (P : Relation) {α : Type} (x : Eval α) : Prop :=
  P x x

/-- Results, sequences and choices inherit the relation. A choice may depend on the state apart from
    the log, and on the setting apart from limits and warnings. -/
structure Composes (P : Relation) : Prop where
  pure : ∀ {α : Type} (a : α), P.Self (Pure.pure a)
  bind : ∀ {α β : Type} {x y : Eval β} {f g : β → Eval α},
    P x y → (∀ b, P (f b) (g b)) → P (x >>= f) (y >>= g)
  ofState : ∀ {α : Type} {f g : Evaluation → Eval α}, (∀ s, f s = f s.unlogged) →
    (∀ s, g s = g s.unlogged) → (∀ s, P (f s) (g s)) → P (state >>= f) (state >>= g)
  ofSetting : ∀ {α : Type} {f g : Setting → Eval α}, (∀ setting, f setting = f setting.bare) →
    (∀ setting, g setting = g setting.bare) → (∀ setting, P (f setting) (g setting)) →
    P (setting >>= f) (setting >>= g)

namespace Composes

variable {P : Relation}

theorem frame (h : Composes P) (id : FrameId) : P.Self (Eval.frame id) :=
  h.ofState (fun _ => rfl) (fun _ => rfl) fun _ => h.pure _

theorem mapList (h : Composes P) {f : β → Eval α} (each : ∀ b, P.Self (f b)) (bs : List β) :
    P.Self (Eval.mapList f bs) := by
  induction bs with
  | nil => exact h.pure _
  | cons b bs ih => exact h.bind (each b) fun _ => h.bind ih fun _ => h.pure _

/-! ## Values -/

/-- A definition is evaluated once at a time, outside of the parentheses around the reference. -/
def underDefinition (v : Variable) (x : Eval Value) : Eval Value := do
  if (← state).evaluating.contains v.site then
    fail { cause := .circularReference v.definition.name, span := some v.definition.span }
  else
    locatedAt v.definition.span (whileEvaluating v.site (outsideParens x))

/-- Values and guards inherit the relation from what their variables mean. -/
structure Spine (P : Relation) : Prop where
  pure : ∀ {α : Type} (a : α), P.Self (Pure.pure a)
  bind : ∀ {α β : Type} {x y : Eval β} {f g : β → Eval α},
    P x y → (∀ b, P (f b) (g b)) → P (x >>= f) (y >>= g)
  inParens : ∀ {α : Type} {x y : Eval α}, P x y → P (Eval.inParens x) (Eval.inParens y)
  applyOperator : ∀ op lhs rhs, P.Self (Eval.applyOperator op lhs rhs)
  applyFunction : ∀ name args, P.Self (Eval.applyFunction name args)

namespace Spine

variable (h : Spine P)

include h

section Fetching

variable {fetch fetch' : String → Eval Value}

theorem fillHoles (fetches : ∀ name, P (fetch name) (fetch' name)) (pieces : List Template.Piece) :
    P (Eval.fillHoles fetch pieces) (Eval.fillHoles fetch' pieces) := by
  induction pieces with
  | nil => exact h.pure _
  | cons piece rest ih =>
    cases piece with
    | text cs => exact h.bind ih fun _ => h.pure _
    | hole name => exact h.bind (fetches _) fun _ => h.bind ih fun _ => h.pure _

mutual

theorem valueWith (fetches : ∀ name, P (fetch name) (fetch' name)) (v : Value) :
    P (Eval.valueWith fetch v) (Eval.valueWith fetch' v) := by
  cases v with
  | keyword | dimension | color => exact h.pure _
  | quoted t quote => exact h.bind (h.fillHoles fetches _) fun _ => h.pure _
  | url inner => exact h.bind (valueWith fetches inner) fun _ => h.pure _
  | «variable» name => exact fetches name
  | indirect name => exact h.bind (fetches name) fun _ => fetches _
  | list separator items => exact h.bind (valuesWith fetches items) fun _ => h.pure _
  | operation op lhs rhs =>
    exact h.bind (valueWith fetches lhs) fun _ => h.bind (valueWith fetches rhs) fun _ =>
      h.applyOperator op _ _
  | paren inner => exact h.bind (h.inParens (valueWith fetches inner)) fun _ => h.pure _
  | call name args => exact h.bind (valuesWith fetches args) fun _ => h.applyFunction name _

theorem valuesWith (fetches : ∀ name, P (fetch name) (fetch' name)) (vs : List Value) :
    P (Eval.valuesWith fetch vs) (Eval.valuesWith fetch' vs) := by
  cases vs with
  | nil => exact h.pure _
  | cons v vs =>
    exact h.bind (valueWith fetches v) fun _ => h.bind (valuesWith fetches vs) fun _ => h.pure _

end

end Fetching

section Guards

variable {env env' : Environment} (value : ∀ v, P (Eval.value env v) (Eval.value env' v))

include value

theorem comparisonHolds (c : Condition) :
    P (Eval.comparisonHolds env c) (Eval.comparisonHolds env' c) := by
  refine h.bind (value c.lhs) fun lhs => ?_
  split
  · exact h.pure _
  · exact h.bind (value _) fun _ => h.pure _

theorem conditionHolds (c : Condition) :
    P (Eval.conditionHolds env c) (Eval.conditionHolds env' c) :=
  h.bind (h.inParens (h.comparisonHolds value c)) fun _ => h.pure _

theorem allHold (cs : List Condition) : P (Eval.allHold env cs) (Eval.allHold env' cs) := by
  induction cs with
  | nil => exact h.pure _
  | cons c cs ih =>
    refine h.bind (h.conditionHolds value c) fun holds => ?_
    split
    · exact ih
    · exact h.pure _

theorem guardHolds (g : Guard) : P (Eval.guardHolds env g) (Eval.guardHolds env' g) := by
  unfold Eval.guardHolds
  induction g.groups with
  | nil => exact h.pure _
  | cons group groups ih =>
    refine h.bind (h.allHold value group) fun holds => ?_
    split
    · exact h.pure _
    · exact ih

end Guards

section Self

variable {fetch : String → Eval Value}

theorem valueWith_self (fetches : ∀ name, P.Self (fetch name)) (v : Value) :
    P.Self (Eval.valueWith fetch v) :=
  h.valueWith fetches v

theorem valuesWith_self (fetches : ∀ name, P.Self (fetch name)) (vs : List Value) :
    P.Self (Eval.valuesWith fetch vs) :=
  h.valuesWith fetches vs

section

variable (value : ∀ v, P.Self (Eval.value env v))

include value

theorem conditionHolds_self (c : Condition) :
    P.Self (Eval.conditionHolds env c) :=
  h.conditionHolds value c

theorem allHold_self (cs : List Condition) :
    P.Self (Eval.allHold env cs) :=
  h.allHold value cs

theorem guardHolds_self (g : Guard) :
    P.Self (Eval.guardHolds env g) :=
  h.guardHolds value g

end

end Self

end Spine

/-- The steps that evaluating a value is made of, apart from looking names up, inherit the
    relation. -/
structure Terms (P : Relation) : Prop extends Composes P where
  emit : ∀ e, P.Self (Eval.emit e)
  warn : ∀ message, P.Self (Eval.warn message)
  inParens : ∀ {α : Type} {x y : Eval α}, P x y → P (Eval.inParens x) (Eval.inParens y)

namespace Terms

variable (h : Terms P)

include h

theorem applyFunction (name : String) (args : List Value) :
    P.Self (Eval.applyFunction name args) := by
  refine h.ofState (fun _ => rfl) (fun _ => rfl) fun s => ?_
  split
  · exact h.pure _
  · split
    · exact h.pure _
    · refine h.ofSetting (fun _ => rfl) (fun _ => rfl) fun setting => ?_
      split
      · exact h.pure _
      · exact h.bind (h.emit _) fun _ => h.pure _

theorem applyOperator (op : Operator) (lhs rhs : Value) :
    P.Self (Eval.applyOperator op lhs rhs) := by
  refine h.ofSetting (fun _ => rfl) (fun _ => rfl) fun setting =>
    h.ofState (fun _ => rfl) (fun _ => rfl) fun s => ?_
  split
  · exact h.pure _
  · dsimp only
    split
    · exact h.bind (h.warn _) fun _ => h.pure _
    · exact h.pure _

theorem spine : Spine P where
  pure := h.pure
  bind := h.bind
  inParens := h.inParens
  applyOperator := h.applyOperator
  applyFunction := h.applyFunction

end Terms

/-- Guards inherit the relation from values. -/
structure Conditions (P : Relation) : Prop extends Terms P where
  value : ∀ env v, P.Self (Eval.value env v)

namespace Conditions

variable (h : Conditions P)

include h

theorem evaluateArguments (env : Environment) (args : List Argument) :
    P.Self (Eval.evaluateArguments env args) :=
  h.mapList (fun _ => h.bind (h.value env _) fun _ => h.pure _) args

theorem defaultGroup
    (answering : ∀ {x : Eval Bool} answer, P.Self x → P.Self (answeringDefault answer x))
    (callable : Callable) (scope : Environment) : P.Self (Eval.defaultGroup callable scope) := by
  unfold Eval.defaultGroup
  split
  · exact h.pure _
  · rename_i guard _
    have holds := h.spine.guardHolds (h.value scope) guard
    split
    · refine h.bind (answering false holds) fun without => h.bind (answering true holds) fun alone => ?_
      cases without <;> cases alone <;> exact h.pure _
    · refine h.bind holds fun isTrue => ?_
      split
      · exact h.pure _
      · exact h.bind (h.emit _) fun _ => h.pure _

end Conditions

/-- The steps that evaluating a value is made of inherit the relation. -/
structure Values (P : Relation) : Prop extends Terms P where
  keepIndex : ∀ id, P.Self (change fun s => { s with frames := s.frames.keepIndex id })
  undefined : ∀ {α : Type} name, P.Self (failWith (.undefinedVariable name) : Eval α)
  exhausted : ∀ {α : Type}, P.Self (failWith .exhausted : Eval α)
  locatedAt : ∀ {α : Type} {x y : Eval α} span, P x y →
    P (Eval.locatedAt span x) (Eval.locatedAt span y)
  definition : ∀ {x y : Eval Value} v, P x y → P (underDefinition v x) (underDefinition v y)

namespace Values

variable (h : Values P)

include h

theorem consult (id : FrameId) : P.Self (Eval.consult id) := by
  refine h.bind (h.frame id) fun f => ?_
  split
  · exact h.pure _
  · exact h.bind (h.emit _) fun _ => h.bind (h.keepIndex id) fun _ => h.pure _

theorem lookupIn (name : String) (ids : List FrameId) : P.Self (Eval.lookupIn name ids) := by
  induction ids with
  | nil => exact h.pure _
  | cons id ids ih =>
    refine h.bind (h.consult id) fun index => ?_
    split
    · exact h.pure _
    · exact ih

theorem lookup (env : Environment) (name : String) : P.Self (Eval.lookup env name) := by
  refine h.bind (h.lookupIn name env.chain) fun found => ?_
  split
  · exact h.pure _
  · exact h.undefined name

theorem scopeSize (env : Environment) : P.Self (Eval.scopeSize env) :=
  h.ofState (fun _ => rfl) (fun _ => rfl) fun _ => h.pure _

theorem dereferenceWithin (env : Environment) (n : Nat) (v : Variable) :
    P.Self (Eval.dereferenceWithin env n v) := by
  induction n generalizing v with
  | zero => exact h.exhausted
  | succ n ih =>
    have fetches : ∀ name, P.Self (do Eval.dereferenceWithin env n (← Eval.lookup env name)) :=
      fun name => h.bind (h.lookup env name) ih
    exact h.definition v (h.spine.valueWith fetches v.definition.value)

theorem dereference (env : Environment) (v : Variable) : P.Self (Eval.dereference env v) :=
  h.bind (h.scopeSize env) fun _ => h.dereferenceWithin env _ v

theorem value (env : Environment) (v : Value) : P.Self (Eval.value env v) :=
  h.spine.valueWith (fun name => h.bind (h.lookup env name) (h.dereference env)) v

theorem conditions : Conditions P :=
  { h.toTerms with value := h.value }

theorem evaluatePrelude (env : Environment) (span : Span)
    (prelude : Option Value) : P.Self (Eval.evaluatePrelude env span prelude) := by
  cases prelude with
  | none => exact h.pure _
  | some v => exact h.bind (h.locatedAt span (h.value env v)) fun _ => h.pure _

theorem importPath (setSpan : ∀ span, P.Self (Eval.setSpan span))
    (env : Environment) (i : Import) : P.Self (Eval.importPath env i) := by
  refine h.bind (setSpan _) fun _ => h.bind (h.locatedAt i.span (h.value env i.path)) fun path => ?_
  split <;> exact h.pure _

end Values

/-! ## Opening imports -/

def withinDepth (path : String) (x : Eval Opened) : Eval Opened := do
  let limit := (← setting).options.maxImportDepth
  if limit < (← state).importer.nesting + 1 then failWith (.importTooDeep path limit) else x

/-- The steps that opening an import is made of inherit the relation. -/
structure Openings (P : Relation) : Prop extends Composes P where
  emit : ∀ e, P.Self (Eval.emit e)
  fail : ∀ {α : Type} f, P.Self (Eval.fail f : Eval α)
  resolve : ∀ found, P.Self (changeImporter fun i => { i with resolved := found :: i.resolved })
  mark : ∀ path, P.Self (changeImporter fun i => { i with imported := path :: i.imported })
  load : ∀ path, P.Self (loadFile path)
  withinDepth : ∀ {x y : Eval Opened} path, P x y →
    P (Composes.withinDepth path x) (Composes.withinDepth path y)

namespace Openings

variable (h : Openings P)

include h

theorem resolveReference (reference : String) (dir : Option Path) :
    P.Self (Eval.resolveReference reference dir) := by
  refine h.ofState (fun _ => rfl) (fun _ => rfl) fun s => ?_
  split
  · exact h.pure _
  · refine h.ofSetting (fun _ => rfl) (fun _ => rfl) fun setting =>
      h.ofSetting (fun _ => rfl) (fun _ => rfl) fun setting => ?_
    dsimp only
    split
    · exact h.pure _
    · split
      · exact h.pure _
      · exact h.bind (h.resolve _) fun _ => h.pure _

theorem openFile (i : Import) (path : CanonicalPath) : P.Self (Eval.openFile i path) := by
  refine h.ofSetting (fun _ => rfl) (fun _ => rfl) fun setting =>
    h.ofState (fun _ => rfl) (fun _ => rfl) fun s => ?_
  split
  · exact h.bind (h.emit _) fun _ => h.pure _
  · exact h.bind (h.mark path) fun _ => h.bind (h.load path) fun _ => h.pure _

theorem openImport (i : Import) (path : String) : P.Self (Eval.openImport i path) := by
  unfold Eval.openImport
  split
  · exact h.pure _
  · refine h.withinDepth path (h.ofState (fun _ => rfl) (fun _ => rfl) fun s =>
      h.bind (h.resolveReference path _) fun found => ?_)
    split
    · exact h.openFile i _
    · split
      · exact h.bind (h.emit _) fun _ => h.pure _
      · exact h.fail _
    · exact h.fail _

end Openings

theorem loadFile (h : Composes P) (emit : ∀ e, P.Self (Eval.emit e))
    (fail : ∀ {α : Type} f, OfOpening f.cause → P.Self (Eval.fail f : Eval α)) (path : CanonicalPath)
    (register : P.Self (changeImporter fun i => { i with files := i.files ++ [some path] }))
    (cache : ∀ file, P.Self (changeImporter fun i => { i with cache := (path, file) :: i.cache })) :
    P.Self (Eval.loadFile path) := by
  refine h.ofState (fun _ => rfl) (fun _ => rfl) fun s => ?_
  split
  · exact h.bind (emit _) fun _ => h.pure _
  · refine h.bind (emit _) fun _ => h.ofSetting (fun _ => rfl) (fun _ => rfl) fun setting => ?_
    split
    · exact fail _ trivial
    · rename_i source _
      refine h.ofState (fun _ => rfl) (fun _ => rfl) fun t => h.bind register fun _ => ?_
      have read : P.Self (ofExcept
          (Stylesheet.read source t.importer.files.length (some path.toPath))) := by
        cases parsed : Stylesheet.read source t.importer.files.length (some path.toPath) with
        | error f =>
          obtain ⟨place, -, rfl⟩ := Stylesheet.read_error parsed
          exact fail _ trivial
        | ok sheet => exact h.pure sheet
      exact h.bind read fun _ => h.bind (cache _) fun _ => h.pure _

/-! ## Expanding imports -/

/-- The steps that expanding the imports of a frame is made of inherit the relation. -/
structure Imports (P : Relation) (id : FrameId) : Prop extends Composes P where
  emit : ∀ e, P.Self (Eval.emit e)
  exhausted : ∀ {α : Type}, P.Self (failWith .exhausted : Eval α)
  path : ∀ env i, P.Self (importPath env i)
  opening : ∀ (i : Import) text, P.Self (locatedAt i.span (noteOpening i text (openImport i text)))
  splice : ∀ f : Frame → Frame, (∀ g, (f g).base = g.base) → P.Self (changeFrame id f)
  defer : ∀ position env,
    P.Self (changeImporter fun importer => importer.defer ⟨position, env, importer.nesting⟩)
  whileImporting : ∀ {x y : Eval Nat}, P x y → P (Eval.whileImporting x) (Eval.whileImporting y)

namespace Imports

variable {id : FrameId} (h : Imports P id)

include h

theorem replaceImport (env : Environment) (position : Nat) (site : Site)
    (i : Import) : P.Self (Eval.replaceImport id env position site i) := by
  refine h.bind (h.path env i) fun found => h.bind (h.opening i found.2) fun opened => ?_
  cases opened with
  | passThrough | skipped => exact h.bind (h.splice _ fun _ => rfl) fun _ => h.pure _
  | file canonical loaded =>
    exact h.ofState (fun _ => rfl) (fun _ => rfl) fun s => h.bind (h.emit _) fun _ =>
      h.bind (h.splice _ fun _ => rfl) fun _ => h.pure _

section

variable {expandAt expandAt' : Nat → Nat → Eval Nat}
  (expands : ∀ position count, P (expandAt position count) (expandAt' position count))

include expands

theorem spliceImport (env : Environment) (position : Nat) (site : Site) (i : Import) :
    P (Eval.spliceImport expandAt id env position site i)
      (Eval.spliceImport expandAt' id env position site i) := by
  refine h.bind (h.replaceImport env position site i) fun replaced => ?_
  cases replaced with
  | settled count => exact h.pure _
  | opened count => exact h.bind (h.whileImporting (expands position count)) fun _ => h.pure _

theorem expandRange (env : Environment) (defer : Bool) (position count : Nat) :
    P (Eval.expandRange expandAt id env defer position count)
      (Eval.expandRange expandAt' id env defer position count) := by
  induction count generalizing position with
  | zero => exact h.pure _
  | succ count ih =>
    refine h.bind (h.frame id) fun f => ?_
    split
    · split
      · exact h.bind (h.emit _) fun _ => h.bind (h.defer _ _) fun _ => ih _
      · exact h.bind (h.spliceImport expands env position _ _) fun _ => ih _
    · exact ih _

end

theorem expandWithin (env : Environment) (defer : Bool)
    (levels position count : Nat) : P.Self (Eval.expandWithin id env defer levels position count) := by
  induction levels generalizing position count with
  | zero => exact h.exhausted
  | succ levels ih => exact h.expandRange ih env defer position count

theorem expandImports (levels : P.Self importLevels)
    (atBaseDepth : ∀ {x : Eval Unit} depth, P.Self x → P.Self (Eval.atBaseDepth depth x))
    (env : Environment) (defer : Bool) : P.Self (Eval.expandImports id env defer) :=
  h.bind (h.frame id) fun f => h.bind levels fun n => atBaseDepth f.base
    (h.bind (h.expandWithin env defer n 0 f.size) fun _ => h.pure ())

end Imports

/-! ## Finding callables -/

/-- The steps that a search for callables is made of inherit the relation. -/
structure Searches (P : Relation) : Prop extends Composes P where
  consult : ∀ id, P.Self (Eval.consult id)
  addBlock : ∀ site rules nesting, P.Self (addFrame (Frame.ofBlock site rules nesting))

namespace Searches

variable (h : Searches P)

include h

theorem searchNamespaces (searches : ∀ id, P.Self (search id)) (f : Frame) (cs : List Callable) :
    P.Self (Eval.searchNamespaces search f cs) := by
  induction cs with
  | nil => exact h.pure _
  | cons c cs ih =>
    exact h.bind (h.addBlock _ _ 0) fun inner => h.bind (searches inner) fun _ =>
      h.bind ih fun _ => h.pure _

theorem searchFrame (path : List String) (id : FrameId) : P.Self (Eval.searchFrame path id) := by
  induction path generalizing id with
  | nil => exact h.pure _
  | cons name rest ih =>
    cases rest with
    | nil => exact h.bind (h.consult id) fun _ => h.bind (h.frame id) fun _ => h.pure _
    | cons next rest =>
      exact h.bind (h.consult id) fun _ => h.bind (h.frame id) fun f =>
        h.searchNamespaces ih f _

theorem searchStack (path : List String) (captured : List (List FrameId))
    (stack : List FrameId) : P.Self (Eval.searchStack path captured stack) := by
  induction stack with
  | nil => exact h.pure _
  | cons id outer ih =>
    refine h.bind (h.searchFrame path id) fun found => ?_
    split
    · exact ih
    · exact h.pure _

theorem findCandidates (env : Environment) (path : List String) :
    P.Self (Eval.findCandidates env path) := by
  unfold Eval.findCandidates
  induction env.allStacks with
  | nil => exact h.pure _
  | cons stack captured ih =>
    refine h.bind (h.searchStack path captured stack) fun found => ?_
    split
    · exact ih
    · exact h.pure _

end Searches

/-! ## Matching candidates and exporting definitions -/

/-- The steps that matching the candidates of a call is made of inherit the relation. -/
structure Calls (P : Relation) : Prop extends Searches P where
  emit : ∀ e, P.Self (Eval.emit e)
  mismatch : ∀ {α : Type} text reason, P.Self (failWith (.argumentMismatch text reason) : Eval α)
  missing : ∀ {α : Type} text, P.Self (failWith (.mixinNotFound text) : Eval α)
  makeSite : P.Self Eval.makeSite
  dereference : ∀ env v, P.Self (Eval.dereference env v)
  evaluateArguments : ∀ env args, P.Self (Eval.evaluateArguments env args)
  parameterFrame : ∀ binding scope caller span,
    P.Self (Eval.parameterFrame binding scope caller span)
  defaultGroup : ∀ callable scope, P.Self (Eval.defaultGroup callable scope)

theorem parameterFrame (h : Composes P) (value : ∀ env v, P.Self (Eval.value env v))
    (addFrame : P.Self (Eval.addFrame Frame.empty))
    (define : ∀ id name v span, P.Self (Eval.define id name v span)) (binding : Mixin.Binding)
    (scope caller : Environment) (span : Span) :
    P.Self (Eval.parameterFrame binding scope caller span) := by
  have definesAll : ∀ params bindings, P.Self (defineParams params scope caller span bindings) := by
    intro params bindings
    induction bindings with
    | nil => exact h.pure _
    | cons binding rest ih =>
      obtain ⟨name, bound⟩ := binding
      have evaluates : P.Self (boundValue params scope caller bound) := by
        cases bound with
        | supplied v => exact h.pure _
        | fallback v => exact value _ v
      exact h.bind evaluates fun v => h.bind (define params name v span) fun _ => ih
  exact h.bind addFrame fun params => h.bind (definesAll params _) fun _ =>
    h.bind (define params _ _ span) fun _ => h.pure _

theorem chosenGroup (h : Composes P)
    (mismatch : ∀ {α : Type} text reason, P.Self (failWith (.argumentMismatch text reason) : Eval α))
    (matched : List MatchedCandidate) (call : MixinCall) :
    P.Self (Eval.chosenGroup matched call) := by
  unfold Eval.chosenGroup
  split
  · exact h.pure _
  · split
    · exact mismatch _ _
    · exact h.pure _

namespace Calls

variable (h : Calls P)

include h

theorem matchCandidate (caller : Environment) (args : List Argument) (span : Span)
    (candidate : Candidate) : P.Self (Eval.matchCandidate caller args span candidate) := by
  unfold Eval.matchCandidate
  split
  · exact h.bind (h.emit _) fun _ => h.pure _
  · exact h.bind (h.parameterFrame _ _ caller span) fun _ => h.bind (h.defaultGroup _ _) fun _ =>
      h.pure _

theorem matchCandidates (caller : Environment) (args : List Argument) (span : Span)
    (candidates : List Candidate) : P.Self (Eval.matchCandidates caller args span candidates) := by
  induction candidates with
  | nil => exact h.pure _
  | cons candidate rest ih =>
    refine h.bind (h.matchCandidate caller args span candidate) fun outcome =>
      h.bind ih fun others => ?_
    split <;> exact h.pure _

theorem unmatched (call : MixinCall) (candidates : Nat)
    (failures : List Mixin.MatchFailure) : P.Self (Eval.unmatched call candidates failures) := by
  unfold Eval.unmatched
  split
  · exact h.mismatch _ _
  · split
    · exact h.missing _
    · exact h.bind (h.emit _) fun _ => h.pure _

theorem exportsOf (env : Environment) (es : List Entry) : P.Self (Eval.exportsOf env es) := by
  induction es with
  | nil => exact h.pure _
  | cons e es ih =>
    unfold Eval.exportsOf
    split
    · exact h.bind (h.dereference env _) fun _ => h.bind h.makeSite fun _ =>
        h.bind ih fun _ => h.pure _
    · exact h.bind ih fun _ => h.pure _
    · exact ih

theorem exportTo
    (prepend : ∀ id rules closure source,
      P.Self (changeFrame id (·.prependExports rules closure source)))
    (caller : Option FrameId) (bodyEnv : Environment) (params body : FrameId) :
    P.Self (Eval.exportTo caller bodyEnv params body) := by
  cases caller with
  | none => exact h.pure ()
  | some caller =>
    exact h.bind (h.frame body) fun _ => h.bind (h.exportsOf bodyEnv _) fun _ =>
      h.bind (h.frame body) fun _ => prepend _ _ _ _

end Calls

/-! ## Evaluating blocks -/

/-- Whether a callable is expanded too often inside itself is tested before its body is entered. -/
def withinExpansions (name : String) (depth : Nat) (x : Eval Output) : Eval Output := do
  let limit := (← setting).options.maxMixinDepth
  if limit < depth then failWith (.mixinTooDeep name limit) else x

/-- The steps that evaluating a block is made of inherit the relation. -/
structure Blocks (P : Relation) : Prop extends Calls P where
  setSpan : ∀ span, P.Self (Eval.setSpan span)
  note : ∀ site call env, P.Self (noteCalling site call env)
  beginBody : ∀ site, P.Self (Eval.beginBody site)
  locatedAt : ∀ {α : Type} {x y : Eval α} span, P x y →
    P (Eval.locatedAt span x) (Eval.locatedAt span y)
  insideOf : ∀ {α : Type} {x y : Eval α} label, P x y →
    P (Eval.insideOf label x) (Eval.insideOf label y)
  whileExpanding : ∀ {x y : Eval Output} site, P x y →
    P (Eval.whileExpanding site x) (Eval.whileExpanding site y)
  withinExpansions : ∀ {x y : Eval Output} name depth, P x y →
    P (Composes.withinExpansions name depth x) (Composes.withinExpansions name depth y)
  value : ∀ env v, P.Self (Eval.value env v)
  evaluatePrelude : ∀ env span prelude, P.Self (Eval.evaluatePrelude env span prelude)
  exportTo : ∀ caller env params body, P.Self (Eval.exportTo caller env params body)
  expandImports : ∀ id env, P.Self (Eval.expandImports id env false)
  effectiveSelectors : ∀ ancestors selectors span,
    P.Self (Eval.effectiveSelectors ancestors selectors span)

namespace Blocks

variable (h : Blocks P)

include h

theorem enterBlock (env : Environment) (site : Site) (rules : List Rule)
    (nesting : Nat) : P.Self (Eval.enterBlock env site rules nesting) :=
  h.bind (h.addBlock _ _ _) fun id => h.bind (h.expandImports id _) fun _ => h.pure _

section

variable {evaluate evaluate' : BlockEvaluator}
  (evaluates : ∀ env ctx, P (evaluate env ctx) (evaluate' env ctx))

include evaluates

theorem expandBody
    (ctx : Context) (nesting : Nat) (caller : Option FrameId) (m : MatchedCandidate) :
    P (Eval.expandBody evaluate ctx nesting caller m)
      (Eval.expandBody evaluate' ctx nesting caller m) := by
  have body : P (evaluateBody evaluate ctx nesting m) (evaluateBody evaluate' ctx nesting m) :=
    h.bind (h.addBlock _ _ _) fun id => h.bind (h.expandImports id _) fun _ =>
      h.bind (evaluates _ ctx) fun _ => h.pure _
  refine h.ofState (fun _ => rfl) (fun _ => rfl) fun s => h.withinExpansions _ _ ?_
  exact h.bind (h.beginBody _) fun _ => h.bind (h.emit _) fun _ => h.bind body fun evaluated =>
    h.bind (h.exportTo caller _ _ _) fun _ => h.pure _

theorem expandAll
    (ctx : Context) (nesting : Nat) (caller : Option FrameId) (ms : List MatchedCandidate) :
    P (Eval.expandAll evaluate ctx nesting caller ms)
      (Eval.expandAll evaluate' ctx nesting caller ms) := by
  induction ms with
  | nil => exact h.pure _
  | cons m ms ih =>
    exact h.bind (h.whileExpanding _ (h.expandBody evaluates ctx nesting caller m)) fun _ =>
      h.bind ih fun _ => h.pure _

section

variable (env : Environment) (ctx : Context)

include env ctx

theorem callMixin (nesting : Nat) (call : MixinCall) :
    P (Eval.callMixin evaluate env ctx nesting call)
      (Eval.callMixin evaluate' env ctx nesting call) := by
  refine h.bind (h.setSpan _) fun _ => h.insideOf _ (h.locatedAt _ ?_)
  refine h.bind (h.evaluateArguments env call.args) fun args =>
    h.bind (h.findCandidates env call.path) fun candidates => ?_
  split
  · exact h.missing _
  · refine h.bind (h.emit _) fun _ =>
      h.bind (h.matchCandidates env args call.span candidates) fun selection => ?_
    split
    · exact h.unmatched call _ _
    · exact h.bind (h.chosenGroup h.mismatch _ call) fun _ => h.expandAll evaluates _ nesting _ _

theorem expandCalls (es : List Entry) :
    P (Eval.expandCalls evaluate env ctx es) (Eval.expandCalls evaluate' env ctx es) := by
  induction es with
  | nil => exact h.pure _
  | cons e es ih =>
    unfold Eval.expandCalls
    split
    · exact h.bind (h.note _ _ _) fun _ => h.bind (h.callMixin evaluates env ctx _ _) fun _ =>
        h.bind ih fun _ => h.pure _
    · exact ih

theorem evaluateRule (e : Entry) :
    P (Eval.evaluateRule evaluate env ctx e) (Eval.evaluateRule evaluate' env ctx e) := by
  have enters := fun rules => h.enterBlock env e.site rules e.nesting
  unfold Eval.evaluateRule
  cases e.rule with
  | declaration d =>
    exact h.bind (h.setSpan _) fun _ => h.bind (h.locatedAt _ (h.value env d.value)) fun _ =>
      h.pure _
  | «variable» d =>
    exact h.bind (h.setSpan _) fun _ => h.bind (h.locatedAt _ (h.dereference env _)) fun _ =>
      h.pure _
  | ruleset selectors rules span =>
    exact h.bind (h.effectiveSelectors _ _ _) fun _ => h.bind (h.insideOf _ (enters rules)) fun _ =>
      h.bind (h.insideOf _ (evaluates _ _)) fun _ => h.pure _
  | mixin | call => exact h.pure _
  | fileImport i =>
    exact h.bind (h.locatedAt _ (h.value env i.path)) fun _ =>
      h.bind (h.evaluatePrelude env _ _) fun _ => h.pure _
  | media features rules span =>
    exact h.bind (h.locatedAt _ (h.value env features)) fun _ => h.bind (enters rules) fun _ =>
      h.bind (evaluates _ _) fun _ => h.pure _
  | atStatement name prelude span => exact h.bind (h.evaluatePrelude env _ _) fun _ => h.pure _
  | atBlock name prelude rules span =>
    exact h.bind (h.evaluatePrelude env _ _) fun _ => h.bind (enters rules) fun _ =>
      h.bind (h.insideOf _ (evaluates _ _)) fun _ => h.pure _

theorem evaluateEntries (es : List Entry) (expansions : List Output) :
    P (Eval.evaluateEntries evaluate env ctx es expansions)
      (Eval.evaluateEntries evaluate' env ctx es expansions) := by
  induction es generalizing expansions with
  | nil => exact h.pure _
  | cons e es ih =>
    unfold Eval.evaluateEntries
    split
    · exact h.bind (ih _) fun _ => h.pure _
    · exact h.bind (h.evaluateRule evaluates env ctx e) fun _ => h.bind (ih _) fun _ => h.pure _

theorem blockWith :
    P (Eval.blockWith evaluate env ctx) (Eval.blockWith evaluate' env ctx) := by
  unfold Eval.blockWith
  split
  · exact h.pure _
  · exact h.bind (h.frame _) fun _ => h.bind (h.expandCalls evaluates env ctx _) fun _ =>
      h.bind (h.frame _) fun _ => h.evaluateEntries evaluates env ctx _ _

end

end

theorem blockWithin (exhausted : ∀ {α : Type}, P.Self (failWith .exhausted : Eval α)) (n : Nat)
    (env : Environment) (ctx : Context) : P.Self (Eval.blockWithin n env ctx) := by
  induction n generalizing env ctx with
  | zero => exact exhausted
  | succ n ih => exact h.blockWith ih env ctx

end Blocks

end Composes

end Eval

end StyleResolution
