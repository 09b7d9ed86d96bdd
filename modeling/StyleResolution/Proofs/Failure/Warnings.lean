import StyleResolution.Compiler
import StyleResolution.Proofs.Evaluation.Composition
import StyleResolution.Proofs.Evaluation.Ending
import StyleResolution.Proofs.Sheet.Size

/-! # Where warnings point

A warning is given the position that is in force. Declarations, definitions, calls, and imports that
are opened put their own position in force before their values are evaluated, so their warnings
point at them. Media blocks, other at-rules, imports that stay in the output, and the definitions
that a body exports put none in force. Their warnings point at whatever was evaluated before.
-/

namespace StyleResolution

open Eval

/-- The position in force while the values of a rule are evaluated, given the one before. -/
def Rule.position (before : Span) : Rule → Span
  | .declaration d => d.span
  | .variable d => d.span
  | _ => before

def Failure.RaisedAt (f : Failure) (span : Span) : Prop :=
  ∀ message, f.cause = .warning message → f.span = some span

theorem Failure.RaisedAt.located {f : Failure} {span : Span} (h : f.RaisedAt span) (other : Span) :
    (f.located other).RaisedAt span :=
  fun message cause => by simp [Failure.located, h message cause]

/-- The second state has the warnings of the first one and then others, all with the position. -/
def Evaluation.Adds (span : Span) (s t : Evaluation) : Prop :=
  ∃ new, t.warnings.toList = s.warnings.toList ++ new ∧ ∀ w ∈ new, w.span = span

namespace Evaluation.Adds

variable {span : Span} {s t u : Evaluation}

theorem none (same : t.warnings = s.warnings) : Adds span s t :=
  ⟨[], by simp [same], by simp⟩

theorem trans (first : Adds span s t) (second : Adds span t u) : Adds span s u := by
  obtain ⟨new, grown, here⟩ := first
  obtain ⟨newer, grownToo, hereToo⟩ := second
  refine ⟨new ++ newer, by rw [grownToo, grown, List.append_assoc], fun w member => ?_⟩
  rcases List.mem_append.mp member with early | late
  · exact here w early
  · exact hereToo w late

theorem same_or_none (here : Adds span s t) (there : Adds other s t) :
    span = other ∨ t.warnings = s.warnings := by
  obtain ⟨new, grown, here⟩ := here
  obtain ⟨new', grown', there⟩ := there
  obtain rfl : new = new' := List.append_cancel_left (grown.symm.trans grown')
  cases new with
  | nil => exact .inr (Array.toList_inj.mp (by simpa using grown))
  | cons w rest => exact .inl ((here w List.mem_cons_self).symm.trans (there w List.mem_cons_self))

end Evaluation.Adds

namespace Eval

open Evaluation

variable {α β : Type} {setting : Setting}

/-- Every warning that the computation gives from the state `s` has the position, whether it is
    recorded or raised as an error. -/
def WarnsAt (setting : Setting) (s : Evaluation) (x : Eval α) (span : Span) : Prop :=
  Ends setting s x (fun _ t => Adds span s t) fun f t => Adds span s t ∧ f.RaisedAt span

/-- The computation gives no warning from the state `s`. -/
def Silent (setting : Setting) (s : Evaluation) (x : Eval α) : Prop :=
  Ends setting s x (fun _ t => t.warnings = s.warnings) fun f t =>
    t.warnings = s.warnings ∧ ∀ message, f.cause ≠ .warning message

/-- The position is that of every warning, and in the end it is in force. -/
def Points (setting : Setting) (s : Evaluation) (x : Eval α) (span : Span) : Prop :=
  Ends setting s x (fun _ t => t.span = span ∧ Adds span s t) fun f t =>
    t.span = span ∧ Adds span s t ∧ f.RaisedAt span

theorem Points.warnsAt_iff {s : Evaluation} {x : Eval α} {span other : Span}
    (h : Points setting s x span) :
    WarnsAt setting s x other ↔ span = other ∨ Silent setting s x := by
  unfold WarnsAt Silent Ends
  rcases run : x setting s with ⟨f | a, t⟩
  · obtain ⟨-, adds, raised⟩ := Ends.failure h run
    constructor
    · rintro ⟨addsToo, raisedToo⟩
      by_cases same : span = other
      · exact .inl same
      · refine .inr ⟨(adds.same_or_none addsToo).resolve_left same, fun message cause => same ?_⟩
        exact Option.some.inj ((raised message cause).symm.trans (raisedToo message cause))
    · rintro (rfl | ⟨none, never⟩)
      · exact ⟨adds, raised⟩
      · exact ⟨.none none, fun message cause => absurd cause (never message)⟩
  · obtain ⟨-, adds⟩ := Ends.result h run
    constructor
    · exact fun addsToo => adds.same_or_none addsToo
    · rintro (rfl | none)
      · exact adds
      · exact .none none

/-! ## Computations that leave the position in force -/

variable (setting) in
/-- From every state, warnings point at the position in force, and it stays in force. -/
def Pointing (x : Eval α) : Prop :=
  ∀ s, Points setting s x s.span

namespace Pointing

theorem pure (a : α) : Pointing setting (Pure.pure a : Eval α) :=
  fun _ => ⟨rfl, .none rfl⟩

theorem failWith (other : ∀ message, cause ≠ .warning message) :
    Pointing setting (failWith cause : Eval α) :=
  fun _ => ⟨rfl, .none rfl, fun message isWarning => absurd isWarning (other message)⟩

theorem change (span : ∀ s, (f s).span = s.span) (warnings : ∀ s, (f s).warnings = s.warnings) :
    Pointing setting (change f) :=
  fun s => ⟨span s, .none (warnings s)⟩

theorem bind {x : Eval β} {next : β → Eval α} (first : Pointing setting x)
    (then_ : ∀ b, Pointing setting (next b)) : Pointing setting (x >>= next) := by
  intro s
  refine .seq (first s) (fun b t ended => ?_)
  obtain ⟨position, adds⟩ := ended
  have later := then_ b t
  rw [Points, position] at later
  exact later.mono (fun _ _ ended => ⟨ended.1, adds.trans ended.2⟩)
    fun _ _ failed => ⟨failed.1, adds.trans failed.2.1, failed.2.2⟩

theorem ofState (h : ∀ s, Pointing setting (next s)) : Pointing setting (state >>= next) :=
  fun s => h s s

theorem ofSetting (h : ∀ setting', Pointing setting (next setting')) :
    Pointing setting (Eval.setting >>= next) :=
  fun s => h setting s

theorem locatedAt {x : Eval α} (h : Pointing setting x) (span : Span) :
    Pointing setting (locatedAt span x) :=
  fun s => .mapFailure ((h s).mono (fun _ _ ended => ended)
    fun _ _ failed => ⟨failed.1, failed.2.1, failed.2.2.located span⟩)

theorem insideOf (h : Pointing setting x) (label : Unit → String) :
    Pointing setting (insideOf label x) :=
  fun s => .mapFailure ((h s).imp (fun _ _ ended => ended))

/-- Scoped changes that touch neither the position nor the warnings. -/
theorem between (h : Pointing setting x)
    (entered : ∀ s, (enter s).span = s.span ∧ (enter s).warnings = s.warnings)
    (left : ∀ s, (leave s).span = s.span ∧ (leave s).warnings = s.warnings) :
    Pointing setting (between enter leave x) := by
  intro s
  have inner := h (enter s)
  rw [Points, (entered s).1] at inner
  have adds : ∀ {t}, Adds s.span (enter s) t → Adds s.span s (leave t) := by
    rintro t ⟨new, grown, here⟩
    exact ⟨new, by rw [(left t).2, grown, (entered s).2], here⟩
  refine .between (inner.mono (fun _ t ended => ?_) fun _ t failed => ?_)
  · exact ⟨(left t).1.trans ended.1, adds ended.2⟩
  · exact ⟨(left t).1.trans failed.1, adds failed.2.1, failed.2.2⟩

theorem warn (message : String) : Pointing setting (warn message) := by
  intro s
  refine .ofState (.ofSetting ?_)
  split
  · exact ⟨rfl, .none rfl, fun _ _ => rfl⟩
  · exact ⟨rfl, [⟨message, s.span⟩], by simp, by simp⟩

theorem points (h : Pointing setting x) (s : Evaluation) (span : Span) :
    Points setting s (setSpan span >>= fun _ => x) span :=
  h { s with span }

theorem composes : Composes fun _ x _ => Pointing setting x where
  pure := pure
  bind := bind
  ofState _ _ h := ofState h
  ofSetting _ _ h := ofSetting h

theorem values : Composes.Values fun _ x _ => Pointing setting x where
  toComposes := composes
  emit _ := change (fun _ => rfl) fun _ => rfl
  warn := warn
  keepIndex _ := change (fun _ => rfl) fun _ => rfl
  undefined _ := failWith nofun
  exhausted := failWith nofun
  locatedAt span h := h.locatedAt span
  inParens h := h.between (fun _ => ⟨rfl, rfl⟩) fun _ => ⟨rfl, rfl⟩
  definition v h := ofState fun s => by
    split
    · exact fun _ => ⟨rfl, .none rfl, nofun⟩
    · refine locatedAt (between (ofState fun _ => h.between ?_ ?_) ?_ ?_) _ <;>
        exact fun _ => ⟨rfl, rfl⟩

theorem calls : Composes.Calls fun _ x _ => Pointing setting x where
  toComposes := composes
  consult := values.consult
  addBlock _ _ _ _ := ⟨rfl, .none rfl⟩
  emit := values.emit
  mismatch _ _ := failWith nofun
  missing _ := failWith nofun
  makeSite _ := ⟨rfl, .none rfl⟩
  dereference := values.dereference
  evaluateArguments := values.conditions.evaluateArguments
  parameterFrame := composes.parameterFrame values.value (fun _ => ⟨rfl, .none rfl⟩)
    fun _ _ _ _ => bind (fun _ => ⟨rfl, .none rfl⟩) fun _ => change (fun _ => rfl) fun _ => rfl
  defaultGroup := values.conditions.defaultGroup fun _ h =>
    ofState fun _ => h.between (fun _ => ⟨rfl, rfl⟩) fun _ => ⟨rfl, rfl⟩

end Pointing

/-! ## The values of rules -/

/-- The values of a rule: of a declaration or a definition, the features of a media block, the
    prelude of an at-rule, or the path and the media of an import that stays in the output. -/
def ownValues (env : Environment) (e : Entry) : Eval (List Value) :=
  match e.rule with
  | .declaration d => do
    setSpan d.span
    let v ← locatedAt d.span (value env d.value)
    pure [v]
  | .variable d => do
    setSpan d.span
    let v ← locatedAt d.span (dereference env ⟨d, e.site⟩)
    pure [v]
  | .fileImport i => do
    let path ← locatedAt i.span (value env i.path)
    let media ← evaluatePrelude env i.span i.media
    pure (path :: media.toList)
  | .media features _ span => do
    let own ← locatedAt span (value env features)
    pure [own]
  | .atStatement _ prelude span | .atBlock _ prelude _ span => do
    let own ← evaluatePrelude env span prelude
    pure own.toList
  | .ruleset _ _ _ | .mixin _ _ | .call _ => pure []

def finishRule (evaluate : BlockEvaluator) (env : Environment) (ctx : Context) (e : Entry)
    (values : List Value) : Eval Output :=
  match e.rule, values with
  | .declaration d, [v] =>
    pure { declarations := [{ d with value := v, important := d.important || ctx.important }] }
  | .fileImport i, path :: media =>
    pure (.ofRules [.fileImport { i with path, media := media.head? }])
  | .media _ rules span, [own] => do
    let joined := joinFeatures ctx.media own
    let inner ← enterBlock env e.site rules e.nesting
    let body ← evaluate inner { ctx with media := some joined }
    let kept := mediaBody ctx.selectors body span
    let media := if kept.isEmpty then [] else [Rule.media joined kept span]
    pure (.ofRules (media ++ body.rules.filter isMedia))
  | .atStatement name _ span, prelude => pure (.ofRules [.atStatement name prelude.head? span])
  | .atBlock name _ rules span, prelude => do
    let inner ← enterBlock env e.site rules e.nesting
    let body ← insideOf (fun _ => "@" ++ name) (evaluate inner { important := ctx.important })
    pure (.ofRules [.atBlock name prelude.head? (body.declarationRules ++ body.rules) span])
  | .ruleset selectors rules span, _ => evaluateRuleset evaluate env ctx e selectors rules span
  | _, _ => pure {}

theorem evaluateRule_eq_finish (evaluate : BlockEvaluator) (env : Environment) (ctx : Context)
    (e : Entry) :
    evaluateRule evaluate env ctx e = ownValues env e >>= finishRule evaluate env ctx e := by
  unfold evaluateRule ownValues finishRule
  have prelude : ∀ v : Option Value, v.toList.head? = v := fun v => by cases v <;> rfl
  cases e.rule <;>
    simp only [evaluateDeclaration, evaluateDefinition, evaluateImport, evaluateMedia,
      evaluateAtBlock, bind_assoc, pure_bind, prelude]

theorem ownValues_points (s : Evaluation) (env : Environment) (e : Entry) :
    Points setting s (ownValues env e) (e.rule.position s.span) := by
  have prelude := fun span v => @Pointing.values setting |>.evaluatePrelude env span v
  have located := fun v span => (@Pointing.values setting |>.value env v).locatedAt span
  unfold ownValues
  cases e.rule with
  | declaration d => exact ((located d.value d.span).bind fun _ => .pure _).points s d.span
  | «variable» d =>
    have evaluated := (@Pointing.values setting |>.dereference env ⟨d, e.site⟩).locatedAt d.span
    exact (evaluated.bind fun _ => .pure _).points s d.span
  | fileImport i =>
    exact (located i.path i.span).bind (fun _ => .bind (prelude _ _) fun _ => .pure _) s
  | media features rules span => exact (located features span).bind (fun _ => .pure _) s
  | atStatement | atBlock => exact Pointing.bind (prelude _ _) (fun _ => .pure _) s
  | ruleset | mixin | call => exact Pointing.pure _ s

theorem importPath_points (s : Evaluation) (env : Environment) (i : Import) :
    Points setting s (importPath env i) i.span := by
  have path := (@Pointing.values setting |>.value env i.path).locatedAt i.span
  refine (path.bind fun v => ?_).points s i.span
  split <;> exact .pure _

/-! ## The values of calls -/

/-- What a call evaluates by itself: its arguments, and for each candidate that takes them the
    defaults of its parameters and its guard. Answers with the number of candidates too. -/
def callValues (env : Environment) (call : MixinCall) : Eval (Nat × Selection) := do
  setSpan call.span
  insideOf (fun _ => call.text) (locatedAt call.span do
    let args ← evaluateArguments env call.args
    let candidates ← findCandidates env call.path
    if candidates.isEmpty then
      failWith (.mixinNotFound (Text.join " > " call.path))
    else
      emit (.candidates candidates.length call.text)
      let selection ← matchCandidates env args call.span candidates
      pure (candidates.length, selection))

/-- What a call comes to, given its candidates. -/
def finishCall (evaluate : BlockEvaluator) (env : Environment) (ctx : Context) (nesting : Nat)
    (call : MixinCall) (found : Nat × Selection) : Eval Output :=
  insideOf (fun _ => call.text) (locatedAt call.span (
    if found.2.matched.isEmpty then
      unmatched call found.1 found.2.failures
    else do
      let group ← chosenGroup found.2.matched call
      expandAll evaluate { ctx with important := ctx.important || call.important } nesting
        env.innermost? (found.2.matched.filter fun m => m.group == .plain || m.group == group)))

theorem mapFailure_bind_eq (g : Failure → Failure) (x : Eval β) (next : β → Eval α) :
    mapFailure g (x >>= next) = mapFailure g x >>= fun b => mapFailure g (next b) := by
  funext setting s
  simp only [mapFailure, bind_apply]
  rcases x setting s with ⟨f | b, t⟩ <;> rfl

theorem callMixin_eq_finish (evaluate : BlockEvaluator) (env : Environment) (ctx : Context)
    (nesting : Nat) (call : MixinCall) :
    callMixin evaluate env ctx nesting call =
      callValues env call >>= finishCall evaluate env ctx nesting call := by
  simp only [callMixin, callValues, resolveCall, insideOf, locatedAt,
    mapFailure_bind_eq, bind_assoc]
  congr 1
  funext _
  congr 1
  funext args
  congr 1
  funext candidates
  split
  · rfl
  · simp only [mapFailure_bind_eq, bind_assoc]
    rfl

theorem callValues_points (s : Evaluation) (env : Environment) (call : MixinCall) :
    Points setting s (callValues env call) call.span := by
  have calls := @Pointing.calls setting
  refine Pointing.points (Pointing.insideOf (Pointing.locatedAt ?_ _) _) s call.span
  refine Pointing.bind (calls.evaluateArguments env call.args) fun args =>
    .bind (calls.findCandidates env call.path) fun candidates => ?_
  split
  · exact .failWith nofun
  · have selected := calls.matchCandidates env args call.span candidates
    exact .bind (calls.emit _) fun _ => .bind selected fun _ => .pure _

end Eval

/-- Warnings point at what has put its position in force last. That is the rule itself for
    declarations, definitions, imports that are opened and calls, whatever was evaluated before. It
    is not for media blocks, other at-rules and imports that stay in the output, nor for the
    definitions that a body exports: unless they happen to have the position that was in force,
    every warning that they give points elsewhere. -/
theorem warnings_point_at_the_position_in_force (setting : Setting) (s : Evaluation)
    (env : Environment) :
    (∀ e : Entry,
      (∀ evaluate ctx, evaluateRule evaluate env ctx e =
        ownValues env e >>= finishRule evaluate env ctx e) ∧
      Eval.Points setting s (ownValues env e) (e.rule.position s.span) ∧
      (Eval.WarnsAt setting s (ownValues env e) e.rule.span ↔
        e.rule.position s.span = e.rule.span ∨ Eval.Silent setting s (ownValues env e))) ∧
    (∀ i, Eval.Points setting s (importPath env i) i.span) ∧
    (∀ call : MixinCall,
      (∀ evaluate ctx nesting, callMixin evaluate env ctx nesting call =
        callValues env call >>= finishCall evaluate env ctx nesting call) ∧
      Eval.Points setting s (callValues env call) call.span) ∧
    (∀ es, Eval.Points setting s (exportsOf env es) s.span) ∧
    ∀ v, (Eval.WarnsAt setting s (dereference env v) v.definition.span ↔
      s.span = v.definition.span ∨ Eval.Silent setting s (dereference env v)) := by
  refine ⟨fun e => ⟨?_, ?_, ?_⟩, fun i => ?_, fun call => ⟨?_, ?_⟩, fun es => ?_, fun v => ?_⟩
  · exact fun evaluate ctx => evaluateRule_eq_finish evaluate env ctx e
  · exact ownValues_points s env e
  · exact (ownValues_points s env e).warnsAt_iff
  · exact importPath_points s env i
  · exact fun evaluate ctx nesting => callMixin_eq_finish evaluate env ctx nesting call
  · exact callValues_points s env call
  · exact Eval.Pointing.calls.exportsOf env es s
  · exact (Eval.Pointing.values.dereference env v s).warnsAt_iff

/-- A ruleset, and a media block after it whose features add two units. -/
def mediaAfterRuleset : Stylesheet :=
  let sum := Value.operation .add (.dimension ⟨1, "px"⟩) (.dimension ⟨1, "em"⟩)
  ⟨none,
    [.ruleset [⟨[⟨.attached, .literal ".a"⟩]⟩]
        [.declaration ⟨"x", .dimension ⟨1, ""⟩, false, ⟨0, 1, 6⟩⟩] ⟨0, 1, 1⟩,
      .media (.paren (.list .space [.keyword "min-width:", sum]))
        [.ruleset [⟨[⟨.attached, .literal ".b"⟩]⟩]
          [.declaration ⟨"y", .dimension ⟨2, ""⟩, false, ⟨0, 2, 38⟩⟩] ⟨0, 2, 33⟩] ⟨0, 2, 1⟩]⟩

/-- The warning of the media block points at the declaration in the ruleset. -/
theorem mediaAfterRuleset_warns_at_the_ruleset :
    mediaAfterRuleset.rules.map Rule.span = [⟨0, 1, 1⟩, ⟨0, 2, 1⟩] ∧
    (Compiler.compile {} mediaAfterRuleset).outcome.toOption.map
      (·.warnings.map (·.span)) = some [⟨0, 1, 6⟩] :=
  ⟨rfl, by decide +kernel⟩

end StyleResolution
