import StyleResolution.Proofs.Evaluation.Coincidence
import StyleResolution.Proofs.Evaluation.Locality

/-! # Static rules

A rule is static if it holds declarations, rulesets, media blocks and other at-rules only, with
values in which no variable is mentioned. What such a rule contributes does not depend on the frames
in scope or on the moment at which it is evaluated: `Rule.output?` reads it off the rule and its
context, and the evaluation of the rule has this result or fails.
-/

namespace StyleResolution

mutual

/-- Whether no variable is mentioned in the value, by itself or in a hole of a string. -/
def Value.isConstant : Value → Bool
  | .keyword _ | .dimension _ | .color _ => true
  | .quoted t _ => (Template.pieces t.toList).all fun
      | .text _ => true
      | .hole _ => false
  | .variable _ | .indirect _ => false
  | .url inner | .paren inner => inner.isConstant
  | .operation _ lhs rhs => lhs.isConstant && rhs.isConstant
  | .list _ items => Value.areConstant items
  | .call _ args => Value.areConstant args

/-- Whether no variable is mentioned in the values. -/
def Value.areConstant : List Value → Bool
  | [] => true
  | v :: vs => v.isConstant && Value.areConstant vs

end

mutual

def Rule.isStatic : Rule → Bool
  | .declaration d => d.value.isConstant
  | .ruleset _ rules _ => Rule.areStatic rules
  | .media features rules _ => features.isConstant && Rule.areStatic rules
  | .atStatement _ prelude _ => prelude.all Value.isConstant
  | .atBlock _ prelude rules _ => prelude.all Value.isConstant && Rule.areStatic rules
  | .variable _ | .mixin _ _ | .call _ | .fileImport _ => false

def Rule.areStatic : List Rule → Bool
  | [] => true
  | r :: rs => r.isStatic && Rule.areStatic rs

end

theorem Rule.areStatic_iff : areStatic rules = true ↔ ∀ r ∈ rules, r.isStatic = true := by
  induction rules with
  | nil => simp [areStatic]
  | cons r rs ih => simp [areStatic, ih]

/-- The value of an expression in which no variable is mentioned. -/
def Setting.constant (setting : Setting) (v : Value) : Value :=
  match Eval.value {} v setting {} with
  | (.ok a, _) => a
  | (.error _, _) => v

mutual

/-- What a static rule contributes in a context, unless its selectors cannot be combined with those
    around it. -/
def Rule.output? (setting : Setting) (ctx : Context) : Rule → Option Output
  | .declaration d =>
    let value := setting.constant d.value
    some { declarations := [{ d with value, important := d.important || ctx.important }] }
  | .ruleset selectors rules span => do
    let limit := setting.options.maxSelectorExpansions
    let effective ← (Selector.combine ctx.selectors selectors limit).toOption
    let body ← Rule.outputs? setting { ctx with selectors := effective } rules
    pure (.ofRules (Eval.rulesetOf effective body span ++ body.rules))
  | .media features rules span => do
    let joined := Eval.joinFeatures ctx.media (setting.constant features)
    let body ← Rule.outputs? setting { ctx with media := some joined } rules
    let kept := Eval.mediaBody ctx.selectors body span
    let media := if kept.isEmpty then [] else [Rule.media joined kept span]
    pure (.ofRules (media ++ body.rules.filter Eval.isMedia))
  | .atStatement name prelude span =>
    some (.ofRules [.atStatement name (prelude.map setting.constant) span])
  | .atBlock name prelude rules span => do
    let body ← Rule.outputs? setting { important := ctx.important } rules
    pure (.ofRules
      [.atBlock name (prelude.map setting.constant) (body.declarationRules ++ body.rules) span])
  | .variable _ | .mixin _ _ | .call _ | .fileImport _ => some {}

def Rule.outputs? (setting : Setting) (ctx : Context) : List Rule → Option Output
  | [] => some {}
  | r :: rs => do
    let own ← Rule.output? setting ctx r
    let others ← Rule.outputs? setting ctx rs
    pure (own ++ others)

end

namespace Output

theorem append_assoc (a b c : Output) : a ++ b ++ c = a ++ (b ++ c) := by
  show append (append a b) c = append a (append b c)
  simp [append]

theorem empty_append (a : Output) : ({} : Output) ++ a = a := by
  show append {} a = a
  simp [append]

theorem append_empty (a : Output) : a ++ ({} : Output) = a := by
  show append a {} = a
  simp [append]

end Output

/-! ## States that extend each other -/

/-- Nothing is being evaluated. -/
structure Evaluation.Idle (s : Evaluation) : Prop where
  parenDepth : s.parenDepth = 0
  defaultAnswer : s.defaultAnswer = none
  evaluating : s.evaluating = []

theorem Evaluation.Idle.of_restored {s s' : Evaluation} (idle : s.Idle)
    (restored : s'.scopedPart = s.scopedPart) : s'.Idle := by
  simp only [Evaluation.scopedPart, Scoped.mk.injEq] at restored
  obtain ⟨parenDepth, defaultAnswer, evaluating, -⟩ := restored
  exact ⟨parenDepth.trans idle.parenDepth, defaultAnswer.trans idle.defaultAnswer,
    evaluating.trans idle.evaluating⟩

/-- The second state comes from the first one by making frames and definitions; the frames of the
    first state keep their rules. -/
structure Extends (s s' : Evaluation) : Prop where
  size : s.frames.size ≤ s'.frames.size
  frame : ∀ j < s.frames.size, (s.frames.get j).Indexed (s'.frames.get j)
  fresh : s.frames.Fresh → s'.frames.Fresh
  restored : s'.scopedPart = s.scopedPart
  made : s.made ≤ s'.made

namespace Extends

theorem refl (s : Evaluation) : Extends s s :=
  ⟨Nat.le_refl _, fun _ _ => .refl _, id, rfl, Nat.le_refl _⟩

theorem trans (first : Extends s t) (second : Extends t u) : Extends s u where
  size := Nat.le_trans first.size second.size
  frame j inside :=
    (first.frame j inside).trans (second.frame j (Nat.lt_of_lt_of_le inside first.size))
  fresh := second.fresh ∘ first.fresh
  restored := second.restored.trans first.restored
  made := Nat.le_trans first.made second.made

theorem add (s : Evaluation) (fresh : f.Fresh) :
    Extends s { s with frames := (s.frames.add f).2 } where
  size := by simp
  frame j inside := .inl (Frames.get_add_of_lt inside f)
  fresh old := Frames.forall_get_add old fresh
  restored := rfl
  made := Nat.le_refl _

end Extends

theorem Loads.extends (loads : Loads s s') : Extends s s' where
  size := Nat.le_of_eq loads.size.symm
  frame j _ := loads.frame j
  fresh old j := (old j).of_indexed (loads.frame j)
  restored := loads.restored
  made := Nat.le_of_eq loads.made.symm

theorem Quiet.extends (quiet : Quiet s s') : Extends s s' :=
  quiet.loads.extends

namespace Eval

variable {setting : Setting} {s : Evaluation}

/-! ## Constant values -/

theorem fillHoles_constant (fetch fetch' : String → Eval Value)
    (texts : pieces.all (fun | .text _ => true | .hole _ => false) = true) :
    fillHoles fetch pieces = fillHoles fetch' pieces := by
  induction pieces with
  | nil => rfl
  | cons piece rest ih =>
    simp only [List.all_cons, Bool.and_eq_true] at texts
    cases piece with
    | text cs => simp only [fillHoles, ih texts.2]
    | hole name => simp at texts

mutual

theorem valueWith_constant (fetch fetch' : String → Eval Value) (v : Value)
    (constant : v.isConstant = true) : valueWith fetch v = valueWith fetch' v := by
  cases v with
  | keyword | dimension | color => simp only [valueWith]
  | quoted text quote =>
    simp only [Value.isConstant] at constant
    simp only [valueWith, fillHoles_constant fetch fetch' constant]
  | url inner | paren inner =>
    simp only [Value.isConstant] at constant
    simp only [valueWith, valueWith_constant fetch fetch' inner constant]
  | «variable» | indirect => simp [Value.isConstant] at constant
  | list separator items =>
    simp only [Value.isConstant] at constant
    simp only [valueWith, valuesWith_constant fetch fetch' items constant]
  | operation op lhs rhs =>
    simp only [Value.isConstant, Bool.and_eq_true] at constant
    simp only [valueWith, valueWith_constant fetch fetch' lhs constant.1,
      valueWith_constant fetch fetch' rhs constant.2]
  | call name args =>
    simp only [Value.isConstant] at constant
    simp only [valueWith, valuesWith_constant fetch fetch' args constant]

theorem valuesWith_constant (fetch fetch' : String → Eval Value) (vs : List Value)
    (constant : Value.areConstant vs = true) : valuesWith fetch vs = valuesWith fetch' vs := by
  cases vs with
  | nil => simp only [valuesWith]
  | cons v vs =>
    simp only [Value.areConstant, Bool.and_eq_true] at constant
    simp only [valuesWith, valueWith_constant fetch fetch' v constant.1,
      valuesWith_constant fetch fetch' vs constant.2]

end

/-- The computation has a result. -/
abbrev NeverFails {α : Type} (setting : Setting) (x : Eval α) : Prop :=
  ∀ s, Ends setting s x (fun _ _ => True) fun _ _ => False

namespace NeverFails

variable {α β : Type}

theorem pure (a : α) : NeverFails setting (Pure.pure a) :=
  fun _ => .pure trivial

theorem bind {x : Eval β} {next : β → Eval α} (first : NeverFails setting x)
    (then_ : ∀ b, NeverFails setting (next b)) : NeverFails setting (x >>= next) :=
  fun s => .seq (first s) (fun b s' _ => then_ b s')

theorem of_failsOnly (h : FailsOnly (fun _ => False) x) : NeverFails setting x :=
  fun s => (h.ends setting s).imp (fun _ _ _ => trivial)

end NeverFails

section

variable (lenient : setting.options.warningsAsErrors = false)

include lenient

theorem applyOperator_neverFails (op : Operator) (lhs rhs : Value) :
    NeverFails setting (applyOperator op lhs rhs) := fun s =>
  (applyOperator_ends op lhs rhs s).mono (fun _ _ _ => trivial) fun _ _ failed => by
    simp [Warned, lenient] at failed

theorem valueWith_neverFails (fetch : String → Eval Value) (constant : v.isConstant = true) :
    NeverFails setting (valueWith fetch v) := by
  have spine : Composes.Spine fun _ x _ => NeverFails setting x :=
    { pure := .pure
      bind := .bind
      inParens := fun h _ => .between (h _)
      applyOperator := applyOperator_neverFails lenient
      applyFunction := fun name args => .of_failsOnly (applyFunction_failsOnly name args) }
  rw [valueWith_constant fetch (fun _ => pure default) v constant]
  exact spine.valueWith_self (fun _ => .pure _) v

theorem value_constant (env : Environment) (constant : v.isConstant = true) (idle : s.Idle) :
    Ends setting s (value env v)
      (fun a s' => a = setting.constant v ∧ Quiet s s') (fun _ _ => False) := by
  have blank : value env v = value {} v := valueWith_constant _ _ v constant
  let start : Evaluation := {}
  have same : SameScope Eq True {} {} s start :=
    { one := .eq
      names := .nil
      size := fun _ => rfl
      parenDepth := idle.parenDepth
      defaultAnswer := idle.defaultAnswer
      evaluating := by rw [idle.evaluating]; exact .nil }
  have alike : Alike Eq True {} {} setting s start (value {} v) (value {} v) := value_alike v same
  have related := alike trivial
  have safe := valueWith_neverFails lenient (variableValue {}) constant
  have quiet := (value_quiet {} v).ends setting s
  rw [blank, Ends.iff_cases]
  refine ⟨fun a s' run => ⟨?_, quiet.result run⟩, fun f s' run => (safe s).failure run⟩
  rw [run] at related
  unfold Setting.constant
  rcases run' : value {} v setting start with ⟨g | b, t⟩
  · exact ((safe start).failure run').elim
  · rw [run'] at related
    exact related.1

theorem evaluatePrelude_constant (env : Environment) (span : Span)
    (constant : prelude.all Value.isConstant = true) (idle : s.Idle) :
    Ends setting s (evaluatePrelude env span prelude)
      (fun a s' => a = prelude.map setting.constant ∧ Quiet s s') (fun _ _ => False) := by
  cases prelude with
  | none => exact .pure ⟨rfl, .refl s⟩
  | some v =>
    simp only [Option.all_some] at constant
    refine .seq (.mapFailure (value_constant lenient env constant idle)) ?_
    rintro _ s' ⟨rfl, quiet⟩
    exact .pure ⟨rfl, quiet⟩

end

/-! ## Static rules -/

/-- The computation has the result `o`; it fails if there is none, or if it runs out of steps. -/
abbrev Settles (setting : Setting) (s : Evaluation) (x : Eval Output) (o : Option Output) : Prop :=
  Ends setting s x (fun a s' => o = some a ∧ Extends s s' ∧ s'.importer = s.importer)
    fun f _ => o = none ∨ f.cause = .exhausted

namespace Settles

theorem after (first : Ends setting s x ok fun _ _ => False)
    (moved : ∀ a s', ok a s' → Extends s s' ∧ s'.importer = s.importer)
    (then_ : ∀ a s', ok a s' → Settles setting s' (next a) o) :
    Settles setting s (x >>= next) o := by
  refine .bind first (fun a s' reached => ?_) nofun
  obtain ⟨extended, importer⟩ := moved a s' reached
  refine (then_ a s' reached).imp ?_
  rintro b t ⟨result, extendedToo, importerToo⟩
  exact ⟨result, extended.trans extendedToo, importerToo.trans importer⟩

theorem map {x : Eval Output} {f : Output → Output} (h : Settles setting s x o) :
    Settles setting s (x >>= fun a => pure (f a)) (o >>= fun a => pure (f a)) := by
  refine .bind h ?_ ?_
  · rintro a s' ⟨rfl, moved⟩
    exact .pure ⟨rfl, moved⟩
  · rintro g t (rfl | spent)
    · exact .inl rfl
    · exact .inr spent

theorem insideOf (h : Settles setting s x o) (frame : Unit → String) :
    Settles setting s (Eval.insideOf frame x) o :=
  .mapFailure h

theorem locatedAt (h : Settles setting s x o) (span : Span) :
    Settles setting s (Eval.locatedAt span x) o :=
  .mapFailure h

end Settles

def SettlesBlocks (setting : Setting) (evaluate : BlockEvaluator) : Prop :=
  ∀ {s : Evaluation} {env : Environment} {id : FrameId} (ctx : Context),
    env.innermost? = some id →
    Rule.areStatic ((s.frames.get id).entries.map (·.rule)) = true → s.Idle →
      Settles setting s (evaluate env ctx)
        (Rule.outputs? setting ctx ((s.frames.get id).entries.map (·.rule)))

theorem not_isImport_of_isStatic (static : r.isStatic = true) : Compiler.isImport r = false := by
  cases r <;> simp_all [Rule.isStatic, Compiler.isImport]

theorem openBlock_static {ok : α → Evaluation → Prop} {failed : Failure → Evaluation → Prop}
    (static : Rule.areStatic rules = true) (env : Environment) (site : Site) (nesting : Nat)
    {next : FrameId → Eval α}
    (then_ : ∀ t, s.frames.size < t.frames.size →
      (t.frames.get s.frames.size).entries.map (·.rule) = rules → Extends s t →
      t.importer = s.importer → Ends setting t (next s.frames.size) ok failed) :
    Ends setting s (addFrame (Frame.ofBlock site rules nesting) >>= fun id =>
      expandImports id (env.push id) false >>= fun _ => next id) ok failed := by
  let opened := Frame.ofBlock site rules nesting
  let t : Evaluation := { s with frames := (s.frames.add opened).2 }
  have frame : t.frames.get s.frames.size = opened := Frames.get_add_self _ _
  have plain : ∀ e ∈ (t.frames.get s.frames.size).entries, Compiler.isImport e.rule = false := by
    intro e member
    apply not_isImport_of_isStatic
    apply Rule.areStatic_iff.mp static
    rw [frame] at member
    rw [← Frame.ofBlock_rules site rules nesting]
    exact List.mem_map_of_mem member
  refine .bind_of_ok (addFrame_apply opened setting s) ?_
  refine .bind_of_ok (expandImports_of_no_import plain _ _) (then_ t ?_ ?_ ?_ rfl)
  · simp [t]
  · rw [frame]
    exact Frame.ofBlock_rules site rules nesting
  · exact Extends.add s (Frame.Fresh.ofPlaced _ _)

theorem enterBlock_static (static : Rule.areStatic rules = true) (env : Environment) (site : Site)
    (nesting : Nat) : Ends setting s (enterBlock env site rules nesting)
      (fun inner s' => inner = env.push s.frames.size ∧
        (s'.frames.get s.frames.size).entries.map (·.rule) = rules ∧ Extends s s' ∧
          s'.importer = s.importer)
      (fun _ _ => False) :=
  openBlock_static static env site nesting fun _ _ written extended importer =>
    .pure ⟨rfl, written, extended, importer⟩

section Blocks

variable {evaluate : BlockEvaluator}

theorem evaluate_entered (settles : SettlesBlocks setting evaluate) {rules : List Rule}
    (static : Rule.areStatic rules = true) {env : Environment} {id : FrameId}
    (written : (s.frames.get id).entries.map (·.rule) = rules) (ctx : Context) (idle : s.Idle) :
    Settles setting s (evaluate (env.push id) ctx) (Rule.outputs? setting ctx rules) := by
  have settled := @settles s (env.push id) id ctx rfl
  rw [written] at settled
  exact settled static idle

theorem evaluateRuleset_settles (settles : SettlesBlocks setting evaluate) (env : Environment)
    (ctx : Context) (e : Entry) (selectors : List Selector) (span : Span)
    (static : Rule.areStatic rules = true) (idle : s.Idle) :
    Settles setting s (evaluateRuleset evaluate env ctx e selectors rules span)
      (Rule.output? setting ctx (.ruleset selectors rules span)) := by
  unfold evaluateRuleset Rule.output?
  cases combined : Selector.combine ctx.selectors selectors setting.options.maxSelectorExpansions with
  | error error =>
    have failed : effectiveSelectors ctx.selectors selectors span setting s =
        (.error { cause := .selectorCombination error, span := some span }, s) := by
      simp only [effectiveSelectors, bind_apply, Eval.setting, combined, Eval.fail]
    unfold Settles Ends
    rw [bind_apply, failed]
    exact .inl (by simp [combined, Except.toOption])
  | ok effective =>
    have answered : Ends setting s (effectiveSelectors ctx.selectors selectors span)
        (fun a s' => a = effective ∧ Quiet s s') fun _ _ => False := by
      refine .ofSetting ?_
      dsimp only
      rw [combined]
      dsimp only
      split
      · exact .pure ⟨rfl, .refl s⟩
      · exact .change (.pure ⟨rfl, { Quiet.refl s with }⟩)
    refine Settles.after answered (fun _ s' h => ⟨h.2.extends, h.2.importer⟩) ?_
    rintro _ t ⟨rfl, quiet⟩
    dsimp only
    rw [combined]
    refine Settles.after (.mapFailure (enterBlock_static static env e.site e.nesting))
      (fun _ _ h => h.2.2) ?_
    rintro _ u ⟨rfl, written, extended, -⟩
    have idle' := (idle.of_restored quiet.restored).of_restored extended.restored
    exact ((evaluate_entered settles static written _ idle').insideOf _).map

section

variable (lenient : setting.options.warningsAsErrors = false)
  (settles : SettlesBlocks setting evaluate) (env : Environment) (ctx : Context)

include lenient settles env ctx

theorem evaluateMedia_settles (e : Entry) {features : Value} (span : Span)
    (constant : features.isConstant = true) (static : Rule.areStatic rules = true) (idle : s.Idle) :
    Settles setting s (evaluateMedia evaluate env ctx e features rules span)
      (Rule.output? setting ctx (.media features rules span)) := by
  unfold evaluateMedia Rule.output?
  refine Settles.after (.mapFailure (value_constant lenient env constant idle))
    (fun _ s' h => ⟨h.2.extends, h.2.importer⟩) ?_
  rintro _ t ⟨rfl, quiet⟩
  refine Settles.after (enterBlock_static static env e.site e.nesting) (fun _ _ h => h.2.2) ?_
  rintro _ u ⟨rfl, written, extended, -⟩
  have idle' := (idle.of_restored quiet.restored).of_restored extended.restored
  dsimp only
  exact (evaluate_entered settles static written _ idle').map

theorem evaluateAtBlock_settles (e : Entry) (name : String) {prelude : Option Value} (span : Span)
    (constant : prelude.all Value.isConstant = true) (static : Rule.areStatic rules = true)
    (idle : s.Idle) : Settles setting s (evaluateAtBlock evaluate env ctx e name prelude rules span)
      (Rule.output? setting ctx (.atBlock name prelude rules span)) := by
  unfold evaluateAtBlock Rule.output?
  refine Settles.after (evaluatePrelude_constant lenient env span constant idle)
    (fun _ s' h => ⟨h.2.extends, h.2.importer⟩) ?_
  rintro _ t ⟨rfl, quiet⟩
  refine Settles.after (enterBlock_static static env e.site e.nesting) (fun _ _ h => h.2.2) ?_
  rintro _ u ⟨rfl, written, extended, -⟩
  have idle' := (idle.of_restored quiet.restored).of_restored extended.restored
  exact ((evaluate_entered settles static written _ idle').insideOf _).map

theorem evaluateRule_settles {e : Entry} (static : e.rule.isStatic = true) (idle : s.Idle) :
    Settles setting s (evaluateRule evaluate env ctx e) (Rule.output? setting ctx e.rule) := by
  unfold evaluateRule
  cases rule : e.rule with
  | declaration d =>
    rw [rule] at static
    simp only [Rule.isStatic] at static
    have spanned : Ends setting s (setSpan d.span)
        (fun _ s' => Extends s s' ∧ s'.importer = s.importer) fun _ _ => False :=
      ⟨{ Extends.refl s with }, rfl⟩
    refine Settles.after spanned (fun _ _ moved => moved) fun _ t moved => ?_
    have evaluated := value_constant lenient env static (idle.of_restored moved.1.restored)
    refine .bind (.mapFailure evaluated) ?_ fun _ _ => False.elim
    rintro _ u ⟨rfl, quiet⟩
    exact Ends.pure ⟨by simp only [Rule.output?], quiet.extends, quiet.importer⟩
  | ruleset selectors rules span =>
    rw [rule] at static
    simp only [Rule.isStatic] at static
    exact evaluateRuleset_settles settles env ctx e selectors span static idle
  | media features rules span =>
    rw [rule] at static
    simp only [Rule.isStatic, Bool.and_eq_true] at static
    exact evaluateMedia_settles lenient settles env ctx e span static.1 static.2 idle
  | atStatement name prelude span =>
    rw [rule] at static
    simp only [Rule.isStatic] at static
    refine .bind (evaluatePrelude_constant lenient env span static idle) ?_ nofun
    rintro _ t ⟨rfl, quiet⟩
    exact Ends.pure ⟨by simp only [Rule.output?], quiet.extends, quiet.importer⟩
  | atBlock name prelude rules span =>
    rw [rule] at static
    simp only [Rule.isStatic, Bool.and_eq_true] at static
    exact evaluateAtBlock_settles lenient settles env ctx e name span static.1 static.2 idle
  | «variable» | mixin | call | fileImport =>
    rw [rule] at static
    simp [Rule.isStatic] at static

end

theorem not_call_of_isStatic {r : Rule} (static : r.isStatic = true) (c : MixinCall) :
    r ≠ .call c := by
  rintro rfl
  simp [Rule.isStatic] at static

/-- Static rules contribute what is read off them, whatever the calls behind them expand to. -/
theorem evaluateEntries_settles (lenient : setting.options.warningsAsErrors = false)
    (settles : SettlesBlocks setting evaluate) (env : Environment) (ctx : Context)
    {es : List Entry} (static : Rule.areStatic (es.map (·.rule)) = true)
    (expansions : List Output) (idle : s.Idle) :
    Settles setting s (evaluateEntries evaluate env ctx es expansions)
      (Rule.outputs? setting ctx (es.map (·.rule))) := by
  induction es generalizing s with
  | nil => exact .pure ⟨rfl, .refl s, rfl⟩
  | cons e es ih =>
    simp only [List.map_cons, Rule.areStatic, Bool.and_eq_true] at static
    simp only [List.map_cons, Rule.outputs?]
    unfold evaluateEntries
    split
    · rename_i isCall
      exact absurd isCall (not_call_of_isStatic static.1 _)
    · have own := evaluateRule_settles lenient settles env ctx static.1 idle
      refine .bind own ?_ ?_
      · rintro a t ⟨result, extended, importer⟩
        rw [result]
        refine ((ih static.2 (idle.of_restored extended.restored)).map).imp ?_
        rintro b u ⟨result, extendedToo, importerToo⟩
        exact ⟨result, extended.trans extendedToo, importerToo.trans importer⟩
      · rintro f t (nothing | spent)
        · exact .inl (by rw [nothing]; rfl)
        · exact .inr spent

end Blocks

theorem blockWithin_settles (lenient : setting.options.warningsAsErrors = false) (n : Nat) :
    SettlesBlocks setting (blockWithin n) := by
  induction n with
  | zero => exact fun _ _ _ _ => .failWith (.inr rfl)
  | succ n ih =>
    intro s env id ctx innermost static idle
    have uncalled : ∀ e ∈ (s.frames.get id).entries, ∀ c, e.rule ≠ .call c := by
      intro e member
      exact not_call_of_isStatic (Rule.areStatic_iff.mp static _ (List.mem_map_of_mem member))
    unfold blockWithin blockWith
    rw [innermost]
    refine .bind_of_ok rfl ?_
    rw [expandCalls_of_no_call _ _ uncalled]
    exact .bind_of_ok rfl (.bind_of_ok rfl
      (evaluateEntries_settles lenient ih env ctx static [] idle))

/-! ## Static bodies -/

theorem exportsOf_static (env : Environment) (static : Rule.areStatic (es.map (·.rule)) = true) :
    exportsOf env es = pure [] := by
  induction es with
  | nil => rfl
  | cons e es ih =>
    simp only [List.map_cons, Rule.areStatic, Bool.and_eq_true] at static
    unfold exportsOf
    split
    · rename_i rule
      simp [rule, Rule.isStatic] at static
    · rename_i rule
      simp [rule, Rule.isStatic] at static
    · exact ih static.2

theorem exportTo_static (caller : Option FrameId) (bodyEnv : Environment) (params : FrameId)
    (static : Rule.areStatic ((s.frames.get body).entries.map (·.rule)) = true) :
    Ends setting s (exportTo caller bodyEnv params body)
      (fun _ s' => Extends s s' ∧ s'.importer = s.importer) fun _ _ => False := by
  unfold exportTo
  cases caller with
  | none => exact .pure ⟨.refl s, rfl⟩
  | some caller =>
    dsimp only
    refine .bind_of_ok rfl ?_
    rw [exportsOf_static bodyEnv static]
    refine .bind_of_ok rfl (.bind_of_ok rfl ⟨?_, rfl⟩)
    have unchanged : ∀ j, (s.frames.modify caller fun f =>
        f.prependExports [] [params, body] (s.frames.get body)).get j = s.frames.get j := by
      intro j
      by_cases inside : caller < s.frames.size
      · by_cases same : j = caller
        · subst same
          exact Frames.get_modify_self inside _
        · exact Frames.get_modify_of_ne _ same _
      · exact Frames.get_modify_of_size_le (Nat.le_of_not_lt inside) _ j
    exact
      { Extends.refl s with
        size := Nat.le_of_eq (Frames.size_modify ..).symm
        frame := fun j _ => .inl (unchanged j)
        fresh := fun fresh j => by
          dsimp only
          rw [unchanged j]
          exact fresh j }

section Bodies

variable {evaluate : BlockEvaluator} (settles : SettlesBlocks setting evaluate)

include settles

theorem evaluateBody_settles (ctx : Context) (nesting : Nat) {m : MatchedCandidate}
    (static : Rule.areStatic m.callable.rules = true) (idle : s.Idle) :
    Ends setting s (evaluateBody evaluate ctx nesting m)
      (fun result s' => Rule.outputs? setting ctx m.callable.rules = some result.2 ∧ Extends s s' ∧
        s'.importer = s.importer ∧
          (s'.frames.get result.1).entries.map (·.rule) = m.callable.rules)
      fun f _ => Rule.outputs? setting ctx m.callable.rules = none ∨ f.cause = .exhausted := by
  refine openBlock_static static m.scope m.callable.site nesting ?_
  intro t inside written extended importer
  refine .seq (evaluate_entered settles static written ctx (idle.of_restored extended.restored))
    ?_
  rintro o u ⟨result, extendedToo, importerToo⟩
  refine .pure ⟨result, extended.trans extendedToo, importerToo.trans importer, ?_⟩
  rw [(extendedToo.frame _ inside).entries]
  exact written

theorem expandBody_settles (ctx : Context) (nesting : Nat) (caller : Option FrameId)
    {m : MatchedCandidate} (static : Rule.areStatic m.callable.rules = true) (idle : s.Idle) :
    Settles setting s (expandBody evaluate ctx nesting caller m)
      (if setting.options.maxMixinDepth < s.expanding.count m.callable.site then none
        else Rule.outputs? setting ctx m.callable.rules) := by
  unfold expandBody
  refine .ofState (.ofSetting ?_)
  dsimp only
  split
  · exact .failWith (.inl rfl)
  · have begun : Ends setting s (beginBody m.callable.site)
        (fun _ s' => Extends s s' ∧ s'.importer = s.importer) fun _ _ => False :=
      ⟨{ Extends.refl s with }, rfl⟩
    refine Settles.after begun (fun _ _ moved => moved) fun _ t moved => ?_
    have logged : Ends setting t
        (emit (.expanding m.callable.name (s.expanding.count m.callable.site)))
        (fun _ t' => Extends t t' ∧ t'.importer = t.importer) fun _ _ => False :=
      ⟨{ Extends.refl t with }, rfl⟩
    refine Settles.after logged (fun _ _ moved => moved) fun _ u movedToo => ?_
    have idle := (idle.of_restored moved.1.restored).of_restored movedToo.1.restored
    refine .seq (evaluateBody_settles settles ctx nesting static idle) ?_
    rintro ⟨body, o⟩ v ⟨result, extended, importer, written⟩
    have exported : Ends setting v (exportTo caller (m.scope.push body) m.params body) _ _ :=
      exportTo_static caller (m.scope.push body) m.params (by rw [written]; exact static)
    refine .bind exported ?_ fun _ _ => False.elim
    rintro _ w ⟨extendedToo, importerToo⟩
    exact .pure ⟨result, extended.trans extendedToo, importerToo.trans importer⟩

/-- A static callable contributes what is read off its body, unless it is expanded too often. -/
theorem expand_settles (ctx : Context) (nesting : Nat) (caller : Option FrameId)
    (static : Rule.areStatic m.callable.rules = true) (idle : s.Idle) : Settles setting s
      (whileExpanding m.callable.site (expandBody evaluate ctx nesting caller m))
      (if setting.options.maxMixinDepth < (m.callable.site :: s.expanding).count m.callable.site
        then none else Rule.outputs? setting ctx m.callable.rules) := by
  let entered : Evaluation := { s with expanding := m.callable.site :: s.expanding }
  have settled : Settles setting entered (expandBody evaluate ctx nesting caller m) _ :=
    expandBody_settles settles ctx nesting caller static { idle with }
  refine .between (settled.imp ?_)
  rintro a s' ⟨result, extended, importer⟩
  refine ⟨result, { extended with restored := ?_ }, importer⟩
  have parts := extended.restored
  simp only [Evaluation.scopedPart, Scoped.mk.injEq] at parts ⊢
  simp [parts, entered]

end Bodies

end Eval

end StyleResolution
