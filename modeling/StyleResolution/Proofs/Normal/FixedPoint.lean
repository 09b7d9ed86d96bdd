import StyleResolution.Proofs.Evaluation.Termination
import StyleResolution.Proofs.Import.Unmoved
import StyleResolution.Proofs.Normal.Sheet

/-! # Resolving results again

A result is in normal form, its values are settled and its imports stay. Resolving it again opens it
as it is, evaluates every value to itself, and puts every rule where it stood: rulesets and media
blocks have nothing to move out of them, and the root is sorted already.
-/

namespace StyleResolution

open Eval Compiler

namespace Output

def ofResolved (rules : List Rule) : Output :=
  ⟨rules.filterMap Rule.asDeclaration, rules.filter (·.asDeclaration.isNone)⟩

theorem ofResolved_append (rules others : List Rule) :
    ofResolved (rules ++ others) = ofResolved rules ++ ofResolved others := by
  unfold ofResolved
  rw [List.filterMap_append, List.filter_append]
  rfl

theorem ofResolved_body {ds : List Declaration} {rules : List Rule}
    (bare : ∀ r ∈ rules, r.asDeclaration = none) :
    ofResolved (ds.map .declaration ++ rules) = ⟨ds, rules⟩ := by
  have none : ∀ ds : List Declaration,
      (ds.map Rule.declaration).filter (·.asDeclaration.isNone) = [] := by
    intro ds
    simp [Rule.asDeclaration]
  have others : rules.filterMap Rule.asDeclaration = [] := by simpa using bare
  have kept : rules.filter (·.asDeclaration.isNone) = rules := by simpa using bare
  simp only [ofResolved, List.filterMap_append, Rule.filterMap_declarations, others,
    List.filter_append, none, kept, List.append_nil, List.nil_append]

end Output

/-- A resolved rule comes out of the context as it is. -/
structure Context.Suits (ctx : Context) (r : Rule) : Prop where
  important : ctx.important = false
  selectors : ctx.selectors = [] ∨ r.asDeclaration ≠ none
  media : ctx.media = none ∨ isMedia r = false

/-- The import stays in the output, and its values are as `V` says. -/
def Import.Stays (V : Value → Prop) (i : Import) : Prop :=
  i.Kept V ∧ ∀ v ∈ i.media, V v

namespace Eval

variable {setting : Setting} {V : Value → Prop} {s : Evaluation}

def Stands (env : Environment) (rules : List Rule) (s : Evaluation) : Prop :=
  s.defaultAnswer = none ∧
    ∃ id, env.innermost? = some id ∧ (s.frames.get id).entries.map (·.rule) = rules

def Restates (setting : Setting) (V : Value → Prop) (evaluate : BlockEvaluator) : Prop :=
  ∀ {env ctx rules s}, Stands env rules s →
    (∀ r ∈ rules, r.Normal V (Import.Stays V) ∧ ctx.Suits r) →
    Succeeds setting s (evaluate env ctx) fun o s' =>
      o = Output.ofResolved rules ∧ s'.defaultAnswer = none

theorem final_of_normal (site : Site) (nesting : Nat)
    (normal : ∀ r ∈ rules, r.Normal V (Import.Stays V)) :
    ∀ e ∈ (Frame.ofBlock site rules nesting).entries, e.Final V := by
  intro e member i isImport
  have inside : e.rule ∈ rules := by
    rw [← Frame.ofBlock_rules site rules nesting]
    exact List.mem_map_of_mem member
  have own := normal e.rule inside
  rw [isImport] at own
  cases own with
  | fileImport stays => exact stays.1

theorem body_suits {ds : List Declaration} {rules : List Rule} {ctx : Context}
    (own : ∀ d ∈ ds, V d.value) (important : ctx.important = false)
    (others : ∀ r ∈ rules, r.Normal V (Import.Stays V) ∧ ctx.Suits r) :
    ∀ r ∈ ds.map Rule.declaration ++ rules, r.Normal V (Import.Stays V) ∧ ctx.Suits r := by
  intro r member
  cases List.mem_append.mp member with
  | inl declared =>
    obtain ⟨d, inside, rfl⟩ := List.mem_map.mp declared
    exact ⟨.declaration (own d inside), important, .inr (by simp [Rule.asDeclaration]), .inr rfl⟩
  | inr other => exact others r other

theorem effectiveSelectors_answers (selectors : List Selector) (span : Span) :
    Answers setting (effectiveSelectors [] selectors span) selectors :=
  ⟨fun idle => ⟨rfl, idle⟩⟩

section

variable (fixed : ∀ env v, V v → Answers setting (value env v) v)

include fixed

theorem evaluatePrelude_answers (env : Environment) (span : Span) (own : ∀ v ∈ prelude, V v) :
    Answers setting (evaluatePrelude env span prelude) prelude := by
  cases prelude with
  | none => exact .pure _
  | some v => exact .bind ((fixed env v (own v rfl)).locatedAt span) (.pure _)

theorem enterBlock_stands (env : Environment) (site : Site) (nesting : Nat)
    (normal : ∀ r ∈ rules, r.Normal V (Import.Stays V)) (idle : s.defaultAnswer = none) :
    Succeeds setting s (enterBlock env site rules nesting) fun inner s' => Stands inner rules s' := by
  refine .bind_of_ok (addFrame_apply _ setting s) ?_
  have unmoved : Unmoved s.frames.size (Frame.ofBlock site rules nesting).entries
      { s with frames := (s.frames.add (Frame.ofBlock site rules nesting)).2 } :=
    ⟨by simp, by rw [Frames.get_add_self], idle⟩
  refine Ends.seq (expandImports_unmoved fixed (final_of_normal site nesting normal) _ false unmoved) ?_
  intro _ t unmoved
  refine .pure ⟨unmoved.idle, s.frames.size, rfl, ?_⟩
  rw [unmoved.entries, Frame.ofBlock_rules]

variable {evaluate : BlockEvaluator} (restates : Restates setting V evaluate)

include restates

theorem evaluateRuleset_restates (env : Environment) (top : ctx.selectors = [])
    (important : ctx.important = false) (e : Entry) (selectors : List Selector) (span : Span)
    (nonempty : ds ≠ []) (own : ∀ d ∈ ds, V d.value) :
    Answers setting (evaluateRuleset evaluate env ctx e selectors (ds.map .declaration) span)
      (.ofRules [.ruleset selectors (ds.map .declaration) span]) := by
  have inside := @body_suits V ds [] { ctx with selectors } own important (by simp)
  have same := @Output.ofResolved_body ds [] (by simp)
  rw [List.append_nil] at inside same
  unfold evaluateRuleset
  rw [top]
  refine .bind (effectiveSelectors_answers selectors span) ⟨fun idle => ?_⟩
  refine Ends.seq ((enterBlock_stands fixed env e.site e.nesting
    (fun r member => (inside r member).1) idle).insideOf _) ?_
  intro inner t stands
  refine Ends.seq ((restates stands inside).insideOf _) ?_
  intro o u ended
  obtain ⟨restated, idle⟩ := ended
  rw [restated, same]
  refine .pure ⟨?_, idle⟩
  simp [rulesetOf, nonempty, Output.declarationRules]

theorem evaluateMedia_restates (env : Environment) {ctx : Context} (top : ctx.selectors = [])
    (outermost : ctx.media = none) (important : ctx.important = false) (e : Entry)
    (own : V features) {ds : List Declaration} (span : Span)
    (nonempty : ds.map .declaration ++ rules ≠ []) (declarations : ∀ d ∈ ds, V d.value)
    (bare : ∀ r ∈ rules, r.asDeclaration = none ∧ isMedia r = false)
    (normal : ∀ r ∈ rules, r.Normal V (Import.Stays V)) :
    Answers setting (evaluateMedia evaluate env ctx e features (ds.map .declaration ++ rules) span)
      (.ofRules [.media features (ds.map .declaration ++ rules) span]) := by
  have inside := @body_suits V ds rules { ctx with media := some features } declarations important
    fun r member => ⟨normal r member, important, .inl top, .inr (bare r member).2⟩
  have same := @Output.ofResolved_body ds rules fun r member => (bare r member).1
  refine .bind ((fixed env features own).locatedAt span) ⟨fun idle => ?_⟩
  rw [outermost]
  refine Ends.seq (enterBlock_stands fixed env e.site e.nesting
    (fun r member => (inside r member).1) idle) ?_
  intro inner t stands
  refine Ends.seq (restates stands inside) ?_
  intro o u ended
  obtain ⟨restated, idle⟩ := ended
  rw [restated, same, top]
  refine .pure ⟨?_, idle⟩
  -- No media block has to move out, so that all rules are kept.
  have kept : rules.filter (!isMedia ·) = rules := by simpa using fun r member => (bare r member).2
  have none : rules.filter isMedia = [] := by simpa using fun r member => (bare r member).2
  simp [mediaBody, kept, none, nonempty, joinFeatures, Output.declarationRules]

theorem evaluateAtBlock_restates (env : Environment) {ctx : Context}
    (important : ctx.important = false) (e : Entry) (name : String) (own : ∀ v ∈ prelude, V v)
    {ds : List Declaration} (span : Span) (declarations : ∀ d ∈ ds, V d.value)
    (bare : ∀ r ∈ rules, r.asDeclaration = none) (normal : ∀ r ∈ rules, r.Normal V (Import.Stays V)) :
    Answers setting
      (evaluateAtBlock evaluate env ctx e name prelude (ds.map .declaration ++ rules) span)
      (.ofRules [.atBlock name prelude (ds.map .declaration ++ rules) span]) := by
  have inside := @body_suits V ds rules { important := ctx.important } declarations important
    fun r member => ⟨normal r member, important, .inl rfl, .inl rfl⟩
  have same := @Output.ofResolved_body ds rules bare
  refine .bind (evaluatePrelude_answers fixed env span own) ⟨fun idle => ?_⟩
  refine Ends.seq (enterBlock_stands fixed env e.site e.nesting
    (fun r member => (inside r member).1) idle) ?_
  intro inner t stands
  refine Ends.seq ((restates stands inside).insideOf _) ?_
  intro o u ended
  obtain ⟨restated, idle⟩ := ended
  rw [restated, same]
  exact .pure ⟨rfl, idle⟩

theorem evaluateRule_restates (env : Environment) (ctx : Context) (e : Entry)
    (normal : e.rule.Normal V (Import.Stays V)) (suits : ctx.Suits e.rule) :
    Answers setting (evaluateRule evaluate env ctx e) (Output.ofResolved [e.rule]) := by
  unfold evaluateRule
  generalize e.rule = r at normal suits
  have top : r.asDeclaration = none → ctx.selectors = [] := fun bare =>
    suits.selectors.resolve_right fun declared => declared bare
  cases normal with
  | @declaration d own =>
    have spanned : Answers setting (setSpan d.span) () := ⟨fun idle => ⟨rfl, idle⟩⟩
    refine .bind spanned (.bind ((fixed env d.value own).locatedAt d.span) ?_)
    rw [suits.important, Bool.or_false]
    exact .pure _
  | @ruleset selectors ds span nonempty own =>
    exact evaluateRuleset_restates fixed restates env (top rfl) suits.important e selectors span
      nonempty own
  | @fileImport i stays =>
    exact .bind ((fixed env i.path stays.1.path).locatedAt i.span)
      (.bind (evaluatePrelude_answers fixed env i.span stays.2) (.pure _))
  | @media features ds rules span own nonempty declarations bare inner =>
    have outermost : ctx.media = none := suits.media.resolve_right (by simp [isMedia])
    exact evaluateMedia_restates fixed restates env (top rfl) outermost suits.important e own span
      nonempty declarations bare inner
  | atStatement own => exact .bind (evaluatePrelude_answers fixed env _ own) (.pure _)
  | @atBlock name prelude ds rules span own declarations bare inner =>
    exact evaluateAtBlock_restates fixed restates env suits.important e name own span declarations
      bare inner

theorem evaluateEntries_restates (env : Environment) (ctx : Context)
    (resolved : ∀ e ∈ es, e.rule.Normal V (Import.Stays V) ∧ ctx.Suits e.rule) :
    Answers setting (evaluateEntries evaluate env ctx es [])
      (Output.ofResolved (es.map (·.rule))) := by
  induction es with
  | nil => exact .pure _
  | cons e es ih =>
    simp only [List.forall_mem_cons] at resolved
    have own := evaluateRule_restates fixed restates env ctx e resolved.1.1 resolved.1.2
    change Answers setting _ (Output.ofResolved ([e.rule] ++ es.map (·.rule)))
    rw [Output.ofResolved_append]
    unfold evaluateEntries
    split
    · rename_i none
      cases none
    · exact .bind own (.bind (ih resolved.2) (.pure _))

theorem blockWith_restates : Restates setting V (blockWith evaluate) := by
  intro env ctx rules s stands resolved
  obtain ⟨idle, id, innermost, same⟩ := stands
  have each : ∀ e ∈ (s.frames.get id).entries,
      e.rule.Normal V (Import.Stays V) ∧ ctx.Suits e.rule := by
    intro e member
    exact resolved e.rule (same ▸ List.mem_map_of_mem member)
  have calls : expandCalls evaluate env ctx (s.frames.get id).entries = pure [] := by
    apply expandCalls_of_no_call
    intro e member c isCall
    have normal := (each e member).1
    rw [isCall] at normal
    cases normal
  unfold blockWith
  rw [innermost]
  refine .ofState ?_
  rw [calls, pure_bind, ← same]
  exact .ofState ((evaluateEntries_restates fixed restates env ctx each).ends idle)

omit restates in
theorem blockWithin_restates (n : Nat) : Restates setting V (blockWithin n) := by
  induction n with
  | zero => exact fun _ _ => .failWith rfl
  | succ n ih => exact blockWith_restates fixed ih

end

end Eval

namespace Compiler

open Eval (Answers Succeeds Ends Stands)

variable {setting : Setting} {V : Value → Prop} {sheet : Stylesheet}

theorem registerSheet_answers (sheet : Stylesheet) : Answers setting (registerSheet sheet) () := by
  unfold registerSheet
  split
  · constructor
    intro s idle
    refine .ofSetting ?_
    split
    · exact ⟨rfl, idle⟩
    · exact ⟨rfl, idle⟩
  · exact .pure _

theorem arrange_ofResolved (bare : ∀ r ∈ o.rules, r.asDeclaration = none) :
    arrange (Output.ofResolved (arrange o)) = arrange o := by
  have opened : Output.ofResolved (arrange o) =
      ⟨o.declarations, o.rules.filter isImport ++ o.rules.filter (!isImport ·)⟩ := by
    have imports := @Output.ofResolved_body [] (o.rules.filter isImport) fun r member =>
      bare r (List.mem_filter.mp member).1
    have rest := @Output.ofResolved_body o.declarations (o.rules.filter (!isImport ·)) fun r member =>
      bare r (List.mem_filter.mp member).1
    rw [List.map_nil, List.nil_append] at imports
    unfold arrange Output.declarationRules
    rw [List.append_assoc, Output.ofResolved_append, imports, rest]
    rfl
  rw [opened]
  simp [arrange, Output.declarationRules, List.filter_filter]

section

variable (fixed : ∀ env v, V v → Answers setting (value env v) v)

include fixed

theorem openSheet_stands (normal : ∀ r ∈ sheet.rules, r.Normal V (Import.Stays V)) :
    Succeeds setting {} (openSheet sheet) fun env s => Stands env sheet.rules s := by
  refine Ends.seq ((registerSheet_answers sheet).ends rfl) ?_
  intro _ t ended
  obtain ⟨-, idle⟩ := ended
  refine .bind_of_ok (addFrame_apply _ setting t) (.ofSetting ?_)
  have final := final_of_normal (.written 0 []) 0 normal
  have unmoved : Eval.Unmoved t.frames.size (Frame.ofBlock (.written 0 []) sheet.rules 0).entries
      { t with frames := (t.frames.add (Frame.ofBlock (.written 0 []) sheet.rules 0)).2 } :=
    ⟨by simp, by rw [Frames.get_add_self], idle⟩
  refine Ends.seq (expandImports_unmoved fixed final _ true unmoved) ?_
  intro _ u unmoved
  refine Ends.seq (replayDeferred_unmoved fixed final _ unmoved) ?_
  intro _ v unmoved
  refine .pure ⟨unmoved.idle, t.frames.size, rfl, ?_⟩
  rw [unmoved.entries, Frame.ofBlock_rules]

theorem resolveSheet_restates (rules : sheet.rules = arrange o)
    (normal : o.Normal V (Import.Stays V)) :
    Succeeds setting {} (resolveSheet sheet) fun result _ => result = sheet.rules := by
  have each : ∀ r ∈ sheet.rules, r.Normal V (Import.Stays V) := rules ▸ normal.arranged
  refine Ends.seq (openSheet_stands fixed each) ?_
  intro env s stands
  refine .ofSetting (.ofSetting ?_)
  refine Ends.seq (blockWithin_restates fixed _ stands fun r member =>
    ⟨each r member, rfl, .inl rfl, .inl rfl⟩) ?_
  intro output t ended
  obtain ⟨restated, -⟩ := ended
  refine .pure ?_
  rw [restated, rules]
  exact arrange_ofResolved normal.bare

end

end Compiler

/-! ## Results -/

theorem Output.Normal.restrict {V W : Value → Prop} {o : Output}
    (normal : o.Normal V (Import.Stays V))
    (values : ∀ p ∈ Rule.partsOf (arrange o), ∀ v ∈ p.values, W v) :
    o.Normal (fun v => V v ∧ W v) (Import.Stays fun v => V v ∧ W v) := by
  have arranged : ∀ r ∈ o.rules, r ∈ arrange o := by
    intro r member
    cases isImport : isImport r <;> simp [arrange, member, isImport]
  refine ⟨?_, normal.bare, ?_⟩
  · intro d member
    have inside : .declaration d ∈ arrange o := by
      simp [arrange, Output.declarationRules, member]
    exact ⟨normal.declarations d member,
      values _ (Rule.mem_partsOf_of_mem inside) _ (List.mem_singleton_self _)⟩
  · intro r member
    apply (normal.rules r member).restrict
    · intro i ended values
      obtain ⟨kept, media⟩ := ended
      simp only [Rule.values, List.forall_mem_cons, Option.mem_toList] at values
      exact ⟨⟨⟨kept.path, values.1⟩, kept.plain⟩, fun v member => ⟨media v member, values.2 v member⟩⟩
    intro p part
    exact values p (Rule.mem_partsOf.mpr ⟨r, arranged r member, part⟩)

theorem Eval.resolving_settled {setting : Setting} (calculating : setting.options.strictMath = false)
    (bare : setting.functions = FunctionLibrary.none) :
    let V := Value.Evaluated setting
    Eval.Resolving setting V (Import.Kept V) (Import.Stays V) := by
  have closed := Value.closed_evaluated (libraryLasts_of_none bare)
  refine ⟨closed, fun inside => expandImports_final closed inside _, ?_⟩
  intro env i kept
  apply Eval.Unguarded.bind (((value_unguarded closed env i.path).and
    (value_refills calculating bare env kept.path)).mapFailure _)
  intro path ended
  obtain ⟨evaluated, refilled⟩ := ended
  apply Eval.Unguarded.bind (evaluatePrelude_unguarded closed env i.span i.media)
  intro media others
  have plain := isPassThrough_of_filled refilled.reference kept.plain
  exact .pure (.single rfl (.fileImport ⟨⟨evaluated, plain⟩, others⟩))

/-- Resolving a result again changes nothing: without strict math and functions, if no string in
    what a sheet compiles to opens a hole, then it compiles, and to itself.

    The condition is that the root never has more rules than there are locations of deferred
    imports. -/
theorem resolving_again_changes_nothing (setting : Setting) (sheet : Stylesheet)
    (calculating : setting.options.strictMath = false)
    (bare : setting.functions = FunctionLibrary.none)
    (fits : ∀ m ∈ (Tracked.openSheet sheet setting {} {}).moments,
      m.rules.length ≤ DeferredImport.maxLocation)
    (result : Compilation) (ok : (compile setting sheet).outcome = .ok result)
    (filled : ∀ r ∈ Rule.partsOf result.sheet.rules, ∀ v ∈ r.values, v.hasHole = false) :
    ∃ again, (compile setting result.sheet).outcome = .ok again ∧
      again.sheet = result.sheet := by
  have closed := Value.closed_evaluated (Eval.libraryLasts_of_none bare)
  have remaining : ∀ {env s}, openSheet sheet setting {} = (.ok env, s) →
      s.Holds (Import.Kept (Value.Evaluated setting)) 0 := by
    intro env s opened
    obtain ⟨-, rfl, -⟩ := (openSheet_root sheet).result opened
    exact openSheet_final closed fits opened
  obtain ⟨s, run, -⟩ := compile_ok ok
  obtain ⟨os, -, arranged, normal⟩ :=
    resolveSheet_normal (resolving_settled calculating bare) remaining run
  rw [arranged] at filled
  have fixed : ∀ env v, v.Evaluated setting ∧ v.hasHole = false →
      Eval.Answers setting (value env v) v :=
    fun env v h => value_answers calculating env h.1 h.2
  have restated := resolveSheet_restates fixed arranged (normal.restrict filled)
  have finishes := @Compiler.resolveSheet_finishes setting result.sheet
  unfold compile compileFrom Eval.run
  rcases again : resolveSheet result.sheet setting {} with ⟨failure | rules, t⟩
  · exact absurd (restated.failure again) (Eval.Ends.failure finishes again)
  · obtain rfl := restated.result again
    exact ⟨_, rfl, rfl⟩

/-- A ruleset that calls a mixin with a media block, values that stay as they are, and an import
    whose path waits for a variable. -/
def lastingSheet : Stylesheet :=
  ⟨none,
    [.fileImport ⟨.url (.quoted "@{x}.css" (some '"')), {}, some (.variable "x"), Span.none⟩,
      .mixin ⟨".m", [.positional "y"], none, Span.none⟩
        [.declaration ⟨"p", .call "f" [.variable "y"], false, Span.none⟩,
          .media (.variable "x")
            [.declaration ⟨"q", .paren (.operation .divide (.variable "x") (.variable "y")), false,
              Span.none⟩] Span.none],
      .ruleset [⟨[⟨.attached, .literal ".a"⟩]⟩]
        [.call ⟨[".m"], [⟨none, .keyword "z"⟩], true, Span.none⟩,
          .ruleset [⟨[⟨.attached, .literal ".b"⟩]⟩]
            [.declaration ⟨"r", .quoted "@{x}" none, false, Span.none⟩] Span.none]
        Span.none,
      .variable ⟨"x", .keyword "print", Span.none⟩]⟩

theorem lastingSheet_changes_nothing :
    ∃ result again, (compile {} lastingSheet).outcome = .ok result ∧
      (Rule.partsOf result.sheet.rules).length = 8 ∧
      (compile {} result.sheet).outcome = .ok again ∧ again.sheet = result.sheet := by
  have compiles : (compile {} lastingSheet).outcome.toOption.map
      (fun result => ((Rule.partsOf result.sheet.rules).length,
        (Rule.partsOf result.sheet.rules).all fun r => r.values.all (!·.hasHole))) =
      some (8, true) := by
    decide +kernel
  cases outcome : (compile {} lastingSheet).outcome with
  | error failure =>
    rw [outcome] at compiles
    cases compiles
  | ok result =>
    rw [outcome] at compiles
    obtain ⟨parts, filled⟩ := Prod.mk.inj (Option.some.inj compiles)
    obtain ⟨again, same⟩ := resolving_again_changes_nothing {} lastingSheet rfl rfl
      (by decide +kernel) result outcome (by simpa using filled)
    exact ⟨result, again, rfl, parts, same⟩

end StyleResolution
