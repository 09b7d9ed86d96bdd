import StyleResolution.Proofs.Normal.Sheet
import StyleResolution.Proofs.Regime.Tracing
import StyleResolution.Proofs.Selector.Headed
import StyleResolution.Proofs.Selector.Sparing

/-! # Effective selectors are never empty

A ruleset has its own selectors from a text, and the selectors around it from the ruleset it is
evaluated in, whether it stands there, in the body of a mixin that is called there, or in a file that
is imported there. Both have elements, and so have the effective selectors that they combine to.

That no block is ever evaluated where a selector around it is empty is said by an evaluator that
raises an alarm there: whatever the alarm does, a sheet that was read is resolved in the same way.
-/

namespace StyleResolution

open Eval Compiler

/-! ## Rules in scope -/

/-- All rulesets in scope have selectors with elements. -/
def Regime.headed (setting : Setting) : Regime setting where
  holds importer _ := importer.AllRead setting
  law _ := True
  rule _ p := ∀ part ∈ p.rule.parts, part.Headed
  lawful _ := trivial
  mono rule _ := rule
  block rule isBlock p member part inside :=
    rule part (Provenance.parts_of_mem_block isBlock (Provenance.rule_mem_of_ofBlock member) inside)
  definition site _ part inside := by
    cases List.mem_singleton.mp inside
    exact .plain rfl
  settled _ path part inside := by
    cases List.mem_singleton.mp inside
    exact .plain rfl
  opens s _ i site text holds _ := by
    refine .mono (openImport_traced (s := s) ⟨none, []⟩ holds i text)
      (fun opened t ended => ?_) fun _ _ _ => ⟨trivial, trivial⟩
    refine ⟨ended.1, fun path loaded isFile p member part inside => ?_⟩
    cases contribution_parts member inside with
    | inl within =>
      obtain ⟨source, file, -, read, same⟩ := (ended.2 path loaded isFile).reads
      exact Stylesheet.allHeaded_of_read read part (same ▸ within)
    | inr own => exact .plain own.2

namespace Eval

variable {α β : Type} {setting : Setting} {s : Evaluation}

/-! ## Computations that agree -/

/-- From the state `s`, both computations do the same. They end with all rulesets in scope headed and
    with a result as `ok` says, or they fail, and not because a selector around a ruleset is empty. -/
structure Agree (setting : Setting) (s : Evaluation) (x y : Eval α) (ok : α → Prop) : Prop where
  same : x setting s = y setting s
  ends : Ends setting s x (fun a s' => (Regime.headed setting).Orderly s' ∧ ok a)
    (fun f _ => f.cause ≠ .selectorCombination .emptyAncestor)

theorem ne_emptyAncestor_of_spares {cause : Cause} (spares : cause.SparesSelectors) :
    cause ≠ .selectorCombination .emptyAncestor := by
  rintro rfl
  exact spares

namespace Agree

variable {ok : α → Prop}

theorem pure (orderly : (Regime.headed setting).Orderly s) (h : ok a) :
    Agree setting s (Pure.pure a) (Pure.pure a) ok :=
  ⟨rfl, .pure ⟨orderly, h⟩⟩

theorem failWith (spares : cause.SparesSelectors) :
    Agree setting s (failWith cause) (failWith cause) ok :=
  ⟨rfl, .failWith (ne_emptyAncestor_of_spares spares)⟩

theorem of_ends
    (ends : Ends setting s x (fun a s' => (Regime.headed setting).Orderly s' ∧ ok a) failed)
    (spares : Spares x) : Agree setting s x x ok :=
  ⟨rfl, (ends.and (spares.ends setting s)).mono (fun _ _ ended => ended.1)
    fun _ _ failed => ne_emptyAncestor_of_spares failed.2⟩

theorem shared (upholds : (Regime.headed setting).Upholds false s x post) (spares : Spares x)
    (weaker : ∀ a s', post a s' → ok a) : Agree setting s x x ok :=
  .of_ends (.imp upholds (fun a s' ended => ⟨ended.1, weaker a s' ended.2.2⟩)) spares

theorem bind {x y : Eval β} {next next' : β → Eval α} {mid : β → Prop}
    (first : Agree setting s x y mid)
    (then_ : ∀ b t, (Regime.headed setting).Orderly t → mid b →
      Agree setting t (next b) (next' b) ok) :
    Agree setting s (x >>= next) (y >>= next') ok where
  same := by
    rw [bind_apply, bind_apply, ← first.same]
    rcases run : x setting s with ⟨f | b, t⟩
    · rfl
    · obtain ⟨orderly, h⟩ := first.ends.result run
      exact (then_ b t orderly h).same
  ends := Ends.seq first.ends (fun b t h => (then_ b t h.1 h.2).ends)

theorem mapFailure (h : Agree setting s x y ok) (kept : ∀ f, (g f).cause = f.cause) :
    Agree setting s (mapFailure g x) (mapFailure g y) ok where
  same := by
    unfold Eval.mapFailure
    rw [h.same]
  ends := Ends.mapFailure (h.ends.mono (fun _ _ h => h) fun f _ other => by rwa [kept])

theorem locatedAt (h : Agree setting s x y ok) (span : Span) :
    Agree setting s (locatedAt span x) (locatedAt span y) ok :=
  h.mapFailure fun _ => rfl

theorem insideOf (h : Agree setting s x y ok) (frame : Unit → String) :
    Agree setting s (insideOf frame x) (insideOf frame y) ok :=
  h.mapFailure fun _ => rfl

theorem whileExpanding (site : Site)
    (h : Agree setting { s with expanding := site :: s.expanding } x y ok) :
    Agree setting s (whileExpanding site x) (whileExpanding site y) ok where
  same := by
    unfold Eval.whileExpanding Eval.between
    rw [h.same]
  ends := Ends.between (h.ends.imp
    (fun _ t ended => ⟨ended.1.congr ⟨rfl, rfl, rfl, rfl⟩, ended.2⟩))

theorem ofState (h : Agree setting s (next s) (next' s) ok) :
    Agree setting s (state >>= next) (state >>= next') ok :=
  ⟨h.same, h.ends⟩

theorem ofSetting (h : Agree setting s (next setting) (next' setting) ok) :
    Agree setting s (Eval.setting >>= next) (Eval.setting >>= next') ok :=
  ⟨h.same, h.ends⟩

end Agree

section Steps

variable (orderly : (Regime.headed setting).Orderly s)

include orderly

theorem emit_agrees (e : Event) : Agree setting s (emit e) (emit e) fun _ => True :=
  .shared (emit_upholds orderly e) (.emit e) fun _ _ _ => trivial

theorem setSpan_agrees (span : Span) :
    Agree setting s (setSpan span) (setSpan span) fun _ => True :=
  .shared (setSpan_upholds orderly trivial) (.change _) fun _ _ _ => trivial

theorem change_agrees (same : Regime.Unaffected s (f s)) :
    Agree setting s (change f) (change f) fun _ => True :=
  .shared (.change orderly same) (.change f) fun _ _ _ => trivial

theorem sound_agrees (sound : (Regime.headed setting).Sound false x) (spares : Spares x) :
    Agree setting s x x fun _ => True :=
  .shared (sound orderly) spares fun _ _ _ => trivial

theorem addFrame_agrees (governs : (Regime.headed setting).Governs s.importer f) :
    Agree setting s (addFrame f) (addFrame f) fun _ => True :=
  .shared (.addFrame orderly governs) (addFrame_spares f) fun _ _ _ => trivial

end Steps

/-! ## Expanding calls -/

/-- The evaluators agree wherever all selectors around have elements, and then all rulesets of the
    output are headed. -/
def EvaluateAlike (setting : Setting) (evaluate watched : BlockEvaluator) : Prop :=
  ∀ {t}, (Regime.headed setting).Orderly t → ∀ env ctx, Selector.Filled ctx.selectors →
    Agree setting t (evaluate env ctx) (watched env ctx) fun o => Rule.AllHeaded o.rules

section Blocks

variable {evaluate watched : BlockEvaluator} (alike : EvaluateAlike setting evaluate watched)

include alike

theorem expandBody_agrees (orderly : (Regime.headed setting).Orderly s)
    (filled : Selector.Filled ctx.selectors) (nesting : Nat) (caller : Option FrameId)
    (under : (Regime.headed setting).Offers {} m.callable) :
    Agree setting s (expandBody evaluate ctx nesting caller m)
      (expandBody watched ctx nesting caller m) fun o => Rule.AllHeaded o.rules := by
  refine .ofState (.ofSetting ?_)
  dsimp only
  split
  · exact .failWith trivial
  · apply Agree.bind (change_agrees orderly ⟨rfl, rfl, rfl, rfl⟩)
    intro _ t orderly _
    apply Agree.bind (emit_agrees orderly _)
    intro _ u orderly _
    have body : Agree setting u (evaluateBody evaluate ctx nesting m)
        (evaluateBody watched ctx nesting m) fun evaluated => Rule.AllHeaded evaluated.2.rules := by
      apply Agree.bind (addFrame_agrees orderly (.ofBlock (by exact under.block) nesting))
      intro body t orderly _
      apply Agree.bind (.shared (expandImports_upholds body _ false orderly).loosen
        (expandImports_spares body _ false) fun _ _ _ => trivial)
      intro _ u orderly (_ : True)
      apply Agree.bind (alike orderly _ ctx filled)
      exact fun output v orderly headed => .pure orderly headed
    apply Agree.bind body
    intro evaluated v orderly headed
    apply Agree.bind (sound_agrees orderly (exportTo_upholds caller _ _ _)
      (exportTo_spares caller _ _ _))
    exact fun _ _ orderly (_ : True) => .pure orderly headed

theorem expandAll_agrees (filled : Selector.Filled ctx.selectors) (nesting : Nat)
    (caller : Option FrameId) (ms : List MatchedCandidate)
    (orderly : (Regime.headed setting).Orderly s)
    (under : ∀ m ∈ ms, (Regime.headed setting).Offers {} m.callable) :
    Agree setting s (expandAll evaluate ctx nesting caller ms)
      (expandAll watched ctx nesting caller ms) fun o => Rule.AllHeaded o.rules := by
  induction ms generalizing s with
  | nil => exact .pure orderly .nil
  | cons m ms ih =>
    have entered : (Regime.headed setting).Orderly
        { s with expanding := m.callable.site :: s.expanding } := orderly.congr ⟨rfl, rfl, rfl, rfl⟩
    apply Agree.bind (.whileExpanding m.callable.site
      (expandBody_agrees alike entered filled nesting caller (under m List.mem_cons_self)))
    intro first t orderly headed
    apply Agree.bind (ih orderly fun n later => under n (List.mem_cons_of_mem m later))
    exact fun others u orderly later => .pure orderly (headed.append later)

theorem resolveCall_agrees (orderly : (Regime.headed setting).Orderly s) (env : Environment)
    (filled : Selector.Filled ctx.selectors) (nesting : Nat) (call : MixinCall) :
    Agree setting s (resolveCall evaluate env ctx nesting call)
      (resolveCall watched env ctx nesting call) fun o => Rule.AllHeaded o.rules := by
  apply Agree.bind (sound_agrees orderly (values_upholds.evaluateArguments env call.args)
    (values_spares.conditions.evaluateArguments env call.args))
  intro args t orderly _
  have found : Agree setting t (findCandidates env call.path) (findCandidates env call.path)
      fun candidates => ∀ c ∈ candidates,
        (Regime.headed setting).Offers {} c.callable :=
    .shared (findCandidates_upholds env call.path orderly) (calls_spares.findCandidates env call.path)
      fun _ _ under => under
  apply Agree.bind found
  intro candidates u orderly under
  split
  · exact .failWith trivial
  · apply Agree.bind (emit_agrees orderly _)
    intro _ v orderly _
    have matching : Agree setting v (matchCandidates env args call.span candidates)
        (matchCandidates env args call.span candidates) fun selection => ∀ m ∈ selection.matched,
          (Regime.headed setting).Offers {} m.callable :=
      .shared (matchCandidates_upholds env args candidates orderly trivial under)
        (calls_spares.matchCandidates env args call.span candidates) fun _ _ under => under
    apply Agree.bind matching
    intro selection w orderly under
    split
    · unfold unmatched
      split
      · exact .failWith trivial
      · split
        · exact .failWith trivial
        · apply Agree.bind (emit_agrees orderly _)
          exact fun _ _ orderly _ => .pure orderly .nil
    · apply Agree.bind (sound_agrees orderly (chosenGroup_upholds selection.matched call)
        (calls_spares.chosenGroup calls_spares.mismatch selection.matched call))
      intro group w' orderly _
      refine expandAll_agrees alike ?_ nesting _ _ orderly fun m member =>
        under m (List.mem_filter.mp member).1
      exact filled

theorem expandCalls_agrees (env : Environment) (filled : Selector.Filled ctx.selectors)
    (es : List Entry) (orderly : (Regime.headed setting).Orderly s) :
    Agree setting s (expandCalls evaluate env ctx es) (expandCalls watched env ctx es)
      fun os => ∀ o ∈ os, Rule.AllHeaded o.rules := by
  induction es generalizing s with
  | nil => exact .pure orderly (by simp)
  | cons e es ih =>
    unfold expandCalls
    split
    · rename_i call _
      apply Agree.bind (change_agrees orderly ⟨rfl, rfl, rfl, rfl⟩)
      intro _ t orderly _
      have expanded : Agree setting t (callMixin evaluate env ctx e.nesting call)
          (callMixin watched env ctx e.nesting call) fun o => Rule.AllHeaded o.rules := by
        apply Agree.bind (setSpan_agrees orderly call.span)
        intro _ u orderly _
        exact ((resolveCall_agrees alike orderly env filled e.nesting call).locatedAt _).insideOf _
      apply Agree.bind expanded
      intro first u orderly headed
      apply Agree.bind (ih orderly)
      exact fun others v orderly later =>
        .pure orderly (List.forall_mem_cons.mpr ⟨headed, later⟩)
    · exact ih orderly

/-! ## Evaluating blocks -/

omit alike in
theorem enterBlock_agrees (orderly : (Regime.headed setting).Orderly s) (env : Environment)
    (under : (Regime.headed setting).Block {} site rules) (nesting : Nat) :
    Agree setting s (enterBlock env site rules nesting)
      (enterBlock env site rules nesting) fun _ => True :=
  .shared (enterBlock_upholds orderly env under nesting).loosen
    (enterBlock_spares env site rules nesting) fun _ _ _ => trivial

omit alike in
theorem effectiveSelectors_agrees (orderly : (Regime.headed setting).Orderly s)
    (around : Selector.Filled ancestors) (some : selectors ≠ [])
    (filled : Selector.Filled selectors) (span : Span) :
    Agree setting s (effectiveSelectors ancestors selectors span)
      (effectiveSelectors ancestors selectors span)
      fun effective => effective ≠ [] ∧ Selector.Filled effective := by
  refine .ofSetting ?_
  dsimp only
  split
  · rename_i error failed
    refine ⟨rfl, .fail ?_⟩
    rintro ⟨⟩
    exact Selector.combine_ne_emptyAncestor around failed
  · rename_i combined ok
    have headed := Selector.combine_filled around some filled ok
    split
    · exact .pure orderly headed
    · apply Agree.bind (emit_agrees orderly _)
      exact fun _ _ orderly _ => .pure orderly headed

theorem evaluateRule_agrees (orderly : (Regime.headed setting).Orderly s) (env : Environment)
    (filled : Selector.Filled ctx.selectors) (rule : (Regime.headed setting).rule {} e.toPlaced) :
    Agree setting s (evaluateRule evaluate env ctx e) (evaluateRule watched env ctx e)
      fun o => Rule.AllHeaded o.rules := by
  have block : ∀ rules, e.rule.block? = some rules →
      (Regime.headed setting).Block {} e.site rules :=
    fun rules isBlock => (Regime.headed setting).block rule isBlock
  have own : e.rule.Headed := rule _ e.rule.mem_parts_self
  unfold evaluateRule
  cases isRule : e.rule with
  | declaration d =>
    apply Agree.bind (setSpan_agrees orderly d.span)
    intro _ t orderly _
    apply Agree.bind ((sound_agrees orderly (values_upholds.value env d.value)
      (values_spares.value env d.value)).locatedAt d.span)
    exact fun _ _ orderly _ => .pure orderly .nil
  | «variable» d =>
    apply Agree.bind (setSpan_agrees orderly d.span)
    intro _ t orderly _
    apply Agree.bind ((sound_agrees orderly
      (fun orderly => dereference_upholds env ⟨d, e.site⟩ orderly trivial)
      (values_spares.dereference env _)).locatedAt d.span)
    exact fun _ _ orderly _ => .pure orderly .nil
  | ruleset selectors rules span =>
    rw [isRule] at block own
    obtain ⟨some, inner⟩ := own selectors rfl
    apply Agree.bind (effectiveSelectors_agrees orderly filled some inner span)
    intro effective t orderly headed
    apply Agree.bind ((enterBlock_agrees orderly env (block rules rfl) e.nesting).insideOf _)
    intro inner u orderly _
    apply Agree.bind ((alike orderly inner { ctx with selectors := effective } headed.2).insideOf _)
    intro body v orderly inside
    refine .pure orderly (.append ?_ inside)
    exact rulesetOf_headed headed.1 headed.2 body span
  | mixin head rules => exact .pure orderly .nil
  | call c => exact .pure orderly .nil
  | fileImport i =>
    apply Agree.bind ((sound_agrees orderly (values_upholds.value env i.path)
      (values_spares.value env i.path)).locatedAt i.span)
    intro path t orderly _
    apply Agree.bind (sound_agrees orderly
      (fun orderly => (evaluatePrelude_upholds env i.media orderly trivial).loosen)
      (values_spares.evaluatePrelude env i.span i.media))
    exact fun _ _ orderly _ => .pure orderly (.singleton (.plain rfl) (by rintro _ ⟨⟩))
  | media features rules span =>
    rw [isRule] at block
    apply Agree.bind ((sound_agrees orderly (values_upholds.value env features)
      (values_spares.value env features)).locatedAt span)
    intro own t orderly _
    apply Agree.bind (enterBlock_agrees orderly env (block rules rfl) e.nesting)
    intro inner u orderly _
    apply Agree.bind (alike orderly inner { ctx with media := some (joinFeatures ctx.media own) }
      filled)
    intro body v orderly inside
    refine .pure orderly (.append ?_ (inside.subset (List.filter_subset_self _)))
    split
    · exact .nil
    · refine .singleton (.plain rfl) ?_
      rintro _ ⟨⟩
      exact mediaBody_headed filled inside span
  | atStatement name prelude span =>
    apply Agree.bind (sound_agrees orderly
      (fun orderly => (evaluatePrelude_upholds env prelude orderly trivial).loosen)
      (values_spares.evaluatePrelude env span prelude))
    exact fun _ _ orderly _ => .pure orderly (.singleton (.plain rfl) (by rintro _ ⟨⟩))
  | atBlock name prelude rules span =>
    rw [isRule] at block
    apply Agree.bind (sound_agrees orderly
      (fun orderly => (evaluatePrelude_upholds env prelude orderly trivial).loosen)
      (values_spares.evaluatePrelude env span prelude))
    intro prelude t orderly _
    apply Agree.bind (enterBlock_agrees orderly env (block rules rfl) e.nesting)
    intro inner u orderly _
    have top : Selector.Filled ({ important := ctx.important } : Context).selectors := by
      simp [Selector.Filled]
    apply Agree.bind ((alike orderly inner _ top).insideOf _)
    intro body v orderly inside
    refine .pure orderly (.singleton (.plain rfl) ?_)
    rintro _ ⟨⟩
    exact (Rule.AllHeaded.declarations body.declarations).append inside

theorem evaluateEntries_agrees (env : Environment) (filled : Selector.Filled ctx.selectors)
    (es : List Entry) (expansions : List Output)
    (expanded : ∀ o ∈ expansions, Rule.AllHeaded o.rules)
    (orderly : (Regime.headed setting).Orderly s)
    (under : ∀ e ∈ es, (Regime.headed setting).rule {} e.toPlaced) :
    Agree setting s (evaluateEntries evaluate env ctx es expansions)
      (evaluateEntries watched env ctx es expansions) fun o => Rule.AllHeaded o.rules := by
  induction es generalizing s expansions with
  | nil => exact .pure orderly .nil
  | cons e es ih =>
    have rest : ∀ e' ∈ es, (Regime.headed setting).rule {} e'.toPlaced :=
      fun e' later => under e' (List.mem_cons_of_mem e later)
    unfold evaluateEntries
    split
    · rename_i first later _
      apply Agree.bind (ih later (fun o member => expanded o (List.mem_cons_of_mem first member))
        orderly rest)
      exact fun others t orderly headed =>
        .pure orderly ((expanded first List.mem_cons_self).append headed)
    · apply Agree.bind (evaluateRule_agrees alike orderly env filled (under e List.mem_cons_self))
      intro own t orderly headed
      apply Agree.bind (ih _ expanded orderly rest)
      exact fun others u orderly later => .pure orderly (headed.append later)

theorem blockWith_alike : EvaluateAlike setting (blockWith evaluate) (blockWith watched) := by
  intro t orderly env ctx filled
  unfold blockWith
  split
  · exact .pure orderly .nil
  · rename_i id _
    refine .ofState ?_
    apply Agree.bind (expandCalls_agrees alike env filled _ orderly)
    intro expansions u orderly headed
    exact .ofState (evaluateEntries_agrees alike env filled _ expansions headed orderly
      (orderly.frames id).rules)

end Blocks

/-! ## Raising an alarm -/

/-- Evaluates a block, unless a selector around it is empty: then the alarm is raised. -/
def watched (alarm evaluate : BlockEvaluator) : BlockEvaluator := fun env ctx =>
  if Selector.Filled ctx.selectors then evaluate env ctx else alarm env ctx

/-- Evaluates blocks nested less than `n` deep, with an alarm for every one of them. -/
def watchedWithin (alarm : BlockEvaluator) : Nat → BlockEvaluator
  | 0 => fun _ _ => failWith .exhausted
  | n + 1 => watched alarm (blockWith (watchedWithin alarm n))

theorem watchedWithin_alike (alarm : BlockEvaluator) (n : Nat) :
    EvaluateAlike setting (blockWithin n) (watchedWithin alarm n) := by
  induction n with
  | zero => exact fun _ _ _ _ => .failWith trivial
  | succ n ih =>
    intro t orderly env ctx filled
    have silent : watchedWithin alarm (n + 1) env ctx =
        blockWith (watchedWithin alarm n) env ctx := if_pos filled
    rw [silent]
    exact blockWith_alike ih orderly env ctx filled

end Eval

namespace Compiler

def resolveWatched (alarm : BlockEvaluator) (sheet : Stylesheet) : Eval (List Rule) := do
  let env ← openSheet sheet
  let rules := ruleBound (← setting).loader sheet
  let output ← watchedWithin alarm (nestingBound (← setting).options rules) env {}
  pure (arrange output)

theorem resolveWatched_agrees (setting : Setting) (alarm : BlockEvaluator)
    (headed : Rule.AllHeaded sheet.rules) :
    Eval.Agree setting {} (resolveSheet sheet) (resolveWatched alarm sheet) Rule.AllHeaded := by
  have under : (Regime.headed setting).Block {} (.written 0 []) sheet.rules :=
    fun p member => Rule.AllHeaded.iff_parts.mp headed _ (Provenance.rule_mem_of_ofBlock member)
  have opened : Eval.Agree setting {} (openSheet sheet) (openSheet sheet) fun _ => True := by
    have obeys := openSheet_obeys (R := .headed setting) sheet (mainImporter_allRead setting sheet)
      fun _ => under
    exact .of_ends (obeys.imp (fun _ _ ended => ⟨ended.1, trivial⟩))
      (openSheet_spares sheet)
  apply Eval.Agree.bind opened
  intro env t orderly (_ : True)
  refine .ofSetting (.ofSetting ?_)
  have top : Selector.Filled ({} : Context).selectors := by
    simp [Selector.Filled]
  apply Eval.Agree.bind (watchedWithin_alike alarm _ orderly env {} top)
  intro output u orderly inside
  refine .pure orderly ?_
  exact ((inside.subset (List.filter_subset_self _)).append (.declarations output.declarations)).append
    (inside.subset (List.filter_subset_self _))

end Compiler

/-- Effective selectors are never empty. In the compilation of a sheet that was read, no block is
    evaluated where a selector around it is empty: an alarm there changes nothing, whatever it does.
    So combining selectors never fails for an empty one. Every ruleset of the result has a selector,
    and all its selectors have elements. Where the selectors around a ruleset have no `&`, nor have
    its effective selectors. -/
theorem effective_selectors_are_never_empty (setting : Setting) (source : String) (file : Nat)
    (path : Option Path) (sheet : Stylesheet) (read : Stylesheet.read source file path = .ok sheet) :
    (∀ alarm, resolveWatched alarm sheet setting {} =
      resolveSheet sheet setting {}) ∧
    (∀ f, (compile setting sheet).outcome = .error f →
      f.cause ≠ .selectorCombination .emptyAncestor) ∧
    (∀ result, (compile setting sheet).outcome = .ok result →
      ∀ r ∈ Rule.partsOf result.sheet.rules, ∀ selectors, r.selectors? = some selectors →
        selectors ≠ [] ∧ ∀ s ∈ selectors, s.elements ≠ []) ∧
    ∀ ancestors current limit combined, ancestors ≠ [] → (∀ a ∈ ancestors, a.hasWildcard = false) →
      Selector.combine ancestors current limit = .ok combined →
        ∀ s ∈ combined, s.hasWildcard = false := by
  have agrees := fun alarm =>
    resolveWatched_agrees setting alarm (Stylesheet.allHeaded_of_read read)
  have ends := (agrees fun _ _ => failWith .exhausted).ends
  refine ⟨fun alarm => (agrees alarm).same.symm, fun f failed => ?_, fun result ok => ?_,
    fun _ _ _ _ nonempty plain ok => Selector.combine_plain nonempty plain ok⟩
  · unfold compile compileFrom run at failed
    rcases run : resolveSheet sheet setting {} with ⟨g | rules, s⟩ <;>
      rw [run] at failed <;> cases failed
    have other := ends.failure run
    exact other
  · obtain ⟨s, run, -⟩ := compile_ok ok
    exact (ends.result run).2

/-- A mixin with a nested ruleset, called under two selectors. -/
def borrowedBlock : String :=
  ".m() { & > .b, .c & { x: y } } .a, .d { .m(); }"

def Stylesheet.selectorTexts (sheet : Stylesheet) : List (List String) :=
  ((Rule.partsOf sheet.rules).filterMap Rule.selectors?).map (·.map Selector.text)

theorem borrowedBlock_has_selectors :
    ∃ sheet, Stylesheet.read borrowedBlock 0 none = .ok sheet ∧
      (∃ result, (compile {} sheet).outcome = .ok result ∧
        result.sheet.selectorTexts = [[".a > .b", ".d > .b", ".c .a", ".c .d"]] ∧
        ∀ r ∈ Rule.partsOf result.sheet.rules, ∀ selectors, r.selectors? = some selectors →
          selectors ≠ [] ∧ ∀ s ∈ selectors, s.elements ≠ []) ∧
      ∀ alarm, resolveWatched alarm sheet {} {} = resolveSheet sheet {} {} := by
  have compiles : (Stylesheet.read borrowedBlock 0 none).toOption.map (fun sheet =>
      (compile {} sheet).outcome.toOption.map (·.sheet.selectorTexts)) =
        some (some [[".a > .b", ".d > .b", ".c .a", ".c .d"]]) := by
    decide +kernel
  cases read : Stylesheet.read borrowedBlock 0 none with
  | error f =>
    rw [read] at compiles
    cases compiles
  | ok sheet =>
    rw [read] at compiles
    obtain ⟨silent, -, headed, -⟩ := effective_selectors_are_never_empty {} _ _ _ sheet read
    cases outcome : (compile {} sheet).outcome with
    | error f =>
      simp [outcome, Except.toOption] at compiles
    | ok result =>
      refine ⟨sheet, rfl, ⟨result, outcome, ?_, headed result outcome⟩, silent⟩
      simpa [outcome, Except.toOption] using compiles

end StyleResolution
