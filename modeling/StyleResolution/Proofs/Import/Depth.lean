import StyleResolution.Proofs.Failure.Location
import StyleResolution.Proofs.Import.Chain
import StyleResolution.Proofs.Strictness.Resolution

/-! # The depth limit

Blocks hand the number of their file on to the rules inside them, so an import inside of blocks
counts the files around it as one outside does. The files of a chain are therefore opened one after
the other, and the limit is reached at the first file whose number is above it, if the rules before
and around the imports can be evaluated at all. If one of them cannot, it cannot under any limit.
-/

namespace StyleResolution

namespace Selector

/-- A selector without `&` goes behind its one ancestor. -/
theorem combine_single (outer : ancestors = [] ∨ ∃ a, ancestors = [a] ∧ a.elements ≠ [])
    (single : ∃ s, selectors = [s] ∧ s.elements ≠ [] ∧ s.hasWildcard = false) (allowed : 1 ≤ limit) :
    ∃ a, combine ancestors selectors limit = .ok [a] ∧ a.elements ≠ [] := by
  obtain ⟨s, rfl, some, plain⟩ := single
  cases outer with
  | inl top => exact ⟨s, by simp [combine, top], some⟩
  | inr nested =>
    obtain ⟨a, rfl, nonempty⟩ := nested
    refine ⟨behind a s, ?_, by simp [behind, nonempty]⟩
    simp [combine, nonempty, expandAll, expand, plain, checkLimit, Nat.not_lt.mpr allowed,
      bind, Except.bind, pure, Except.pure]

end Selector

theorem Rule.isSingular_iff {selectors : List Selector} {rules : List Rule} {span : Span} :
    (Rule.ruleset selectors rules span).isSingular = true ↔
      ∃ s, selectors = [s] ∧ s.elements ≠ [] ∧ s.hasWildcard = false := by
  match selectors with
  | [] => simp [isSingular]
  | [s] => simp [isSingular]
  | _ :: _ :: _ => simp [isSingular]

theorem Rule.plain_of_isResolved {r : Rule} (resolved : r.isResolved = true) (own : v ∈ r.values) :
    v.isUnresolved = false := by
  have other : r.isResolved = !r.values.any Value.isUnresolved := by
    cases r with
    | «variable» => cases own
    | _ => rfl
  rw [other, Bool.not_eq_true', List.any_eq_false] at resolved
  exact Bool.eq_false_iff.mpr (resolved v own)

theorem Rule.ahead_self (other : Compiler.isImport r = false) : ∃ inside, ahead [r] = r :: inside := by
  cases r with
  | fileImport => cases other
  | _ => exact ⟨_, rfl⟩

namespace ImportChain

variable {setting : Setting} {sheet : Stylesheet} (c : ImportChain setting sheet)

/-- The first `k` files were opened, and no import is being expanded. -/
structure Rests (k : Nat) (s : Evaluation) : Prop extends c.At k s where
  unopened : s.importer.openImports = 0

/-- The rules of the innermost frame have no imports at their top, and they lead on to the number
    `k` from where the evaluation is. -/
def Entered (env : Environment) (k : Nat) (s : Evaluation) : Prop :=
  ∃ id m front, env.innermost? = some id ∧ c.Rests m s ∧ c.Ready front m k (s.frames.get id).entries ∧
    ∀ e ∈ (s.frames.get id).entries, Compiler.isImport e.rule = false

/-- Where every ruleset has one selector, those around a rule come to one at most. -/
def Suits (ctx : Context) : Prop :=
  c.Singular → ctx.selectors = [] ∨ ∃ a, ctx.selectors = [a] ∧ a.elements ≠ []

variable {c} {j k : Nat} {s s' : Evaluation} {e : Entry} {es : List Entry} {front : List Rule}

theorem Rests.quiet (h : c.Rests k s) (quiet : Quiet s s') : c.Rests k s' where
  toAt := h.toAt.quiet quiet
  unopened := quiet.importer ▸ h.unopened

theorem Carries.eq_of_none (carries : c.Carries j k [e]) (none : e.rule.imports = []) : k = j := by
  cases carries with
  | idle _ rest =>
    cases rest
    rfl
  | link _ own => simp [none] at own

theorem Carries.around (carries : c.Carries j k es) (later : j < k)
    (others : ∀ e ∈ es, Compiler.isImport e.rule = false) :
    ∃ before block inside, Rule.ahead (es.map (·.rule)) = before ++ block :: inside ∧
      block.imports ≠ [] := by
  induction carries with
  | nil => exact absurd later (Nat.lt_irrefl _)
  | @idle _ e es none _ ih =>
    obtain ⟨before, block, inside, split, around⟩ := ih later (List.forall_mem_cons.mp others).2
    exact ⟨e.rule.reached ++ before, block, inside, by simp [Rule.ahead_of_none none, split], around⟩
  | @link e es _ own =>
    obtain ⟨inside, first⟩ := Rule.ahead_self (List.forall_mem_cons.mp others).1
    exact ⟨[], e.rule, inside, (Rule.ahead_of_some own _).trans first, by simp [own]⟩

/-- What rules lead to, the first one and then the others lead to. -/
theorem Ready.uncons (ready : c.Ready front j k (e :: es)) (h : c.At j s)
    (others : ∀ e ∈ es, Compiler.isImport e.rule = false) :
    ∃ m behind, c.Ready front j m [e] ∧ c.Ready behind m k es := by
  obtain ⟨carries, fit, clear⟩ := ready
  simp only [List.forall_mem_cons] at fit
  cases carries with
  | idle none rest =>
    have sooner : j < c.length → ∀ p ∈ e.rule.reached, c.Ahead p := by
      intro opened p part
      cases Nat.lt_or_eq_of_le rest.le with
      | inr same => exact clear.idle same (same ▸ opened) p (List.mem_append_left _ part)
      | inl later =>
        obtain ⟨before, block, inside, split, around⟩ := rest.around later others
        refine ⟨front ++ e.rule.reached ++ before, block, ?_, around, by simp [part]⟩
        refine List.IsPrefix.trans ⟨inside, ?_⟩ (way_mono h.within)
        simp [← clear.leads later, Rule.ahead_of_none none, split]
    exact ⟨j, _, ⟨.idle none (.nil j), by simpa using fit.1,
      fun _ opened => by simpa [Rule.reachedOf] using sooner opened, fun later => by omega⟩,
      rest, fit.2, clear.tail none⟩
  | link inside own nesting rest =>
    have whole := clear.leads inside
    rw [List.map_cons, Rule.ahead_of_some own] at whole
    exact ⟨c.length, front, ⟨.link inside own nesting (by simp), by simpa using fit.1, .of_way whole⟩,
      .of_none rest _, fit.2, fun _ last => by omega, fun later => by omega⟩

theorem Ready.met (ready : c.Ready front j k [e]) (h : c.At j s)
    (other : Compiler.isImport e.rule = false) : c.Met e.rule := by
  refine ⟨(ready.fit e List.mem_cons_self).self, fun long => ?_⟩
  cases Nat.lt_or_eq_of_le ready.carries.le with
  | inr same =>
    have last : k < c.length := same ▸ Nat.lt_of_le_of_lt h.within long
    exact ready.clear.idle same last _ (List.mem_append_left _ (Rule.mem_reached_self _))
  | inl later =>
    obtain ⟨inside, first⟩ := Rule.ahead_self other
    refine ⟨front, e.rule, .trans ⟨inside, ?_⟩ (way_mono h.within), fun none => ?_, by simp⟩
    · simp [← ready.clear.leads later, first]
    · exact Nat.ne_of_gt later (ready.carries.eq_of_none none)

theorem Clear.inner {rules : List Rule} (clear : c.Clear front j k [r])
    (block : r.reached = r :: Rule.reachedOf rules) (other : r.asImport = none) :
    c.Clear (front ++ [r]) j k rules where
  idle same last p part := clear.idle same last p (by simp [Rule.reachedOf, block, part])
  leads later := by simp [← clear.leads later, Rule.ahead_of_block block other]

theorem Goes.of_quiet {v : Value} (h : c.Rests k s) (quiet : Eval.Keeps setting Quiet x)
    (causes : Eval.FailsOnly Eval.BlamesValue x)
    (never : v.isUnresolved = false → Eval.Ends setting s x (fun _ _ => True) fun _ _ => False)
    (met : c.Met r) (spoils : ∀ f, v.isUnresolved = true → (x setting s).1 = .error f →
      Eval.OfValue f.cause → c.Spoils r f.cause) :
    c.Goes s x fun _ s' => c.Rests k s' := by
  refine Eval.Ends.iff_cases.mpr ⟨fun a t run => h.quiet ((quiet.ends setting s).result run), ?_⟩
  intro f t run
  cases (causes.ends setting s).failure run with
  | inr exhausted => exact .inr (.inr exhausted)
  | inl ofValue =>
    cases unresolved : v.isUnresolved with
    | false => exact ((never unresolved).failure run).elim
    | true => exact .inr (.inl ⟨r, met, spoils f unresolved (congrArg Prod.fst run) ofValue⟩)

theorem Spoils.blames {cause : Cause} (spoils : c.Spoils r cause) (conforms : c.Conforms r) :
    (¬ c.Resolved ∧ Eval.OfValue cause) ∨
      (¬ c.Singular ∧ ∃ error, cause = .selectorCombination error) := by
  cases spoils with
  | value own unresolved _ _ blamed =>
    refine .inl ⟨fun resolved => ?_, blamed⟩
    rw [Rule.plain_of_isResolved (conforms.resolved resolved) own] at unresolved
    cases unresolved
  | definition unresolved _ _ blamed =>
    refine .inl ⟨fun resolved => ?_, blamed⟩
    have plain := conforms.resolved resolved
    simp [Rule.isResolved, unresolved] at plain
  | selectors mixed => exact .inr ⟨mixed, _, rfl⟩

end ImportChain

namespace Eval

open ImportChain (Goes Suits)

variable {setting : Setting} {sheet : Stylesheet} {c : ImportChain setting sheet} {s : Evaluation}
  {j k : Nat}

/-! ## Values and selectors -/

theorem value_goes (h : c.Rests k s) (env : Environment) (met : c.Met r) (own : v ∈ r.values) :
    c.Goes s (value env v) fun _ s' => c.Rests k s' :=
  .of_quiet h (value_quiet env v) (value_failsOnly env v)
    (fun plain => (valueWith_resolved _ v plain).ends setting s) met
    fun _ unresolved fails blamed => .value own unresolved h.toAt fails blamed

theorem evaluatePrelude_goes (h : c.Rests k s) (env : Environment) (span : Span) (met : c.Met r)
    (own : ∀ v ∈ prelude, v ∈ r.values) :
    c.Goes s (evaluatePrelude env span prelude) fun _ s' => c.Rests k s' := by
  cases prelude with
  | none => exact .pure h
  | some v => exact ((value_goes h env met (own v rfl)).locatedAt span).bind fun _ _ h => .pure h

theorem effectiveSelectors_goes (h : c.Rests k s) (suits : c.Suits ctx)
    (met : c.Met (.ruleset selectors rules span)) :
    c.Goes s (effectiveSelectors ctx.selectors selectors span) fun effective s' =>
      c.Rests k s' ∧ c.Suits { ctx with selectors := effective } := by
  have combines := fun singular : c.Singular => Selector.combine_single (suits singular)
    (Rule.isSingular_iff.mp (met.conforms.singular singular)) singular.1
  apply Ends.ofSetting
  dsimp only
  split
  · rename_i error failed
    refine Ends.fail (.inr (.inl ⟨_, met, .selectors (fun singular => ?_) failed⟩))
    obtain ⟨a, combined, -⟩ := combines singular
    rw [combined] at failed
    cases failed
  · rename_i effective combined
    have suits : c.Suits { ctx with selectors := effective } := by
      intro singular
      obtain ⟨a, same, nonempty⟩ := combines singular
      rw [combined, Except.ok.injEq] at same
      exact .inr ⟨a, same, nonempty⟩
    split
    · exact .pure ⟨h, suits⟩
    · exact .change (.pure ⟨{ h with }, suits⟩)

/-! ## Blocks -/

theorem expandImports_enters {id : FrameId} (h : c.Rests j s) (framed : id < s.frames.size)
    (base : (s.frames.get id).base = j) (ready : c.Ready front j k (s.frames.get id).entries)
    (env : Environment) (defer : Bool) :
    c.Goes s (expandImports id env defer) fun _ s' => ∃ m, c.Rests m s' ∧
      c.Ready front m k (s'.frames.get id).entries ∧
      ∀ e ∈ (s'.frames.get id).entries, Compiler.isImport e.rule = false := by
  have advancing : c.Goes s (expandImports id env defer) fun _ s' => ∃ m, c.At m s' ∧
      c.Ready front m k (s'.frames.get id).entries ∧
      ∀ e ∈ (s'.frames.get id).entries, Compiler.isImport e.rule = false := by
    refine .ofState (.ofSetting (.ofState (.between ?_)))
    rw [← Frame.length_entries]
    refine Within.bind (expandWithin_advances (c := c) env defer _
      (s := { s with importer := { s.importer with baseDepth := (s.frames.get id).base } }) [] _ []
      { h.toAt with } ?_ framed (by simp) ready) ?_
    · simp [Importer.nesting, h.unopened, base]
    · intro stop t ended
      obtain ⟨final, advanced, -⟩ := ended
      obtain ⟨m, h, ready⟩ := advanced.leads
      have entries : (t.frames.get id).entries = final := by simpa using advanced.entries
      exact .pure ⟨m, { h with }, entries ▸ ready, entries ▸ advanced.expanded⟩
  apply (advancing.keeping (expandImports_splices id env defer)).imp
  intro _ t ended
  obtain ⟨⟨m, opened, ready, expanded⟩, splices⟩ := ended
  have unopened : t.importer.openImports = s.importer.openImports :=
    congrArg Scoped.openImports splices.restored
  exact ⟨m, ⟨opened, unopened.trans h.unopened⟩, ready, expanded⟩

theorem enterBlock_enters (h : c.Rests j s) {e : Entry} (carries : c.Carries j k [e])
    {rules : List Rule} (inner : e.rule.imports = Rule.importsOf rules)
    (fit : ∀ r ∈ rules, c.Fit r) (clear : c.Clear front j k rules) (env : Environment) :
    c.Goes s (enterBlock env e.site rules e.nesting) fun inner s' => c.Entered inner k s' := by
  let frame := Frame.ofBlock e.site rules e.nesting
  let added : Evaluation := { s with frames := (s.frames.add frame).2 }
  have entries : (added.frames.get s.frames.size).entries = frame.entries :=
    congrArg Frame.entries (Frames.get_add_self s.frames frame)
  have fits : ∀ e ∈ frame.entries, c.Fit e.rule := by
    intro e member
    have own := List.mem_map_of_mem (f := fun e : Entry => e.rule) member
    rw [Frame.ofBlock_rules] at own
    exact fit _ own
  have clears : c.Clear front j k (frame.entries.map (·.rule)) := by rwa [Frame.ofBlock_rules]
  have rests : c.Rests j added := { h with }
  refine .bind_of_ok (addFrame_apply frame setting s) ?_
  cases carries with
  | idle none rest =>
    cases rest
    have bare : ∀ e ∈ frame.entries, e.rule.imports = [] := by
      intro e member
      have own := List.mem_map_of_mem (f := fun e : Entry => e.rule) member
      rw [Frame.ofBlock_rules] at own
      exact Rule.importsOf_eq_nil.mp (inner.symm.trans none) _ own
    have others : ∀ e ∈ (added.frames.get s.frames.size).entries,
        Compiler.isImport e.rule = false := by
      rw [entries]
      exact fun e member => Rule.isImport_of_none (bare e member)
    refine .bind_of_ok (expandImports_of_no_import others _ false) (.pure ?_)
    refine ⟨s.frames.size, j, front, rfl, rests, ?_, others⟩
    rw [entries]
    exact ⟨.of_none bare j, fits, clears⟩
  | link inside own nesting =>
    have links : c.Ready front j c.length (added.frames.get s.frames.size).entries := by
      rw [entries]
      refine ⟨.of_link inside ?_ ?_, fits, clears⟩
      · rw [Frame.ofBlock_rules, ← inner, own]
      · simpa [frame] using fun _ _ => nesting
    apply Within.bind (expandImports_enters rests (by simp [added]) ?_ links _ false)
    · intro _ t ended
      obtain ⟨m, rests, ready, expanded⟩ := ended
      exact .pure ⟨s.frames.size, m, _, rfl, rests, ready, expanded⟩
    · exact (congrArg (·.base) (Frames.get_add_self s.frames frame)).trans nesting

section

variable {evaluate : BlockEvaluator}

variable (c) in
/-- A block is evaluated as far as its rules lead. -/
def Passes (evaluate : BlockEvaluator) : Prop :=
  ∀ {env : Environment} {ctx : Context} {s : Evaluation} {k : Nat}, c.Entered env k s →
    c.Suits ctx → c.Goes s (evaluate env ctx) fun _ s' => c.Rests k s'

variable (passes : Passes c evaluate)

include passes

section

variable {e : Entry} {rules : List Rule} {ctx : Context} (h : c.Rests j s)
  (carries : c.Carries j k [e]) (inner : e.rule.imports = Rule.importsOf rules)
  (fit : ∀ r ∈ rules, c.Fit r) (clear : c.Clear front j k rules) (suits : c.Suits ctx)

include h carries inner fit clear suits

theorem evaluateRuleset_goes (env : Environment) (met : c.Met (.ruleset selectors rules span)) :
    c.Goes s (evaluateRuleset evaluate env ctx e selectors rules span) fun _ s' =>
      c.Rests k s' := by
  apply Within.bind (effectiveSelectors_goes h suits met)
  intro effective t ended
  obtain ⟨h, suits⟩ := ended
  apply Within.bind ((enterBlock_enters h carries inner fit clear env).insideOf _)
  intro inner u entered
  exact ((passes entered suits).insideOf _).bind fun _ _ h => .pure h

theorem evaluateMedia_goes (env : Environment) (met : c.Met (.media features rules span)) :
    c.Goes s (evaluateMedia evaluate env ctx e features rules span) fun _ s' => c.Rests k s' := by
  apply Within.bind ((value_goes h env met List.mem_cons_self).locatedAt span)
  intro own t h
  apply Within.bind (enterBlock_enters h carries inner fit clear env)
  intro inner u entered
  exact Within.bind (passes entered suits) fun _ _ h => .pure h

omit suits in
theorem evaluateAtBlock_goes (env : Environment) (met : c.Met (.atBlock name prelude rules span)) :
    c.Goes s (evaluateAtBlock evaluate env ctx e name prelude rules span) fun _ s' =>
      c.Rests k s' := by
  apply Within.bind (evaluatePrelude_goes h env span met fun v own => Option.mem_toList.mpr own)
  intro own t h
  apply Within.bind (enterBlock_enters h carries inner fit clear env)
  intro inner u entered
  exact ((passes entered fun _ => .inl rfl).insideOf _).bind fun _ _ h => .pure h

end

theorem evaluateRule_goes (h : c.Rests j s) {e : Entry} (ready : c.Ready front j k [e])
    (other : Compiler.isImport e.rule = false) (env : Environment) {ctx : Context}
    (suits : c.Suits ctx) : c.Goes s (evaluateRule evaluate env ctx e) fun _ s' => c.Rests k s' := by
  have met : c.Met e.rule := ready.met h.toAt other
  obtain ⟨⟨rule, site⟩, nesting⟩ := e
  obtain ⟨carries, fit, clear⟩ := ready
  replace fit : c.Fit rule := fit _ List.mem_cons_self
  replace clear : c.Clear front j k [rule] := clear
  cases rule with
  | declaration d =>
    obtain rfl := carries.eq_of_none rfl
    have spanned : c.Rests k { s with span := d.span } := { h with }
    exact .change (((value_goes spanned env met List.mem_cons_self).locatedAt _).bind
      fun _ _ h => .pure h)
  | «variable» d =>
    obtain rfl := carries.eq_of_none rfl
    have spanned : c.Rests k { s with span := d.span } := { h with }
    have dereferenced := Goes.of_quiet spanned (dereference_quiet env ⟨d, site⟩)
      (dereference_failsOnly env _) (fun plain => dereference_resolved env plain h.resting) met
      fun _ unresolved fails blamed => .definition unresolved spanned.toAt fails blamed
    exact .change ((dereferenced.locatedAt _).bind fun _ _ h => .pure h)
  | mixin head rules =>
    obtain rfl := carries.eq_of_none rfl
    exact .pure h
  | call _ => cases fit.self.uncalled
  | fileImport i => cases other
  | atStatement name prelude span =>
    obtain rfl := carries.eq_of_none rfl
    exact (evaluatePrelude_goes h env span met fun v own => Option.mem_toList.mpr own).bind
      fun _ _ h => .pure h
  | ruleset selectors rules span =>
    exact evaluateRuleset_goes passes h carries (Rule.imports_of_block rfl rfl) (fit.inner rfl)
      (clear.inner rfl rfl) suits env met
  | media features rules span =>
    exact evaluateMedia_goes passes h carries (Rule.imports_of_block rfl rfl) (fit.inner rfl)
      (clear.inner rfl rfl) suits env met
  | atBlock name prelude rules span =>
    exact evaluateAtBlock_goes passes h carries (Rule.imports_of_block rfl rfl) (fit.inner rfl)
      (clear.inner rfl rfl) env met

theorem evaluateEntries_goes (h : c.Rests j s) (ready : c.Ready front j k es)
    (others : ∀ e ∈ es, Compiler.isImport e.rule = false) (env : Environment) (suits : c.Suits ctx) :
    c.Goes s (evaluateEntries evaluate env ctx es []) fun _ s' => c.Rests k s' := by
  induction es generalizing j s front with
  | nil =>
    cases ready.carries
    exact .pure h
  | cons e es ih =>
    simp only [List.forall_mem_cons] at others
    obtain ⟨m, behind, first, rest⟩ := ready.uncons h.toAt others.2
    unfold evaluateEntries
    split
    · contradiction
    · apply Within.bind (evaluateRule_goes passes h first others.1 env suits)
      intro own t h
      exact (ih h rest others.2).bind fun _ _ h => .pure h

theorem blockWith_goes : Passes c (blockWith evaluate) := by
  intro env ctx s k entered suits
  obtain ⟨id, m, front, innermost, h, ready, others⟩ := entered
  have uncalled : ∀ e ∈ (s.frames.get id).entries, ∀ call, e.rule ≠ .call call := by
    intro e member call isCall
    have none := (ready.fit e member).self.uncalled
    rw [isCall] at none
    cases none
  unfold blockWith
  rw [innermost]
  apply Ends.ofState
  rw [expandCalls_of_no_call evaluate ctx uncalled]
  exact Ends.ofState (evaluateEntries_goes passes h ready others env suits)

end

theorem blockWithin_goes (n : Nat) : Passes c (blockWithin n) := by
  induction n with
  | zero => exact fun _ _ => .failWith (.inr (.inr rfl))
  | succ n ih => exact blockWith_goes ih

end Eval

def Setting.withImportLimit (setting : Setting) (limit : Nat) : Setting :=
  { setting with options := { setting.options with maxImportDepth := limit } }

namespace Compiler

open Eval (Within)

variable {setting : Setting} {sheet : Stylesheet} (c : ImportChain setting sheet)

theorem registerSheet_rests : c.Goes {} (registerSheet sheet) fun _ s => c.Rests 0 s := by
  unfold registerSheet
  cases given : sheet.path with
  | none =>
    have main : setting.mainPath sheet = none := by simp [Setting.mainPath, given]
    refine Eval.Ends.pure ⟨⟨Nat.zero_le _, ?_, by simp, by simp, by simp [Importer.Remembers],
      rfl, rfl, rfl⟩, rfl⟩
    simp [filesUpTo, main]
  | some path =>
    have normalized := c.lexical.normalize path
    have main : setting.mainPath sheet = some (.ofPath path) := by
      simp [Setting.mainPath, given, normalized, Except.toOption]
    apply Eval.Ends.ofSetting
    rw [normalized]
    refine ⟨⟨Nat.zero_le _, ?_, ?_, ?_, ?_, rfl, rfl, rfl⟩, rfl⟩ <;>
      simp [filesUpTo, main, Importer.setMain, Importer.Remembers]

theorem openSheet_enters : c.Goes {} (openSheet sheet) fun env s => c.Entered env c.length s := by
  apply Within.bind (registerSheet_rests c)
  intro _ s h
  let frame := Frame.ofBlock (.written 0 []) sheet.rules 0
  let added : Evaluation := { s with frames := (s.frames.add frame).2 }
  have root : added.frames.get s.frames.size = frame := Frames.get_add_self s.frames frame
  have rests : c.Rests 0 added := { h with }
  have ready : c.Ready [] 0 c.length (added.frames.get s.frames.size).entries := by
    rw [root, show frame = Frame.ofBlock (.written 0 []) (c.rules 0) 0 by rw [c.starts]]
    exact Eval.block_ready (Nat.zero_le _) (.of_way rfl) _
  refine .bind_of_ok (Eval.addFrame_apply frame setting s) (.ofSetting ?_)
  refine Within.bind (Eval.expandImports_enters rests (by simp [added])
    (congrArg (·.base) root) ready _ true) ?_
  intro _ t ended
  obtain ⟨m, rests, ready, expanded⟩ := ended
  refine .bind_of_ok (Eval.replayDeferred_of_empty rests.deferred _ _) ?_
  exact .pure ⟨s.frames.size, m, _, rfl, rests, ready, expanded⟩

theorem resolveSheet_goes : c.Goes {} (resolveSheet sheet) fun _ s => c.Rests c.length s := by
  apply Within.bind (openSheet_enters c)
  intro env s entered
  refine .ofSetting (.ofSetting ?_)
  exact (Eval.blockWithin_goes _ entered fun _ => .inl rfl).bind fun _ _ h => .pure h

/-- A sheet at the head of a chain is resolved only if the chain is not too long. -/
theorem compile_goes :
    ((∃ result, (compile setting sheet).outcome = .ok result) ∧
        c.length ≤ setting.options.maxImportDepth) ∨
      ∃ f, (compile setting sheet).outcome = .error f ∧ c.Stops f.cause ∧ f.cause ≠ .exhausted := by
  have goes := resolveSheet_goes c
  have finishes := @resolveSheet_finishes setting sheet
  unfold compile compileFrom Eval.run
  rcases run : resolveSheet sheet setting {} with ⟨f | rules, s⟩
  · have stops : c.Stops f.cause := goes.failure run
    have finished : f.cause ≠ .exhausted := finishes.failure run
    exact .inr ⟨_, rfl, stops, finished⟩
  · exact .inl ⟨⟨_, rfl⟩, (goes.result run).within⟩

/-- A failure that is not for the import limit is there under a higher limit too. -/
theorem compile_of_higher_import_limit (failed : (compile setting sheet).outcome = .error f)
    (other : ∀ path n, f.cause ≠ .importTooDeep path n) (finished : f.cause ≠ .exhausted)
    (higher : setting.options.maxImportDepth ≤ limit) :
    (compile (setting.withImportLimit limit) sheet).outcome = .error f := by
  have stricter : setting.Stricter (setting.withImportLimit limit) :=
    ⟨rfl, rfl, rfl, rfl, rfl, id, Nat.le_refl _, higher, Nat.le_refl _⟩
  obtain ⟨same, -⟩ | ⟨g, warnings, stopped, stops, -⟩ := compile_agrees_or_stops stricter sheet
  · rw [← same, failed]
  · obtain rfl : g = f := by simpa [stopped] using failed
    cases stops with
    | inr first => exact absurd rfl first.1
    | inl exceeds =>
      unfold Cause.Exceeds at exceeds
      split at exceeds
      · exact absurd rfl exceeds
      · rename_i path n tooDeep
        exact absurd tooDeep (other path n)
      · exact absurd rfl exceeds
      · rename_i exhausted
        exact absurd exhausted finished
      · exact exceeds.elim

end Compiler

namespace Sources

def rulesOf (loader : Sources) (path : CanonicalPath) (file : Nat) : Except Failure (List Rule) :=
  match loader.load path with
  | .error message => .error { cause := .inputOutput message }
  | .ok source => (Stylesheet.read source file (some path.toPath)).map Stylesheet.rules

theorem rulesOf_reads {loader : Sources} (readable : (loader.rulesOf path file).isOk = true) :
    loader.Reads path file ((loader.rulesOf path file).toOption.getD []) := by
  unfold rulesOf at readable ⊢
  split at readable
  · cases readable
  · rename_i source loads
    cases read : Stylesheet.read source file (some path.toPath) with
    | error f =>
      rw [read] at readable
      cases readable
    | ok sheet => exact ⟨source, sheet, loads, read, rfl⟩

end Sources

namespace ImportChain

section

variable (setting : Setting) (sheet : Stylesheet) (path : Nat → CanonicalPath)

def rulesAlong : Nat → List Rule
  | 0 => sheet.rules
  | k + 1 => ((setting.loader.rulesOf (path k) (k + 1)).toOption).getD []

def linkAlong (k : Nat) : Import :=
  (Rule.importsOf (rulesAlong setting sheet path k)).headD ⟨.keyword "", {}, none, Span.none⟩

/-- The file can be read, and the only import in the one before leads to it and to no earlier one. -/
def LeadsTo (k : Nat) : Prop :=
  let link := linkAlong setting sheet path k
  (Rule.importsOf (rulesAlong setting sheet path k)).length = 1 ∧ link.isInterpolated = false ∧
    isPassThrough link.options (setting.referenceOf link) = false ∧
    setting.search (setting.referenceOf link)
      (({ files := filesUpTo (setting.mainPath sheet) path k } : Importer).directory
        link.span.file) = some (path k) ∧
    (setting.loader.rulesOf (path k) (k + 1)).isOk = true ∧
    (∀ j < k, path j ≠ path k) ∧ setting.mainPath sheet ≠ some (path k)

instance (k : Nat) : Decidable (LeadsTo setting sheet path k) :=
  inferInstanceAs (Decidable (_ ∧ _))

end

variable {setting : Setting} {sheet : Stylesheet}

/-- The chain through the files with these paths, if each of them leads to the next. -/
def ofPaths (lexical : setting.loader.Lexical) (path : Nat → CanonicalPath) (length : Nat)
    (leads : ∀ k < length, LeadsTo setting sheet path k)
    (ends : (Rule.importsOf (rulesAlong setting sheet path length)).length = 0)
    (uncalled : ∀ k ≤ length, ∀ r ∈ Rule.reachedOf (rulesAlong setting sheet path k),
      r.isCall = false) : ImportChain setting sheet where
  length
  rules := rulesAlong setting sheet path
  link := linkAlong setting sheet path
  path
  lexical
  starts := rfl
  links k inside := by
    obtain ⟨i, one⟩ := List.length_eq_one_iff.mp (leads k inside).1
    rw [linkAlong, one]
    rfl
  ends := List.length_eq_zero_iff.mp ends
  uncalled
  literal k inside := (leads k inside).2.1
  kept k inside := (leads k inside).2.2.1
  leads k inside := (leads k inside).2.2.2.1
  reads k inside := Sources.rulesOf_reads (leads k inside).2.2.2.2.1
  distinct j k before inside := (leads k inside).2.2.2.2.2.1 j before
  apart k inside := (leads k inside).2.2.2.2.2.2

end ImportChain

/-- The imports stand in a media block of the sheet and in a ruleset of the first file. -/
def nestedImports (features : Value) : Stylesheet :=
  ⟨some ⟨"main.less"⟩,
    [.media features [.fileImport ⟨.keyword "a", {}, none, ⟨0, 1, 9⟩⟩] ⟨0, 1, 1⟩]⟩

def nestedFiles (limit : Nat) : Setting :=
  { options := { maxImportDepth := limit }
    loader := (({} : Loader).insert ⟨"a.less"⟩ "p\x7b@import 'b';\x7d").insert ⟨"b.less"⟩ "q:r;" }

def nestedPath : Nat → CanonicalPath
  | 0 => ⟨["a.less"]⟩
  | _ => ⟨["b.less"]⟩

/-- A chain of two files, below a media block whose features refer to a variable. -/
def undefinedFeatures : ImportChain (nestedFiles 0) (nestedImports (.variable "x")) :=
  .ofPaths (Loader.lexical rfl) nestedPath 2 (by decide +kernel) (by decide +kernel)
    (by decide +kernel)

end StyleResolution
