import StyleResolution.Proofs.Normal.Form
import StyleResolution.Proofs.Sheet.Origin

/-! # What sheets are resolved to

Every rule of a result, at whatever depth, is a rule that a renderer can print: definitions and
calls are gone, values are without references, rulesets hold declarations, and media blocks are not
nested directly. At the root the contributions of the rules are sorted by kind, and keep their order
within each kind.
-/

namespace StyleResolution

open Eval Compiler

/-! ## The rules inside a rule -/

/-- Whether the rule is a definition or a call, which leave no trace in a result. -/
def Rule.isDefinitionOrCall : Rule → Bool
  | .variable _ | .mixin _ _ | .call _ => true
  | _ => false

/-- The values in a rule other than a definition or a call, its inner rules apart. -/
def Rule.values : Rule → List Value
  | .declaration d => [d.value]
  | .fileImport i => i.path :: i.media.toList
  | .media features _ _ => [features]
  | .atStatement _ prelude _ | .atBlock _ prelude _ _ => prelude.toList
  | _ => []

/-- What holds of every rule of a result. -/
structure Rule.Resolved (r : Rule) : Prop where
  remains : r.isDefinitionOrCall = false
  values : ∀ v ∈ r.values, v.hasReference = false
  ruleset : ∀ selectors rules span, r = .ruleset selectors rules span →
    rules ≠ [] ∧ ∀ c ∈ rules, ∃ d, c = .declaration d
  media : ∀ features rules span, r = .media features rules span →
    rules ≠ [] ∧ ∀ c ∈ rules, isMedia c = false

namespace Rule.Normal

variable {V : Value → Prop} {I : Import → Prop} {r : Rule}

theorem values_hold (imports : ∀ i, I i → V i.path ∧ ∀ v ∈ i.media, V v) (normal : r.Normal V I) :
    ∀ v ∈ r.values, V v := by
  cases normal with
  | declaration own => simpa [Rule.values] using own
  | ruleset => simp [Rule.values]
  | fileImport own => simpa [Rule.values] using imports _ own
  | media own => simpa [Rule.values] using own
  | atStatement own => simpa [Rule.values] using own
  | atBlock own => simpa [Rule.values] using own

theorem parts (normal : r.Normal V I) : ∀ p ∈ r.parts, p.Normal V I := by
  have declarations : ∀ {ds : List Declaration} {rules : List Rule}, (∀ d ∈ ds, V d.value) →
      (∀ r ∈ rules, ∀ p ∈ r.parts, p.Normal V I) →
      ∀ p ∈ Rule.partsOf (ds.map .declaration ++ rules), p.Normal V I := by
    intro ds rules own inner p member
    obtain ⟨r, inside, part⟩ := Rule.mem_partsOf.mp member
    cases List.mem_append.mp inside with
    | inl declared =>
      obtain ⟨d, isOwn, rfl⟩ := List.mem_map.mp declared
      cases List.mem_singleton.mp part
      exact .declaration (own d isOwn)
    | inr other => exact inner r other p part
  induction normal with
  | declaration own => exact List.forall_mem_singleton.mpr (.declaration own)
  | @ruleset selectors ds span nonempty own =>
    have inside := @declarations ds [] own (by simp)
    rw [List.append_nil] at inside
    exact List.forall_mem_cons.mpr ⟨.ruleset nonempty own, inside⟩
  | fileImport own => exact List.forall_mem_singleton.mpr (.fileImport own)
  | media features nonempty own bare inner ih =>
    exact List.forall_mem_cons.mpr
      ⟨.media features nonempty own bare inner, declarations own ih⟩
  | atStatement own => exact List.forall_mem_singleton.mpr (.atStatement own)
  | atBlock prelude own bare inner ih =>
    exact List.forall_mem_cons.mpr ⟨.atBlock prelude own bare inner, declarations own ih⟩

theorem restrict {W : Value → Prop} {J : Import → Prop}
    (imports : ∀ i, I i → (∀ v ∈ (Rule.fileImport i).values, W v) → J i) (normal : r.Normal V I)
    (values : ∀ p ∈ r.parts, ∀ v ∈ p.values, W v) : r.Normal (fun v => V v ∧ W v) J := by
  have declarations : ∀ {ds : List Declaration} {rules : List Rule}, (∀ d ∈ ds, V d.value) →
      (∀ p ∈ Rule.partsOf (ds.map .declaration ++ rules), ∀ v ∈ p.values, W v) →
      ∀ d ∈ ds, V d.value ∧ W d.value := by
    intro ds rules own values d member
    have inside := List.mem_append_left rules (List.mem_map_of_mem (f := Rule.declaration) member)
    exact ⟨own d member, values _ (Rule.mem_partsOf_of_mem inside) _ (List.mem_singleton_self _)⟩
  -- The values of the rule itself.
  have self := values r r.mem_parts_self
  induction normal with
  | declaration own => exact .declaration ⟨own, self _ (List.mem_singleton_self _)⟩
  | @ruleset selectors ds span nonempty own =>
    refine .ruleset nonempty (@declarations ds [] own ?_)
    rw [List.append_nil]
    exact fun p part => values p (List.mem_cons_of_mem _ part)
  | fileImport own => exact .fileImport (imports _ own self)
  | media features nonempty own bare inner ih =>
    have body := fun p part => values p (List.mem_cons_of_mem _ part)
    refine .media ⟨features, ?_⟩ nonempty (declarations own body) bare ?_
    · exact self _ (List.mem_singleton_self _)
    · intro r member
      have parts := fun p part =>
        body p (Rule.mem_partsOf.mpr ⟨r, List.mem_append_right _ member, part⟩)
      exact ih r member parts (parts r r.mem_parts_self)
  | atStatement own =>
    refine .atStatement fun v member => ⟨own v member, ?_⟩
    exact self v (by simpa [Rule.values] using member)
  | atBlock prelude own bare inner ih =>
    have body := fun p part => values p (List.mem_cons_of_mem _ part)
    refine .atBlock ?_ (declarations own body) bare ?_
    · intro v member
      exact ⟨prelude v member, self v (by simpa [Rule.values] using member)⟩
    · intro r member
      have parts := fun p part =>
        body p (Rule.mem_partsOf.mpr ⟨r, List.mem_append_right _ member, part⟩)
      exact ih r member parts (parts r r.mem_parts_self)

theorem resolved (imports : ∀ i, I i → i.path.hasReference = false ∧
      ∀ v ∈ i.media, v.hasReference = false)
    (normal : r.Normal (fun v => v.hasReference = false) I) : r.Resolved where
  remains := by cases normal <;> rfl
  values := normal.values_hold imports
  ruleset := by
    rintro selectors rules span rfl
    cases normal with
    | ruleset nonempty own => simpa using nonempty
  media := by
    rintro features rules span rfl
    cases normal with
    | media _ nonempty own bare inner =>
      refine ⟨nonempty, ?_⟩
      intro c member
      cases List.mem_append.mp member with
      | inl declared =>
        obtain ⟨d, -, rfl⟩ := List.mem_map.mp declared
        rfl
      | inr other => exact (bare c other).2

end Rule.Normal

/-! ## The order of the root -/

def Output.joined (os : List Output) : Output :=
  os.foldr (· ++ ·) {}

theorem Output.joined_declarations (os : List Output) :
    (joined os).declarations = os.flatMap (·.declarations) := by
  induction os with
  | nil => rfl
  | cons o os ih => exact congrArg (o.declarations ++ ·) ih

theorem Output.joined_rules (os : List Output) : (joined os).rules = os.flatMap (·.rules) := by
  induction os with
  | nil => rfl
  | cons o os ih => exact congrArg (o.rules ++ ·) ih

namespace Eval

variable {α β : Type} {setting : Setting} {s t : Evaluation}

theorem bind_eq_ok {x : Eval α} {next : α → Eval β} (run : (x >>= next) setting s = (.ok b, t)) :
    ∃ a u, x setting s = (.ok a, u) ∧ next a setting u = (.ok b, t) := by
  rw [bind_apply] at run
  rcases ran : x setting s with ⟨f | a, u⟩ <;> rw [ran] at run
  · cases run
  · exact ⟨a, u, rfl, run⟩

def evaluateEach (evaluate : BlockEvaluator) (env : Environment) (ctx : Context) :
    List Entry → List Output → Eval (List Output)
  | [], _ => pure []
  | e :: es, expansions => do
    match e.rule, expansions with
    | .call _, expanded :: later =>
      let others ← evaluateEach evaluate env ctx es later
      pure (expanded :: others)
    | _, _ =>
      let own ← evaluateRule evaluate env ctx e
      let others ← evaluateEach evaluate env ctx es expansions
      pure (own :: others)

theorem evaluateEntries_eq_joined (evaluate : BlockEvaluator) (env : Environment) (ctx : Context)
    (es : List Entry) (expansions : List Output) :
    evaluateEntries evaluate env ctx es expansions =
      evaluateEach evaluate env ctx es expansions >>= fun os => pure (Output.joined os) := by
  induction es generalizing expansions with
  | nil => rfl
  | cons e es ih =>
    unfold evaluateEntries evaluateEach
    generalize e.rule = rule
    cases rule <;> cases expansions <;> simp only [ih, bind_assoc, pure_bind] <;> rfl

theorem blockWith_eq_joined {evaluate : BlockEvaluator} {env : Environment} {ctx : Context}
    {id : FrameId} (innermost : env.innermost? = some id) {o : Output}
    (run : blockWith evaluate env ctx setting s = (.ok o, t)) :
    ∃ expansions u os,
      expandCalls evaluate env ctx (s.frames.get id).entries setting s = (.ok expansions, u) ∧
        evaluateEach evaluate env ctx (u.frames.get id).entries expansions setting u = (.ok os, t) ∧
        o = Output.joined os := by
  unfold blockWith at run
  rw [innermost] at run
  change (expandCalls evaluate env ctx (s.frames.get id).entries >>= fun expansions =>
    frame id >>= fun f => evaluateEntries evaluate env ctx f.entries expansions) setting s = _ at run
  obtain ⟨expansions, u, calls, entries⟩ := bind_eq_ok run
  change evaluateEntries evaluate env ctx (u.frames.get id).entries expansions setting u = _
    at entries
  rw [evaluateEntries_eq_joined] at entries
  obtain ⟨os, _, each, joined⟩ := bind_eq_ok entries
  cases joined
  exact ⟨expansions, u, os, calls, each, rfl⟩

end Eval

theorem Output.Normal.arranged (normal : o.Normal V I) :
    ∀ r ∈ arrange o, r.Normal V I := by
  intro r member
  simp only [arrange, List.mem_append, List.mem_filter, Output.declarationRules,
    List.mem_map] at member
  rcases member with (⟨inside, -⟩ | ⟨d, own, rfl⟩) | ⟨inside, -⟩
  · exact normal.rules r inside
  · exact .declaration (normal.declarations d own)
  · exact normal.rules r inside

namespace Compiler

open Eval (Yields Ends Resolving)

variable {setting : Setting} {sheet : Stylesheet}

/-- The contributions of the rules that stand in the root once its imports and the calls in it are
    expanded, in the order of these rules. -/
def Contributed (setting : Setting) (sheet : Stylesheet) (os : List Output) : Prop :=
  ∃ n env root s expansions t u,
    openSheet sheet setting {} = (.ok env, s) ∧ env.innermost? = some root ∧
      expandCalls (blockWithin n) env {} (s.frames.get root).entries setting s =
        (.ok expansions, t) ∧
      evaluateEach (blockWithin n) env {} (t.frames.get root).entries expansions
        setting t = (.ok os, u)

theorem arrange_joined (os : List Output) :
    arrange (Output.joined os) = os.flatMap (·.rules.filter isImport) ++
      os.flatMap Output.declarationRules ++ os.flatMap (·.rules.filter (!isImport ·)) := by
  simp only [arrange, Output.declarationRules, Output.joined_declarations, Output.joined_rules,
    List.filter_flatMap, List.map_flatMap]
  rfl

theorem openSheet_root (sheet : Stylesheet) :
    Yields setting {} (openSheet sheet) fun env s =>
      s.defaultAnswer = none ∧ env = { frames := [0] } ∧ 0 < s.frames.size := by
  refine Yields.bind ((Yields.any _).keeping (registerSheet_loads sheet)) ?_
  intro _ t ⟨_, loads⟩
  have empty : t.frames.size = 0 := loads.size
  have idle : t.defaultAnswer = none := (@Loads.local 0 _ _ loads none).idle rfl
  refine .bind_of_ok (addFrame_apply _ setting t) ?_
  refine Ends.ofSetting (Yields.bind ((Yields.any _).keeping
    (expandImports_splices _ _ true)) ?_)
  intro _ u ⟨_, expanded⟩
  refine Yields.bind ((Yields.any _).keeping (replayDeferred_splices _ _)) ?_
  intro _ v ⟨_, replayed⟩
  have moved := expanded.trans replayed
  refine Ends.pure ⟨(@Splices.local 0 _ _ _ moved).idle idle, ?_, ?_⟩
  · rw [empty]
  · rw [moved.size]
    simp

theorem compile_ok (ok : (compile setting sheet).outcome = .ok result) :
    ∃ s, resolveSheet sheet setting {} = (.ok result.sheet.rules, s) ∧
      result = ⟨⟨sheet.path, result.sheet.rules⟩, s.warnings.toList⟩ := by
  unfold compile compileFrom run at ok
  rcases run : resolveSheet sheet setting {} with ⟨failure | rules, s⟩ <;> rw [run] at ok <;> cases ok
  exact ⟨s, rfl, rfl⟩

theorem resolveSheet_normal {V : Value → Prop} {E I : Import → Prop}
    (resolving : Resolving setting V E I)
    (ready : ∀ {env s}, openSheet sheet setting {} = (.ok env, s) → s.Holds E 0)
    {rules : List Rule} {t : Evaluation} (run : resolveSheet sheet setting {} = (.ok rules, t)) :
    ∃ os, Contributed setting sheet os ∧ rules = arrange (Output.joined os) ∧
      (Output.joined os).Normal V I := by
  obtain ⟨env, s, opened, run⟩ := bind_eq_ok run
  change (blockWithin (nestingBound setting.options (ruleBound setting.loader sheet)) env {} >>=
    fun output => pure (arrange output)) setting s = _ at run
  obtain ⟨o, u, block, arranged⟩ := bind_eq_ok run
  cases arranged
  obtain ⟨idle, rfl, inside⟩ := (openSheet_root sheet).result opened
  have atRoot : Environment.Ready E { frames := [0] } s := by
    intro id innermost
    cases innermost
    exact ⟨inside, ready opened⟩
  have normal := (blockWithin_resolves resolving _ idle atRoot (by simp)).result block
  obtain ⟨n, positive⟩ : ∃ n, nestingBound setting.options (ruleBound setting.loader sheet) = n + 1 :=
    ⟨_, rfl⟩
  rw [positive] at block
  change blockWith (blockWithin n) { frames := [0] } {} setting s = _ at block
  obtain ⟨expansions, v, os, calls, each, rfl⟩ :=
    blockWith_eq_joined (show Environment.innermost? { frames := [0] } = some 0 from rfl) block
  exact ⟨os, ⟨n, _, 0, s, expansions, v, _, opened, rfl, calls, each⟩, rfl, normal.1⟩

end Compiler

/-- The normal form of results: if the functions make no references, then in what a sheet compiles
    to, at whatever depth, there are no definitions and no calls, no value refers to a variable,
    rulesets are not empty and hold declarations alone, and media blocks are not empty and have no
    media blocks directly in them. Its root is made of what the rules of the sheet contribute, first
    the imports, then the declarations and then all other rules, each in the order in which the
    rules are evaluated. -/
theorem compiled_sheets_are_normal (setting : Setting) (sheet : Stylesheet)
    (functions : ∀ name args result, (∀ v ∈ args, v.hasReference = false) →
      setting.functions name args = some result → result.hasReference = false)
    (result : Compilation) (ok : (compile setting sheet).outcome = .ok result) :
    (∀ r ∈ Rule.partsOf result.sheet.rules, r.Resolved) ∧
      ∃ os, Compiler.Contributed setting sheet os ∧
        (∀ o ∈ os, ∀ r ∈ o.rules, r.asDeclaration = none) ∧
        result.sheet.rules = os.flatMap (·.rules.filter isImport) ++
          os.flatMap Output.declarationRules ++
          os.flatMap (·.rules.filter (!isImport ·)) := by
  have resolving : Eval.Resolving setting (fun v => v.hasReference = false) (fun _ => True)
      fun i => i.path.hasReference = false ∧ ∀ v ∈ i.media, v.hasReference = false := by
    have closed := closed_of_functions functions
    refine ⟨closed, ?_, ?_⟩
    · intro id env s _
      exact (Eval.Yields.any _).imp (fun _ _ _ _ _ _ _ => trivial)
    · intro env i _
      apply Eval.Unguarded.bind ((value_unguarded closed env i.path).mapFailure _)
      intro path own
      apply Eval.Unguarded.bind (evaluatePrelude_unguarded closed env i.span i.media)
      intro media others
      exact .pure (.single rfl (.fileImport ⟨own, others⟩))
  obtain ⟨s, run, -⟩ := compile_ok ok
  obtain ⟨os, contributed, arranged, normal⟩ :=
    resolveSheet_normal resolving (fun _ _ _ _ _ => trivial) run
  rw [arranged]
  refine ⟨?_, os, contributed, ?_, arrange_joined os⟩
  · intro p member
    obtain ⟨r, inside, part⟩ := Rule.mem_partsOf.mp member
    exact ((normal.arranged r inside).parts p part).resolved fun _ own => own
  · intro o member r inside
    apply normal.bare
    rw [Output.joined_rules]
    exact List.mem_flatMap.mpr ⟨o, member, inside⟩

/-- A library with one function, which puts its arguments next to each other. -/
def adjoining : FunctionLibrary := fun name args =>
  if name = "adjoin" then some (.spaceList args) else none

theorem adjoining_hasReference (name : String) (args : List Value) (result : Value)
    (own : ∀ v ∈ args, v.hasReference = false) (given : adjoining name args = some result) :
    result.hasReference = false := by
  unfold adjoining at given
  split at given <;> cases given
  exact Value.anyReference_eq_false.mpr own

/-- A declaration before its definition, a mixin with a ruleset in it that is called in a ruleset, a
    media block in that ruleset, and a plain import at the end. -/
def scatteredSheet : Stylesheet :=
  ⟨none,
    [.declaration ⟨"p", .variable "x", false, Span.none⟩,
      .variable ⟨"x", .keyword "red", Span.none⟩,
      .mixin ⟨".m", [], none, Span.none⟩
        [.ruleset [⟨[⟨.attached, .literal ".b"⟩]⟩]
          [.declaration ⟨"q", .call "adjoin" [.variable "x", .variable "x"], false, Span.none⟩]
          Span.none],
      .ruleset [⟨[⟨.attached, .literal ".a"⟩]⟩]
        [.call ⟨[".m"], [], false, Span.none⟩,
          .media (.variable "x") [.declaration ⟨"r", .variable "x", false, Span.none⟩] Span.none]
        Span.none,
      .fileImport ⟨.keyword "plain.css", {}, some (.variable "x"), Span.none⟩]⟩

theorem scatteredSheet_is_normal :
    ∃ result, (compile { functions := adjoining } scatteredSheet).outcome = .ok result ∧
      result.sheet.rules.map isImport = [true, false, false, false] ∧
      (Rule.partsOf result.sheet.rules).length = 7 ∧
      (∀ r ∈ Rule.partsOf result.sheet.rules, r.Resolved) ∧
      ∃ os, Compiler.Contributed { functions := adjoining } scatteredSheet os ∧
        result.sheet.rules = os.flatMap (·.rules.filter isImport) ++
          os.flatMap Output.declarationRules ++
          os.flatMap (·.rules.filter (!isImport ·)) := by
  have compiles : (compile { functions := adjoining } scatteredSheet).outcome.toOption.map
      (fun result => (result.sheet.rules.map isImport,
        (Rule.partsOf result.sheet.rules).length)) = some ([true, false, false, false], 7) := by
    decide +kernel
  cases outcome : (compile { functions := adjoining } scatteredSheet).outcome with
  | error failure =>
    rw [outcome] at compiles
    cases compiles
  | ok result =>
    rw [outcome] at compiles
    obtain ⟨first, parts⟩ := Prod.mk.inj (Option.some.inj compiles)
    obtain ⟨resolved, os, contributed, -, order⟩ :=
      compiled_sheets_are_normal { functions := adjoining } scatteredSheet
        adjoining_hasReference result outcome
    exact ⟨result, rfl, first, parts, resolved, os, contributed, order⟩

end StyleResolution
