import StyleResolution.Proofs.Coupling.Inlining

/-! # Blocks that belong together

Blocks that belong together evaluate to the same output. A call that was replaced is expanded before
anything else of its block is evaluated, and the rules in its place are evaluated where they stand;
both contribute what is read off these rules. If there is nothing to be read off them, because their
selectors cannot be combined with those around them, neither block has an output.
-/

namespace StyleResolution

namespace Eval

variable {evaluate : BlockEvaluator} {env : Environment} {ctx : Context} {e : Entry}
  {es new : List Entry}

/-! ## Equations -/

theorem expandCalls_call (rule : e.rule = .call c) :
    expandCalls evaluate env ctx (e :: es) = noteCalling e.site c env >>= fun _ =>
      callMixin evaluate env ctx e.nesting c >>= fun expanded =>
        expandCalls evaluate env ctx es >>= fun others => pure (expanded :: others) := by
  conv_lhs => unfold expandCalls
  rw [rule]

theorem expandCalls_other (uncalled : ∀ c, e.rule ≠ .call c) :
    expandCalls evaluate env ctx (e :: es) = expandCalls evaluate env ctx es := by
  conv_lhs => unfold expandCalls
  split
  · rename_i c isCall
    exact absurd isCall (uncalled c)
  · rfl

theorem expandCalls_append (uncalled : ∀ e ∈ new, ∀ c, e.rule ≠ .call c) :
    expandCalls evaluate env ctx (new ++ es) = expandCalls evaluate env ctx es := by
  induction new with
  | nil => rfl
  | cons e new ih =>
    simp only [List.forall_mem_cons] at uncalled
    rw [List.cons_append, expandCalls_other uncalled.1, ih uncalled.2]

theorem evaluateEntries_call (rule : e.rule = .call c) (o : Output) (later : List Output) :
    evaluateEntries evaluate env ctx (e :: es) (o :: later) =
      evaluateEntries evaluate env ctx es later >>= fun others => pure (o ++ others) := by
  conv_lhs => unfold evaluateEntries
  rw [rule]

theorem evaluateEntries_other (uncalled : ∀ c, e.rule ≠ .call c) (outputs : List Output) :
    evaluateEntries evaluate env ctx (e :: es) outputs =
      evaluateRule evaluate env ctx e >>= fun own =>
        evaluateEntries evaluate env ctx es outputs >>= fun others => pure (own ++ others) := by
  conv_lhs => unfold evaluateEntries
  split
  · rename_i isCall
    exact absurd isCall (uncalled _)
  · rfl

theorem evaluateEntries_append (uncalled : ∀ e ∈ new, ∀ c, e.rule ≠ .call c)
    (outputs : List Output) :
    evaluateEntries evaluate env ctx (new ++ es) outputs =
      evaluateEntries evaluate env ctx new outputs >>= fun own =>
        evaluateEntries evaluate env ctx es outputs >>= fun others => pure (own ++ others) := by
  induction new with
  | nil => simp only [List.nil_append, evaluateEntries, pure_bind, Output.empty_append, bind_pure]
  | cons e new ih =>
    simp only [List.forall_mem_cons] at uncalled
    rw [List.cons_append, evaluateEntries_other uncalled.1, evaluateEntries_other uncalled.1,
      ih uncalled.2]
    simp only [bind_assoc, pure_bind, Output.append_assoc]

/-- Evaluates the rules of a frame: first the calls among them, then the rules themselves, and what
    the calls exported. -/
def evaluateFrame (evaluate : BlockEvaluator) (env : Environment) (ctx : Context) (id : FrameId) :
    Eval Output := do
  let expansions ← expandCalls evaluate env ctx (← frame id).entries
  evaluateEntries evaluate env ctx (← frame id).entries expansions

theorem blockWithin_succ {id : FrameId} (innermost : env.innermost? = some id) (n : Nat) :
    blockWithin (n + 1) env ctx = evaluateFrame (blockWithin n) env ctx id := by
  conv_lhs => unfold blockWithin blockWith
  rw [innermost]
  rfl

def checkDefinition (env : Environment) (v : Variable) : Eval Unit := do
  setSpan v.definition.span
  let _ ← locatedAt v.definition.span (dereference env v)

theorem evaluateEntries_variable (rule : e.rule = .variable d) (outputs : List Output) :
    evaluateEntries evaluate env ctx (e :: es) outputs =
      checkDefinition env ⟨d, e.site⟩ >>= fun _ => evaluateEntries evaluate env ctx es outputs := by
  rw [evaluateEntries_other (by simp [rule])]
  unfold evaluateRule
  rw [rule]
  simp only [evaluateDefinition, checkDefinition, bind_assoc, pure_bind, Output.empty_append,
    bind_pure]

theorem checkDefinition_prepares {setting : Setting} (env : Environment) (v : Variable) :
    Keeps setting Prepares (checkDefinition env v) := by
  have spanned : Keeps setting Prepares (setSpan v.definition.span) :=
    fun s => ⟨{ Extends.refl s with }, rfl, rfl⟩
  exact .bind spanned fun _ => .bind ((dereference_quiet env v).prepares.locatedAt _)
    fun _ => .pure _

end Eval

open Eval

namespace Coupling

variable {K : Coupling} {setting : Setting} {W W' : World} {s t : Evaluation} {i j : FrameId}
  {env env' : Environment} {n m : Nat} {e e' : Entry} {es es' : List Entry}

/-! ## Rules -/

theorem enterBlock_pairs (lawful : K.Lawful setting)
    (aligned : Aligned Placed.rule K.cut K.twin (Placed.ofBlock site rules) (Placed.ofBlock site' rules'))
    (envs : EnvLink W env env') (sim : K.Sim W s t) (nesting : Nat) :
    K.Pairs setting W s t (enterBlock env site rules nesting) (enterBlock env' site' rules' nesting)
      EnvLink := by
  refine .bind (addBlock_ties sim aligned nesting) ?_
  intro W₁ i j s₁ t₁ grown linked sim₁
  have inner := (envs.mono grown).push linked
  refine .bind (expandImports_pairs lawful linked inner sim₁) ?_
  rintro W₂ _ _ s₂ t₂ grown₂ - sim₂
  exact .pure (inner.mono grown₂) sim₂

theorem effectiveSelectors_pairs (sim : K.Sim W s t) (ancestors selectors : List Selector)
    (span : Span) :
    K.Pairs setting W s t (effectiveSelectors ancestors selectors span)
      (effectiveSelectors ancestors selectors span) fun _ a b => a = b := by
  refine .ofSetting ?_
  dsimp only
  split
  · exact .fail fun _ => rfl
  · split
    · exact .pure rfl sim
    · exact .change (.pure rfl (sim.logged _ _))

section

variable (lawful : K.Lawful setting) (evaluates : K.Evaluates setting n m)
  (envs : EnvLink W env env') (sim : K.Sim W s t) (ctx : Context) (nesting : e'.nesting = e.nesting)
  (aligned : Aligned Placed.rule K.cut K.twin (Placed.ofBlock e.site rules) (Placed.ofBlock e'.site rules'))

include lawful evaluates envs sim ctx nesting aligned

theorem evaluateRuleset_pairs (selectors : List Selector) (span : Span) :
    K.Pairs setting W s t (evaluateRuleset (blockWithin n) env ctx e selectors rules span)
      (evaluateRuleset (blockWithin m) env' ctx e' selectors rules' span) fun _ a b => a = b := by
  unfold evaluateRuleset
  rw [nesting]
  refine .bind (effectiveSelectors_pairs sim _ _ _) ?_
  rintro W₁ effective _ s₁ t₁ grown₁ rfl sim₁
  refine .bind ((enterBlock_pairs lawful aligned (envs.mono grown₁) sim₁ e.nesting).insideOf _) ?_
  intro W₂ inner inner' s₂ t₂ grown₂ link sim₂
  exact .map ((evaluates _ link sim₂).insideOf _)

theorem evaluateMedia_pairs (features : Value) (span : Span) :
    K.Pairs setting W s t (evaluateMedia (blockWithin n) env ctx e features rules span)
      (evaluateMedia (blockWithin m) env' ctx e' features rules' span) fun _ a b => a = b := by
  unfold evaluateMedia
  rw [nesting]
  refine .bind ((value_ties lawful sim envs features).locatedAt span) ?_
  rintro W₁ own _ s₁ t₁ grown₁ rfl sim₁
  refine .bind (enterBlock_pairs lawful aligned (envs.mono grown₁) sim₁ e.nesting) ?_
  intro W₂ inner inner' s₂ t₂ grown₂ link sim₂
  exact .map (evaluates _ link sim₂)

theorem evaluateAtBlock_pairs (name : String) (prelude : Option Value) (span : Span) :
    K.Pairs setting W s t (evaluateAtBlock (blockWithin n) env ctx e name prelude rules span)
      (evaluateAtBlock (blockWithin m) env' ctx e' name prelude rules' span) fun _ a b => a = b := by
  unfold evaluateAtBlock
  rw [nesting]
  refine .bind (evaluatePrelude_ties lawful sim envs span prelude) ?_
  rintro W₁ evaluated _ s₁ t₁ grown₁ rfl sim₁
  refine .bind (enterBlock_pairs lawful aligned (envs.mono grown₁) sim₁ e.nesting) ?_
  intro W₂ inner inner' s₂ t₂ grown₂ link sim₂
  exact .map ((evaluates _ link sim₂).insideOf _)

end

section

variable (lawful : K.Lawful setting) (envs : EnvLink W env env') (sim : K.Sim W s t)

include lawful envs sim

theorem evaluateImport_pairs (i : Import) :
    K.Pairs setting W s t (evaluateImport env i) (evaluateImport env' i) fun _ a b => a = b := by
  refine .bind ((value_ties lawful sim envs i.path).locatedAt i.span) ?_
  rintro W₁ path _ s₁ t₁ grown rfl sim₁
  exact .map (evaluatePrelude_ties lawful sim₁ (envs.mono grown) i.span i.media)

theorem evaluateDeclaration_pairs (ctx : Context) (d : Declaration) :
    K.Pairs setting W s t (evaluateDeclaration env ctx d) (evaluateDeclaration env' ctx d)
      fun _ a b => a = b := by
  refine .change ?_
  exact .map ((value_ties lawful (sim.respan _ _) envs d.value).locatedAt d.span)

theorem evaluateDefinition_pairs (agree : v.Agree (K.SiteLink W) w) :
    K.Pairs setting W s t (evaluateDefinition env v) (evaluateDefinition env' w)
      fun _ a b => a = b := by
  unfold evaluateDefinition
  rw [← agree.1]
  refine .change ?_
  refine .bind ((dereference_ties lawful (sim.respan _ _) envs agree).locatedAt _) ?_
  rintro W₁ _ _ s₁ t₁ - - sim₁
  exact .pure rfl sim₁

end

theorem evaluateRule_pairs (lawful : K.Lawful setting) (evaluates : K.Evaluates setting n m)
    (link : K.EntryLink W e e') (envs : EnvLink W env env') (sim : K.Sim W s t) (ctx : Context) :
    K.Pairs setting W s t (evaluateRule (blockWithin n) env ctx e)
      (evaluateRule (blockWithin m) env' ctx e') fun _ a b => a = b := by
  have leaf : e.rule.block? = none → e'.rule = e.rule := link.1.same lawful
  have block : ∀ {rules}, e.rule.block? = some rules → ∃ rules', e'.rule = e.rule.withBlock rules' ∧
      Aligned Placed.rule K.cut K.twin (Placed.ofBlock e.site rules)
        (Placed.ofBlock e'.site rules') := by
    intro rules has
    obtain ⟨rules', same, -, -, aligned⟩ := link.1.inner lawful has
    exact ⟨rules', same, aligned⟩
  unfold evaluateRule
  cases rule : e.rule <;> rw [rule] at leaf block
  case declaration d =>
    rw [leaf rfl]
    exact evaluateDeclaration_pairs lawful envs sim ctx d
  case «variable» d =>
    obtain ⟨same, agree⟩ := link.agree lawful rule
    rw [same]
    exact evaluateDefinition_pairs lawful envs sim agree
  case ruleset selectors rules span =>
    obtain ⟨rules', same, aligned⟩ := block rfl
    rw [same]
    exact evaluateRuleset_pairs lawful evaluates envs sim ctx link.2 aligned selectors span
  case mixin head rules =>
    obtain ⟨rules', same, -⟩ := block rfl
    rw [same]
    exact .pure rfl sim
  case call c =>
    rw [leaf rfl]
    exact .pure rfl sim
  case fileImport i =>
    rw [leaf rfl]
    exact evaluateImport_pairs lawful envs sim i
  case media features rules span =>
    obtain ⟨rules', same, aligned⟩ := block rfl
    rw [same]
    exact evaluateMedia_pairs lawful evaluates envs sim ctx link.2 aligned features span
  case atStatement name prelude span =>
    rw [leaf rfl]
    exact .map (evaluatePrelude_ties lawful sim envs span prelude)
  case atBlock name prelude rules span =>
    obtain ⟨rules', same, aligned⟩ := block rfl
    rw [same]
    exact evaluateAtBlock_pairs lawful evaluates envs sim ctx link.2 aligned name prelude span

/-! ## Calls of a block -/

theorem EntryLink.call (lawful : K.Lawful setting) (link : K.EntryLink W e e') {c : MixinCall}
    (rule : e.rule = .call c) :
    e'.rule = .call c ∧ ¬ K.replaced e.site ∧ ∀ name ∈ c.path, K.named name := by
  have same : e'.rule = .call c := (link.1.same lawful (by rw [rule]; rfl)).trans rule
  obtain ⟨⟨r, site⟩, nesting⟩ := e
  obtain ⟨⟨r', site'⟩, nesting'⟩ := e'
  cases rule
  cases link.1 with
  | twin twin => exact ⟨same, lawful.kept _ _ twin, lawful.named _ _ c twin rfl⟩

theorem EntryLink.uncalled (lawful : K.Lawful setting) (link : K.EntryLink W e e')
    (uncalled : ∀ c, e.rule ≠ .call c) : ∀ c, e'.rule ≠ .call c := by
  obtain ⟨⟨r, site⟩, nesting⟩ := e
  obtain ⟨⟨r', site'⟩, nesting'⟩ := e'
  cases link.1.shape lawful with
  | leaf => exact uncalled
  | block => cases r <;> simp_all [Rule.withBlock]

theorem cuts.uncalled (lawful : K.Lawful setting) (isCut : K.cuts e new) :
    ∀ n ∈ new, ∀ c, n.rule ≠ .call c :=
  fun n member => not_call_of_isStatic (isCut.static lawful n member)

/-- What the calls among rules expand to: a call that was replaced is expanded by the first
    compilation only, to what its replacement contributes. -/
inductive Expansions (K : Coupling) (setting : Setting) (ctx : Context) :
    List Entry → List Output → List Output → Prop where
  | nil : Expansions K setting ctx [] [] []
  | other {e : Entry} {es : List Entry} {os os' : List Output} (uncalled : ∀ c, e.rule ≠ .call c)
      (rest : Expansions K setting ctx es os os') : Expansions K setting ctx (e :: es) os os'
  | kept {e : Entry} {es : List Entry} {os os' : List Output} {c : MixinCall}
      (call : e.rule = .call c) (kept : ¬ K.replaced e.site) (o : Output)
      (rest : Expansions K setting ctx es os os') :
      Expansions K setting ctx (e :: es) (o :: os) (o :: os')
  | replaced {e : Entry} {es : List Entry} {os os' : List Output} {o : Output}
      (call : e.rule = .call K.call) (replaced : K.replaced e.site)
      (output : Rule.outputs? setting ctx K.body = some o)
      (rest : Expansions K setting ctx es os os') : Expansions K setting ctx (e :: es) (o :: os) os'

theorem Expansions.append (uncalled : ∀ e ∈ new, ∀ c, e.rule ≠ .call c)
    (rest : K.Expansions setting ctx es os os') : K.Expansions setting ctx (new ++ es) os os' := by
  induction new with
  | nil => exact rest
  | cons e new ih =>
    simp only [List.forall_mem_cons] at uncalled
    exact .other uncalled.1 (ih uncalled.2)

theorem expandCalls_kept (lawful : K.Lawful setting) (evaluates : K.Evaluates setting n m)
    (link : K.EntryLink W e e') (envs : EnvLink W env env') (sim : K.Sim W s t) (ctx : Context)
    (rule : e.rule = .call c)
    (then_ : ∀ W' s' t', W ≤ W' → K.Sim W' s' t' →
      K.Pairs setting W' s' t' (expandCalls (blockWithin n) env ctx es)
        (expandCalls (blockWithin m) env' ctx es') fun _ => K.Expansions setting ctx es) :
    K.Pairs setting W s t (expandCalls (blockWithin n) env ctx (e :: es))
      (expandCalls (blockWithin m) env' ctx (e' :: es'))
      fun _ => K.Expansions setting ctx (e :: es) := by
  obtain ⟨same, kept, named⟩ := link.call lawful rule
  rw [expandCalls_call rule, expandCalls_call same, link.2]
  have noted : K.Sim W (noteCalling e.site c env setting s).2
      (noteCalling e'.site c env' setting t).2 :=
    sim.extend { Extends.refl s with } { Extends.refl t with } sim.importer
  refine .change ?_
  refine .bind (callMixin_pairs lawful evaluates named envs noted ctx e.nesting) ?_
  rintro W₁ o _ s₁ t₁ grown rfl sim₁
  refine .bind (then_ W₁ s₁ t₁ grown sim₁) ?_
  rintro W₂ os os' s₂ t₂ - rest sim₂
  exact .pure (.kept rule kept o rest) sim₂

theorem expandCalls_pairs (lawful : K.Lawful setting) (evaluates : K.Evaluates setting n m)
    (matched : K.Matched W es es') (grown : W ≤ W') (envs : EnvLink W' env env')
    (sim : K.Sim W' s t) (ctx : Context)
    (sound : ∀ e ∈ es, e.rule = .call K.call → K.replaced e.site →
      Rule.outputs? setting ctx K.body ≠ none) :
    K.Pairs setting W' s t (expandCalls (blockWithin n) env ctx es)
      (expandCalls (blockWithin m) env' ctx es') fun _ => K.Expansions setting ctx es := by
  induction matched generalizing W' s t with
  | nil => exact .pure .nil sim
  | @cons e e' es es' link rest ih =>
    simp only [List.forall_mem_cons] at sound
    have link := EntryLink.mono link grown
    by_cases called : ∃ c, e.rule = .call c
    · obtain ⟨c, rule⟩ := called
      exact expandCalls_kept lawful evaluates link envs sim ctx rule
        fun W₁ s₁ t₁ grown₁ sim₁ => ih (grown.trans grown₁) (envs.mono grown₁) sim₁ sound.2
    · have uncalled := not_exists.mp called
      rw [expandCalls_other uncalled, expandCalls_other (link.uncalled lawful uncalled)]
      exact .mono (ih grown envs sim sound.2) fun _ _ _ _ => .other uncalled
  | @swap v v' r r' es es' passes first second rest ih =>
    obtain ⟨d, rule, -⟩ := passes
    simp only [List.forall_mem_cons] at sound
    have second := EntryLink.mono second grown
    have uncalled : ∀ c, v.rule ≠ .call c := by simp [rule]
    have uncalledToo : ∀ c, v'.rule ≠ .call c := by simp [(first.agree lawful rule).1]
    suffices rest : K.Pairs setting W' s t (expandCalls (blockWithin n) env ctx (r :: es))
        (expandCalls (blockWithin m) env' ctx (r' :: v' :: es'))
        fun _ => K.Expansions setting ctx (r :: es) by
      rw [expandCalls_other uncalled]
      exact .mono rest fun _ _ _ _ => .other uncalled
    by_cases called : ∃ c, r.rule = .call c
    · obtain ⟨c, isCall⟩ := called
      refine expandCalls_kept lawful evaluates second envs sim ctx isCall ?_
      intro W₁ s₁ t₁ grown₁ sim₁
      rw [expandCalls_other uncalledToo]
      exact ih (grown.trans grown₁) (envs.mono grown₁) sim₁ sound.2.2
    · have uncalled := not_exists.mp called
      rw [expandCalls_other uncalled, expandCalls_other (second.uncalled lawful uncalled),
        expandCalls_other uncalledToo]
      exact .mono (ih grown envs sim sound.2.2) fun _ _ _ _ => .other uncalled
  | @cut e new es es' isCut rest ih =>
    simp only [List.forall_mem_cons] at sound
    have replaced := isCut.2.1
    rw [expandCalls_call isCut.rule, expandCalls_append (isCut.uncalled lawful),
      ← bind_pure (expandCalls (blockWithin m) env' ctx es')]
    refine Tied.ahead rfl (Tied.assume fun fair => ?_)
    have settled := callMixin_inlined lawful replaced envs sim fair n ctx e.nesting
    refine Tied.leading (settled.mono (fun _ _ ended => ended) fun f _ failed =>
      ⟨id, failed.resolve_left (sound.1 isCut.rule replaced)⟩) ?_
    rintro o s₁ ⟨output, extended, importer⟩
    have noted : K.Sim W' (noteCalling e.site K.call env setting s).2 t :=
      sim.extendLeft { Extends.refl s with } rfl
    have sim₁ := noted.extendLeft extended importer
    refine Ties.bind (ih grown envs sim₁ sound.2) ?_
    rintro W₁ os os' s₂ t₂ - rest sim₂
    exact Ties.pure (.replaced isCut.rule replaced output rest) sim₂

/-! ## Rules of a block -/

namespace Expansions

variable {ctx : Context} {os os' : List Output}

theorem of_uncalled (uncalled : ∀ c, e.rule ≠ .call c)
    (expansions : K.Expansions setting ctx (e :: es) os os') : K.Expansions setting ctx es os os' := by
  cases expansions with
  | other _ rest => exact rest
  | kept call => exact absurd call (uncalled _)
  | replaced call => exact absurd call (uncalled _)

theorem of_kept (rule : e.rule = .call c) (kept : ¬ K.replaced e.site)
    (expansions : K.Expansions setting ctx (e :: es) os os') :
    ∃ o later later', os = o :: later ∧ os' = o :: later' ∧
      K.Expansions setting ctx es later later' := by
  cases expansions with
  | other uncalled => exact absurd rule (uncalled c)
  | kept _ _ o rest => exact ⟨o, _, _, rfl, rfl, rest⟩
  | replaced _ replaced => exact absurd replaced kept

theorem of_replaced (rule : e.rule = .call c) (replaced : K.replaced e.site)
    (expansions : K.Expansions setting ctx (e :: es) os os') :
    ∃ o later, os = o :: later ∧ Rule.outputs? setting ctx K.body = some o ∧
      K.Expansions setting ctx es later os' := by
  cases expansions with
  | other uncalled => exact absurd rule (uncalled c)
  | kept _ kept => exact absurd replaced kept
  | @replaced _ _ later _ o _ _ output rest => exact ⟨o, later, rfl, output, rest⟩

end Expansions

theorem checkDefinition_tied (agree : v.Agree (K.SiteLink W) w)
    (same : SameScope (K.SiteLink W) False env env' s t) :
    Tied (K.proviso False False) setting s t (checkDefinition env v) (checkDefinition env' w)
      fun _ s' _ t' => Prepares s s' ∧ Prepares t t' := by
  have checked : Tied (K.proviso False False) setting s t (checkDefinition env v)
      (checkDefinition env' w) fun _ _ _ _ => True := by
    unfold checkDefinition
    rw [← agree.1]
    refine .change ?_
    let s₁ : Evaluation := { s with span := v.definition.span }
    let t₁ : Evaluation := { t with span := v.definition.span }
    have alike : Alike (K.SiteLink W) False env env' setting s₁ t₁ (dereference env v)
        (dereference env' w) := dereference_alike agree { same with }
    have values : Tied (K.proviso False False) setting s₁ t₁ (dereference env v)
        (dereference env' w) _ := alike.under (fun _ _ => trivial) id fun _ => trivial
    refine .bind (values.locatedAt _ _) ?_ fun _ => Growing.since inferInstance
    exact fun _ _ _ _ _ => .pure trivial
  exact (checked.keeping (checkDefinition_prepares env v) (checkDefinition_prepares env' w)).mono
    fun _ _ _ _ kept => kept.2

theorem Sim.prepares (sim : K.Sim W s t) (left : Prepares s s') (right : Prepares t t') :
    K.Sim W s' t' :=
  sim.extend left.extends_ right.extends_ (by rw [left.importer, right.importer]; exact sim.importer)

theorem Sim.sameScope_of_local (sim : K.Sim W s t) (lawful : K.Lawful setting)
    (envs : EnvLink W env env') (right : Local limit none own t t') :
    SameScope (K.SiteLink W) False env env' s t' where
  one := sim.one lawful
  names := envs.chain.imp fun i j linked => by
    rw [(right.other j (sim.inside i j linked).2 nofun).names, sim.fresh i, sim.freshToo j]
    exact (sim.frames i j linked).entries.definitions lawful
  size := False.elim
  parenDepth := by
    rw [sim.idle.parenDepth, (sim.idleToo.of_restored right.restored).parenDepth]
  defaultAnswer := by
    rw [sim.idle.defaultAnswer, (sim.idleToo.of_restored right.restored).defaultAnswer]
  evaluating := by
    rw [sim.idle.evaluating, (sim.idleToo.of_restored right.restored).evaluating]
    exact .nil

theorem checkDefinition_pairs (lawful : K.Lawful setting) (envs : EnvLink W env env')
    (sim : K.Sim W s t) (agree : v.Agree (K.SiteLink W) w) :
    K.Pairs setting W s t (checkDefinition env v) (checkDefinition env' w) fun _ _ _ => True :=
  .of_tied ((checkDefinition_tied agree (sim.sameScope lawful envs)).mono
    fun _ _ _ _ kept => ⟨trivial, sim.prepares kept.1 kept.2⟩)

theorem checkDefinition_crossed (lawful : K.Lawful setting) (evaluates : K.Evaluates setting n m)
    (link : K.EntryLink W e e') (envs : EnvLink W env env') (sim : K.Sim W s t) (ctx : Context)
    {v w : Variable} (agree : v.Agree (K.SiteLink W) w) {x y : Eval Output}
    [growing : Growing setting x]
    (then_ : ∀ W' s' t', W ≤ W' → K.Sim W' s' t' →
      K.Pairs setting W' s' t' x y fun _ a b => a = b) :
    K.Pairs setting W s t
      (checkDefinition env v >>= fun _ => evaluateRule (blockWithin n) env ctx e >>= fun own =>
        x >>= fun others => pure (own ++ others))
      (evaluateRule (blockWithin m) env' ctx e' >>= fun own => checkDefinition env' w >>= fun _ =>
        y >>= fun others => pure (own ++ others)) fun _ a b => a = b := by
  have late : ∀ own t₁, evaluateRule (blockWithin m) env' ctx e' setting t = (.ok own, t₁) →
      Tied (K.proviso False False) setting s t₁ (checkDefinition env v) (checkDefinition env' w)
        fun _ s' _ t' => Prepares s s' ∧ Prepares t₁ t' := by
    intro own t₁ run
    have left := ((evaluateRule_local (blockWithin_local m) env' ctx e').ends setting t).result run
    exact checkDefinition_tied agree (sim.sameScope_of_local lawful envs left)
  have early : ∀ u s₁, checkDefinition env v setting s = (.ok u, s₁) →
      Tied (K.proviso False False) setting s₁ t (evaluateRule (blockWithin n) env ctx e)
        (evaluateRule (blockWithin m) env' ctx e')
        fun own s₂ own' t₁ => ∃ W', W ≤ W' ∧ own = own' ∧ K.Sim W' s₂ t₁ := by
    intro u s₁ run
    have left := ((checkDefinition_prepares env v).ends setting s).result run
    exact evaluateRule_pairs lawful evaluates link envs (sim.prepares left (refl_of Prepares t)) ctx
  refine .crossed id late early ?_ (Growing.since inferInstance)
    fun _ _ => Growing.since inferInstance
  rintro _ s₁ own s₂ _ t₁ _ t₂ ⟨-, right⟩ ⟨W', grown, rfl, sim'⟩
  have rest : K.Pairs setting W' s₂ t₂ (x >>= fun others => pure (own ++ others))
      (y >>= fun others => pure (own ++ others)) fun _ a b => a = b := by
    exact .map (then_ W' s₂ t₂ grown (sim'.prepares (refl_of Prepares s₂) right))
  exact .mono rest fun _ _ _ _ ⟨W'', further, result⟩ => ⟨W'', grown.trans further, result⟩

theorem evaluateEntries_pairs (lawful : K.Lawful setting) (evaluates : K.Evaluates setting n m)
    (matched : K.Matched W es es') (grown : W ≤ W') (envs : EnvLink W' env env')
    (sim : K.Sim W' s t) (ctx : Context) (expansions : K.Expansions setting ctx es os os') :
    K.Pairs setting W' s t (evaluateEntries (blockWithin n) env ctx es os)
      (evaluateEntries (blockWithin m) env' ctx es' os') fun _ a b => a = b := by
  induction matched generalizing W' s t os os' with
  | nil => exact .pure rfl sim
  | @cons e e' es es' link rest ih =>
    have link := EntryLink.mono link grown
    by_cases called : ∃ c, e.rule = .call c
    · obtain ⟨c, rule⟩ := called
      obtain ⟨same, kept, -⟩ := link.call lawful rule
      obtain ⟨o, later, later', rfl, rfl, expanded⟩ := expansions.of_kept rule kept
      rw [evaluateEntries_call rule, evaluateEntries_call same]
      exact .map (ih grown envs sim expanded)
    · have uncalled := not_exists.mp called
      rw [evaluateEntries_other uncalled, evaluateEntries_other (link.uncalled lawful uncalled)]
      refine .bind (evaluateRule_pairs lawful evaluates link envs sim ctx) ?_
      rintro W₁ own _ s₁ t₁ grown₁ rfl sim₁
      exact .map (ih (grown.trans grown₁) (envs.mono grown₁) sim₁
        (expansions.of_uncalled uncalled))
  | @swap v v' r r' es es' passes first second rest ih =>
    obtain ⟨d, rule, -⟩ := passes
    obtain ⟨same, agree⟩ := (EntryLink.mono first grown).agree lawful rule
    have second := EntryLink.mono second grown
    have expansions := expansions.of_uncalled (by simp [rule])
    rw [evaluateEntries_variable rule]
    by_cases called : ∃ c, r.rule = .call c
    · obtain ⟨c, isCall⟩ := called
      obtain ⟨sameToo, kept, -⟩ := second.call lawful isCall
      obtain ⟨o, later, later', rfl, rfl, expanded⟩ := expansions.of_kept isCall kept
      rw [evaluateEntries_call isCall, evaluateEntries_call sameToo, evaluateEntries_variable same,
        bind_assoc]
      refine .bind (checkDefinition_pairs lawful envs sim agree) ?_
      rintro W₁ _ _ s₁ t₁ grown₁ - sim₁
      exact .map (ih (grown.trans grown₁) (envs.mono grown₁) sim₁ expanded)
    · have uncalled := not_exists.mp called
      have expansions := expansions.of_uncalled uncalled
      rw [evaluateEntries_other uncalled, evaluateEntries_other (second.uncalled lawful uncalled)]
      simp only [evaluateEntries_variable same, bind_assoc]
      exact checkDefinition_crossed lawful evaluates second envs sim ctx agree
        fun W₁ s₁ t₁ grown₁ sim₁ => ih (grown.trans grown₁) (envs.mono grown₁) sim₁ expansions
  | @cut e new es es' isCut rest ih =>
    obtain ⟨o, later, rfl, output, expansions⟩ := expansions.of_replaced isCut.rule isCut.2.1
    have inlines := lawful.inlines _ isCut.2.1
    rw [evaluateEntries_call isCut.rule, evaluateEntries_append (isCut.uncalled lawful)]
    have static : Rule.areStatic (new.map (·.rule)) = true := by
      rw [isCut.rules]
      exact inlines.static
    have settled := evaluateEntries_settles inlines.lenient (blockWithin_settles inlines.lenient m)
      env' ctx static os' sim.idleToo
    rw [isCut.rules, output] at settled
    refine .trailing (settled.mono (fun _ _ ended => ended) fun _ _ failed =>
      ⟨id, failed.resolve_left nofun⟩) ?_
    rintro _ t₁ ⟨⟨⟩, extended, importer⟩
    exact Ties.map (ih grown envs (sim.extendRight extended importer) expansions)

/-! ## Blocks -/

theorem Matched.replacement (lawful : K.Lawful setting) (matched : K.Matched W es es')
    (member : e ∈ es) (rule : e.rule = .call K.call) (replaced : K.replaced e.site) :
    ∃ front new back, es' = front ++ (new ++ back) ∧ new.map (·.rule) = K.body := by
  induction matched with
  | nil => cases member
  | @cons first first' es es' link _ ih =>
    rcases List.mem_cons.mp member with rfl | later
    · exact absurd replaced (link.call lawful rule).2.1
    · obtain ⟨front, new, back, rfl, body⟩ := ih later
      exact ⟨first' :: front, new, back, rfl, body⟩
  | @swap v v' r r' es es' passes first second _ ih =>
    obtain ⟨d, isVariable, -⟩ := passes
    rcases List.mem_cons.mp member with rfl | member
    · simp [isVariable] at rule
    · rcases List.mem_cons.mp member with rfl | later
      · exact absurd replaced (second.call lawful rule).2.1
      · obtain ⟨front, new, back, rfl, body⟩ := ih later
        exact ⟨r' :: v' :: front, new, back, rfl, body⟩
  | @cut first new es es' isCut _ ih =>
    rcases List.mem_cons.mp member with rfl | later
    · exact ⟨[], new, es', rfl, isCut.rules⟩
    · obtain ⟨front, newToo, back, rfl, body⟩ := ih later
      exact ⟨new ++ front, newToo, back, by rw [List.append_assoc], body⟩

/-- Where a replacement contributes nothing because its selectors cannot be combined, the calls of
    the first block cannot be expanded. -/
theorem expandCalls_doomed (inlines : K.Inlines setting) (member : e ∈ es)
    (rule : e.rule = .call K.call) (replaced : K.replaced e.site)
    (nothing : Rule.outputs? setting ctx K.body = none) (idle : s.Idle) (n : Nat) :
    Ends setting s (expandCalls (blockWithin n) env ctx es) (fun _ s' => ¬ Grows s' K.final)
      fun _ _ => True := by
  induction es generalizing s with
  | nil => cases member
  | cons first es ih =>
    rcases List.mem_cons.mp member with rfl | later
    · rw [expandCalls_call rule]
      refine .change ?_
      by_cases fair : Grows (noteCalling e.site K.call env setting s).2 K.final
      · obtain ⟨own, -, -, -, -, settled⟩ := callMixin_replaced inlines replaced idle fair n ctx
          e.nesting
        rw [nothing, ite_self] at settled
        exact .bind settled (fun _ _ ended => nomatch ended.1) fun _ _ _ => trivial
      · have growing : Growing setting (callMixin (blockWithin n) env ctx e.nesting K.call >>=
            fun expanded => expandCalls (blockWithin n) env ctx es >>= fun others =>
              pure (expanded :: others)) := inferInstance
        refine (growing.keeps.ends setting _).mono (fun _ s' grown final => ?_) fun _ _ _ => trivial
        exact fair (trans_of Grows grown final)
    · by_cases called : ∃ c, first.rule = .call c
      · obtain ⟨c, isCall⟩ := called
        rw [expandCalls_call isCall]
        refine .change ?_
        have expanded := (callMixin_local (blockWithin_local n) env ctx first.nesting c).ends setting
          (noteCalling first.site c env setting s).2
        refine .bind expanded (fun o s₁ local_ => ?_) fun _ _ _ => trivial
        have idle₁ : s₁.Idle := Evaluation.Idle.of_restored { idle with } local_.restored
        exact .seq (ih later idle₁) (fun _ _ unfair => unfair)
      · rw [expandCalls_other (not_exists.mp called)]
        exact ih later idle

theorem evaluateEntries_doomed (lenient : setting.options.warningsAsErrors = false)
    (static : Rule.areStatic (new.map (·.rule)) = true)
    (nothing : Rule.outputs? setting ctx (new.map (·.rule)) = none) (idle : t.Idle) (m : Nat)
    (outputs : List Output) :
    Ends setting t (evaluateEntries (blockWithin m) env ctx (front ++ (new ++ back)) outputs)
      (fun _ _ => False) fun _ _ => True := by
  induction front generalizing t outputs with
  | nil =>
    have uncalled : ∀ e ∈ new, ∀ c, e.rule ≠ .call c := fun e member =>
      not_call_of_isStatic (Rule.areStatic_iff.mp static _ (List.mem_map_of_mem member))
    rw [List.nil_append, evaluateEntries_append uncalled]
    have settled := evaluateEntries_settles lenient (blockWithin_settles lenient m) env ctx static
      outputs idle
    rw [nothing] at settled
    exact .bind settled (fun _ _ ended => nomatch ended.1) fun _ _ _ => trivial
  | cons e front ih =>
    rw [List.cons_append]
    unfold evaluateEntries
    split
    · exact .seq (ih idle _) (fun _ _ never => never.elim)
    · have evaluated := (evaluateRule_local (blockWithin_local m) env ctx e).ends setting t
      refine .bind evaluated (fun _ t₁ local_ => ?_) fun _ _ _ => trivial
      exact .seq (ih (idle.of_restored local_.restored) _) (fun _ _ never => never.elim)

section Frames

variable (lawful : K.Lawful setting) (evaluates : K.Evaluates setting n m)
  (here : env.innermost? = some i) (hereToo : env'.innermost? = some j) (linked : W.ids i j)
  (envs : EnvLink W env env') (sim : K.Sim W s t) {ctx : Context}

include here in
theorem expandCalls_entries (inside : i < s.frames.size) :
    Ends setting s (expandCalls (blockWithin n) env ctx es)
      (fun _ s' => (∃ exported, (s'.frames.get i).entries = exported ++ (s.frames.get i).entries ∧
        ∀ e ∈ exported, ∀ c, e.rule ≠ .call c) ∧ s'.scopedPart = s.scopedPart) fun _ _ => True := by
  have kept : KeepsLocal setting env.innermost? (expandCalls (blockWithin n) env ctx es) :=
    expandCalls_local (blockWithin_local n) env ctx es
  refine (kept.ends setting s).mono (fun _ s' local_ => ?_) fun _ _ _ => trivial
  obtain ⟨-, exported, entries, exports⟩ := local_.own i inside here
  refine ⟨⟨exported, entries, fun e member c rule => ?_⟩, local_.restored⟩
  have := (exports e member).1
  simp [rule, Rule.isExport] at this

include lawful hereToo linked sim in
theorem evaluateFrame_doomed (member : e ∈ (s.frames.get i).entries) (rule : e.rule = .call K.call)
    (replaced : K.replaced e.site) (nothing : Rule.outputs? setting ctx K.body = none) :
    K.Pairs setting W s t (evaluateFrame (blockWithin n) env ctx i)
      (evaluateFrame (blockWithin m) env' ctx j) fun _ a b => a = b := by
  have inlines := lawful.inlines _ replaced
  obtain ⟨front, new, back, split, body⟩ :=
    (sim.frames i j linked).entries.replacement lawful member rule replaced
  refine .failing id (.ofState ?_) (.ofState ?_)
  · refine .seq (expandCalls_doomed inlines member rule replaced nothing sim.idle n) ?_
    intro os s' unfair
    have growing : Growing setting (evaluateEntries (blockWithin n) env ctx
        (s'.frames.get i).entries os) := inferInstance
    exact (growing.keeps.ends setting s').mono
      (fun _ _ grown final => unfair (trans_of Grows grown final)) fun _ _ _ => trivial
  · refine .seq (expandCalls_entries hereToo (sim.inside i j linked).2) ?_
    rintro os t' ⟨⟨exported, entries, -⟩, restored⟩
    refine .ofState ?_
    rw [entries, split, ← List.append_assoc]
    exact evaluateEntries_doomed inlines.lenient (by rw [body]; exact inlines.static)
      (by rw [body]; exact nothing) (sim.idleToo.of_restored restored) m os

include lawful evaluates here hereToo linked envs sim in
theorem evaluateFrame_sound (sound : ∀ e ∈ (s.frames.get i).entries, e.rule = .call K.call →
      K.replaced e.site → Rule.outputs? setting ctx K.body ≠ none) :
    K.Pairs setting W s t (evaluateFrame (blockWithin n) env ctx i)
      (evaluateFrame (blockWithin m) env' ctx j) fun _ a b => a = b := by
  obtain ⟨inside, insideToo⟩ := sim.inside i j linked
  have expanded := expandCalls_pairs lawful evaluates (sim.frames i j linked).entries (le_refl W)
    envs sim ctx sound
  refine .ofState ?_
  refine Tied.bind (Tied.and expanded (expandCalls_entries here inside)
    (expandCalls_entries hereToo insideToo)) ?_ fun _ => Growing.since inferInstance
  rintro os s' os' t' ⟨⟨W', grown, expansions, sim'⟩, ⟨⟨exported, entries, uncalled⟩, -⟩, -⟩
  refine .ofState ?_
  have matched := (sim'.frames i j (grown.1 i j linked)).entries
  have expansions : K.Expansions setting ctx (s'.frames.get i).entries os os' := by
    rw [entries]
    exact expansions.append uncalled
  refine .mono (evaluateEntries_pairs lawful evaluates matched (le_refl W') (envs.mono grown)
    sim' ctx expansions) ?_
  exact fun _ _ _ _ ⟨W'', further, result⟩ => ⟨W'', le_trans grown further, result⟩

end Frames

theorem blockWithin_evaluates (lawful : K.Lawful setting) (n m : Nat) :
    K.Evaluates setting n m := by
  induction n generalizing m with
  | zero => exact fun _ _ _ => .spent id _
  | succ n ih =>
    intro W s t env env' ctx envs sim
    cases m with
    | zero => exact .spentToo id _
    | succ m =>
      have innermost := envs.innermost
      rcases here : env.innermost? with _ | i <;> rcases hereToo : env'.innermost? with _ | j <;>
        rw [here, hereToo] at innermost
      · unfold blockWithin blockWith
        rw [here, hereToo]
        exact .pure rfl sim
      · cases innermost
      · cases innermost
      · cases innermost with
        | some linked =>
          rw [blockWithin_succ here, blockWithin_succ hereToo]
          by_cases sound : ∀ e ∈ (s.frames.get i).entries, e.rule = .call K.call →
              K.replaced e.site → Rule.outputs? setting ctx K.body ≠ none
          · exact evaluateFrame_sound lawful (ih m) here hereToo linked envs sim sound
          · push Not at sound
            obtain ⟨e, member, rule, replaced, nothing⟩ := sound
            exact evaluateFrame_doomed lawful hereToo linked sim member rule replaced nothing

end Coupling

end StyleResolution
