import StyleResolution.Proofs.Flattening.Preservation
import StyleResolution.Proofs.Normal.Values

/-! # The normal form of resolved rules

Resolved rules are declarations, rulesets of declarations, plain imports, media blocks without media
blocks directly in them, and other at-rules; in every block the declarations come first. The normal
form is stated for a property `V` of the values and a property `I` of the imports in it, so that one
induction over the evaluation of blocks serves for whatever values and imports are known to be.

What becomes of an import in a frame depends on what imports there are once a frame is expanded;
that is the property `E` in `Resolving`.
-/

namespace StyleResolution

open Eval

/-- The rule is resolved, with values as `V` says and imports as `I` says. The body of a block is
    given as declarations and the rules after them. -/
inductive Rule.Normal (V : Value → Prop) (I : Import → Prop) : Rule → Prop where
  | declaration {d : Declaration} : V d.value → Normal V I (.declaration d)
  | ruleset {selectors : List Selector} {ds : List Declaration} {span : Span} :
      ds ≠ [] → (∀ d ∈ ds, V d.value) →
      Normal V I (.ruleset selectors (ds.map .declaration) span)
  | fileImport {i : Import} : I i → Normal V I (.fileImport i)
  | media {features : Value} {ds : List Declaration} {rules : List Rule} {span : Span} :
      V features → ds.map .declaration ++ rules ≠ [] → (∀ d ∈ ds, V d.value) →
      (∀ r ∈ rules, r.asDeclaration = none ∧ isMedia r = false) →
      (∀ r ∈ rules, Normal V I r) →
      Normal V I (.media features (ds.map .declaration ++ rules) span)
  | atStatement {name : String} {prelude : Option Value} {span : Span} :
      (∀ v ∈ prelude, V v) → Normal V I (.atStatement name prelude span)
  | atBlock {name : String} {prelude : Option Value} {ds : List Declaration} {rules : List Rule}
      {span : Span} :
      (∀ v ∈ prelude, V v) → (∀ d ∈ ds, V d.value) → (∀ r ∈ rules, r.asDeclaration = none) →
      (∀ r ∈ rules, Normal V I r) →
      Normal V I (.atBlock name prelude (ds.map .declaration ++ rules) span)

/-- The contribution is resolved. -/
structure Output.Normal (V : Value → Prop) (I : Import → Prop) (o : Output) : Prop where
  declarations : ∀ d ∈ o.declarations, V d.value
  bare : ∀ r ∈ o.rules, r.asDeclaration = none
  rules : ∀ r ∈ o.rules, r.Normal V I

namespace Output.Normal

variable {V : Value → Prop} {I : Import → Prop}

theorem empty : Output.Normal V I {} :=
  ⟨by simp, by simp, by simp⟩

theorem append {a b : Output} (first : a.Normal V I) (later : b.Normal V I) :
    (a ++ b).Normal V I where
  declarations d member := (List.mem_append.mp member).elim (first.declarations d)
    (later.declarations d)
  bare r member := (List.mem_append.mp member).elim (first.bare r) (later.bare r)
  rules r member := (List.mem_append.mp member).elim (first.rules r) (later.rules r)

theorem ofRules {rules : List Rule} (bare : ∀ r ∈ rules, r.asDeclaration = none)
    (normal : ∀ r ∈ rules, r.Normal V I) : (Output.ofRules rules).Normal V I :=
  ⟨by simp [Output.ofRules], bare, normal⟩

theorem single {r : Rule} (bare : r.asDeclaration = none) (normal : r.Normal V I) :
    (Output.ofRules [r]).Normal V I :=
  ofRules (by simpa using bare) (by simpa using normal)

variable {o : Output} (normal : o.Normal V I)

include normal

theorem rulesetOf (selectors : List Selector) (span : Span) :
    (Output.ofRules (rulesetOf selectors o span)).Normal V I := by
  unfold Eval.rulesetOf
  split
  · exact empty
  · rename_i nonempty
    refine single rfl (.ruleset ?_ normal.declarations)
    simpa using nonempty

theorem ruleset (selectors : List Selector) (span : Span) :
    (Output.ofRules (Eval.rulesetOf selectors o span ++ o.rules)).Normal V I :=
  append (normal.rulesetOf selectors span) (ofRules normal.bare normal.rules)

theorem mediaBlock (own : V features) (nonempty : mediaBody selectors o span ≠ []) :
    (Rule.media features (mediaBody selectors o span) span).Normal V I := by
  have kept : ∀ r ∈ o.rules.filter (!isMedia ·),
      (r.asDeclaration = none ∧ isMedia r = false) ∧ r.Normal V I := by
    intro r member
    obtain ⟨inside, other⟩ := List.mem_filter.mp member
    exact ⟨⟨normal.bare r inside, by simpa using other⟩, normal.rules r inside⟩
  cases selectors with
  | nil =>
    exact .media own nonempty normal.declarations (fun r member => (kept r member).1) fun r member =>
      (kept r member).2
  | cons first others =>
    -- Inside a ruleset the declarations are wrapped in its selectors, so none of them is bare.
    have wrapped := normal.rulesetOf (first :: others) span
    have notMedia : ∀ r ∈ Eval.rulesetOf (first :: others) o span, Eval.isMedia r = false := by
      intro r member
      unfold Eval.rulesetOf at member
      split at member
      · cases member
      · cases List.mem_singleton.mp member
        rfl
    refine @Rule.Normal.media V I features [] _ span own nonempty (by simp) ?_ ?_
    · intro r member
      cases List.mem_append.mp member with
      | inl ruleset => exact ⟨wrapped.bare r ruleset, notMedia r ruleset⟩
      | inr inside => exact (kept r inside).1
    · intro r member
      cases List.mem_append.mp member with
      | inl ruleset => exact wrapped.rules r ruleset
      | inr inside => exact (kept r inside).2

theorem media {features : Value} (own : V features) (selectors : List Selector) (span : Span) :
    let kept := mediaBody selectors o span
    (Output.ofRules ((if kept.isEmpty then [] else [Rule.media features kept span]) ++
      o.rules.filter isMedia)).Normal V I := by
  intro kept
  have block : (Output.ofRules
      (if kept.isEmpty then [] else [Rule.media features kept span])).Normal V I := by
    split
    · exact empty
    · rename_i nonempty
      exact single rfl (normal.mediaBlock own (by simpa using nonempty))
  have nested : (Output.ofRules (o.rules.filter isMedia)).Normal V I :=
    ofRules (fun r member => normal.bare r (List.mem_filter.mp member).1)
      fun r member => normal.rules r (List.mem_filter.mp member).1
  exact append block nested

theorem atBlock {prelude : Option Value} (own : ∀ v ∈ prelude, V v) (name : String) (span : Span) :
    (Output.ofRules [.atBlock name prelude (o.declarationRules ++ o.rules) span]).Normal V I :=
  single rfl (.atBlock own normal.declarations normal.bare normal.rules)

end Output.Normal

/-- All imports among the rules of the frame are as `E` says. -/
def Evaluation.Holds (E : Import → Prop) (id : FrameId) (s : Evaluation) : Prop :=
  ∀ e ∈ (s.frames.get id).entries, ∀ i, e.rule = .fileImport i → E i

/-- The innermost frame of the environment exists, and its imports are as `E` says. -/
def Environment.Ready (E : Import → Prop) (env : Environment) (s : Evaluation) : Prop :=
  ∀ id, env.innermost? = some id → id < s.frames.size ∧ s.Holds E id

namespace Local

variable {limit : Nat} {o : Option FrameId} {s s' : Evaluation}

theorem idle {own : Frame → Frame → Prop} (moved : Local limit o own s s')
    (idle : s.defaultAnswer = none) : s'.defaultAnswer = none :=
  (congrArg Scoped.defaultAnswer moved.restored).trans idle

theorem ready {E : Import → Prop} {env : Environment}
    (moved : Local limit env.innermost? Frame.Grown s s') (ready : env.Ready E s) :
    env.Ready E s' := by
  intro id innermost
  obtain ⟨inside, holds⟩ := ready id innermost
  obtain ⟨-, exported, entries, exports⟩ := moved.own id inside innermost
  refine ⟨Nat.lt_of_lt_of_le inside moved.size, ?_⟩
  intro e member i isImport
  rw [entries] at member
  cases List.mem_append.mp member with
  | inl new =>
    have := (exports e new).1
    rw [isImport] at this
    cases this
  | inr old => exact holds e old i isImport

end Local

namespace Eval

variable {α β : Type} {setting : Setting} {V : Value → Prop} {E I : Import → Prop}

/-! ## Computations outside of guards -/

/-- Begun outside of guards, the computation ends outside of guards, and its result is as `P`
    says. -/
structure Unguarded (setting : Setting) (P : α → Prop) (x : Eval α) : Prop where
  yields : ∀ {s}, s.defaultAnswer = none →
    Yields setting s x fun a s' => P a ∧ s'.defaultAnswer = none

namespace Unguarded

variable {P : α → Prop}

theorem pure (h : P a) : Unguarded setting P (Pure.pure a : Eval α) where
  yields idle := .pure ⟨h, idle⟩

theorem fail (f : Failure) : Unguarded setting P (fail f : Eval α) where
  yields _ := .fail trivial

theorem failWith (cause : Cause) : Unguarded setting P (failWith cause : Eval α) :=
  fail _

theorem bind {x : Eval β} {next : β → Eval α} {Q : β → Prop} (first : Unguarded setting Q x)
    (then_ : ∀ b, Q b → Unguarded setting P (next b)) : Unguarded setting P (x >>= next) where
  yields idle := .bind (first.yields idle) fun b _ h => (then_ b h.1).yields h.2

theorem mapFailure (h : Unguarded setting P x) (f : Failure → Failure) :
    Unguarded setting P (mapFailure f x) where
  yields idle := .mapFailure (h.yields idle)

theorem ofState (h : ∀ s, Unguarded setting P (next s)) :
    Unguarded setting P (state >>= next) where
  yields {s} idle := .ofState ((h s).yields idle)

theorem ofSetting (h : Unguarded setting P (next setting)) :
    Unguarded setting P (Eval.setting >>= next) where
  yields idle := .ofSetting (h.yields idle)

theorem mono (h : Unguarded setting P x) (weaker : ∀ a, P a → Q a) : Unguarded setting Q x where
  yields idle := (h.yields idle).imp (fun a _ h => ⟨weaker a h.1, h.2⟩)

theorem and (h : Unguarded setting P x) (h' : Unguarded setting Q x) :
    Unguarded setting (fun a => P a ∧ Q a) x where
  yields idle := ((h.yields idle).and (h'.yields idle)).mono
    (fun _ _ both => ⟨⟨both.1.1, both.2.1⟩, both.1.2⟩) fun _ _ _ => trivial

theorem inParens (h : Unguarded setting P x) : Unguarded setting P (inParens x) where
  yields idle := .between (h.yields idle)

theorem ofLocal (h : Keeps setting (Local setting.options.maxMixinDepth o own) x) :
    Unguarded setting (fun _ => True) x where
  yields {s} idle := (h.ends setting s).mono (fun _ _ moved => ⟨trivial, moved.idle idle⟩)
    fun _ _ _ => trivial

end Unguarded

theorem Gives.unguarded (gives : Gives setting P x) (quiet : Keeps setting Quiet x) :
    Unguarded setting P x where
  yields {s} idle := Ends.iff_cases.mpr
    ⟨fun a s' run => ⟨gives.result run, by
      have same := (quiet s).defaultAnswer
      rw [run] at same
      exact same.trans idle⟩, fun _ _ _ => trivial⟩

/-- What is known of values and imports: values are as `V` says, imports are as `E` says in an
    expanded frame, and as `I` says in the output. -/
structure Resolving (setting : Setting) (V : Value → Prop) (E I : Import → Prop) : Prop where
  closed : Closed setting V
  expanded : ∀ {id env s}, id < s.frames.size →
    Yields setting s (expandImports id env false) fun _ s' => s'.Holds E id
  imported : ∀ env i, E i → Unguarded setting (Output.Normal V I) (evaluateImport env i)

def Resolves (setting : Setting) (V : Value → Prop) (E I : Import → Prop)
    (evaluate : BlockEvaluator) : Prop :=
  ∀ {env ctx s}, s.defaultAnswer = none → env.Ready E s → (∀ v ∈ ctx.media, V v) →
    Yields setting s (evaluate env ctx) fun o s' => o.Normal V I ∧ s'.defaultAnswer = none

/-! ## Blocks -/

theorem value_unguarded (closed : Closed setting V) (env : Environment) (v : Value) :
    Unguarded setting V (value env v) :=
  (value_gives closed env v).unguarded (value_quiet env v)

theorem evaluatePrelude_unguarded (closed : Closed setting V) (env : Environment) (span : Span)
    (prelude : Option Value) :
    Unguarded setting (fun result => ∀ v ∈ result, V v) (evaluatePrelude env span prelude) := by
  cases prelude with
  | none => exact .pure (by simp)
  | some v =>
    apply Unguarded.bind ((value_unguarded closed env v).mapFailure _)
    intro result holds
    exact .pure (by simpa using holds)

section

variable (resolving : Resolving setting V E I)

include resolving

theorem openBlock_ready {ok : α → Evaluation → Prop} {next : FrameId → Eval α} (f : Frame)
    (env : Environment) {s : Evaluation} (idle : s.defaultAnswer = none)
    (then_ : ∀ {id t}, t.defaultAnswer = none → (env.push id).Ready E t →
      Yields setting t (next id) ok) :
    Yields setting s
      (addFrame f >>= fun id => expandImports id (env.push id) false >>= fun _ => next id) ok := by
  refine .bind_of_ok (addFrame_apply f setting s) ?_
  have inside : s.frames.size < (s.frames.add f).2.size := by simp
  refine Yields.bind ((resolving.expanded inside).keeping (expandImports_splices _ _ false)) ?_
  intro _ t ⟨holds, splices⟩
  have moved : Local 0 (some s.frames.size) Frame.Changed _ t := splices.local
  apply then_ (moved.idle idle)
  intro id innermost
  obtain rfl : s.frames.size = id := Option.some.inj innermost
  exact ⟨splices.size ▸ inside, holds⟩

theorem enterBlock_ready (env : Environment) (site : Site) (rules : List Rule) (nesting : Nat)
    {s : Evaluation} (idle : s.defaultAnswer = none) :
    Yields setting s (enterBlock env site rules nesting) fun inner t =>
      t.defaultAnswer = none ∧ inner.Ready E t :=
  openBlock_ready resolving _ env idle fun idle ready => Ends.pure ⟨idle, ready⟩

variable {evaluate : BlockEvaluator} (resolves : Resolves setting V E I evaluate)

include resolves

theorem expandBody_normal {ctx : Context} (media : ∀ v ∈ ctx.media, V v) (nesting : Nat)
    (caller : Option FrameId) (m : MatchedCandidate) :
    Unguarded setting (Output.Normal V I) (expandBody evaluate ctx nesting caller m) := by
  refine .ofState fun s => .ofSetting ?_
  dsimp only
  split
  · exact .failWith _
  · have body : Unguarded setting (fun evaluated => evaluated.2.Normal V I)
        (evaluateBody evaluate ctx nesting m) := by
      constructor
      intro t idle
      apply openBlock_ready resolving _ m.scope idle
      intro id u idle ready
      refine .bind (resolves idle ready media) ?_
      intro o _ normal
      exact .pure normal
    have begun : Unguarded setting (fun _ => True) (beginBody m.callable.site) :=
      ⟨fun idle => ⟨trivial, idle⟩⟩
    apply Unguarded.bind begun
    intro _ _
    apply Unguarded.bind (.ofLocal (emit_local none _))
    intro _ _
    apply Unguarded.bind body
    intro evaluated normal
    exact .bind (.ofLocal (exportTo_local caller _ _ _)) fun _ _ => .pure normal

theorem expandAll_normal {ctx : Context} (media : ∀ v ∈ ctx.media, V v) (nesting : Nat)
    (caller : Option FrameId) (ms : List MatchedCandidate) :
    Unguarded setting (Output.Normal V I) (expandAll evaluate ctx nesting caller ms) := by
  induction ms with
  | nil => exact .pure .empty
  | cons m ms ih =>
    have first : Unguarded setting (Output.Normal V I)
        (whileExpanding m.callable.site (expandBody evaluate ctx nesting caller m)) :=
      ⟨fun idle => .between ((expandBody_normal resolving resolves media nesting caller
        m).yields idle)⟩
    apply Unguarded.bind first
    intro o normal
    apply Unguarded.bind ih
    intro others rest
    exact .pure (normal.append rest)

theorem callMixin_normal (env : Environment) (media : ∀ v ∈ ctx.media, V v) (nesting : Nat)
    (call : MixinCall) :
    Unguarded setting (Output.Normal V I) (callMixin evaluate env ctx nesting call) := by
  apply Unguarded.bind (.ofLocal (setSpan_local none _))
  intro _ _
  apply Unguarded.mapFailure
  apply Unguarded.mapFailure
  apply Unguarded.bind (.ofLocal (evaluateArguments_local env call.args))
  intro args _
  apply Unguarded.bind (.ofLocal (searches_local.findCandidates env call.path))
  intro candidates _
  split
  · exact .failWith _
  · apply Unguarded.bind (.ofLocal (emit_local none _))
    intro _ _
    apply Unguarded.bind (.ofLocal (calls_local.matchCandidates env args call.span candidates))
    intro selection _
    split
    · unfold unmatched
      split
      · exact .failWith _
      · split
        · exact .failWith _
        · exact .bind (.ofLocal (emit_local none _)) fun _ _ => .pure .empty
    · apply Unguarded.bind (.ofLocal (chosenGroup_local _ call))
      intro group _
      dsimp only
      exact expandAll_normal resolving resolves (by exact media) nesting _ _

theorem expandCalls_normal (env : Environment) (media : ∀ v ∈ ctx.media, V v) (es : List Entry) :
    Unguarded setting (fun os => ∀ o ∈ os, o.Normal V I) (expandCalls evaluate env ctx es) := by
  induction es with
  | nil => exact .pure (by simp)
  | cons e es ih =>
    unfold expandCalls
    split
    · apply Unguarded.bind (.ofLocal (noteCalling_local none _ _ env))
      intro _ _
      apply Unguarded.bind (callMixin_normal resolving resolves env media e.nesting _)
      intro o normal
      apply Unguarded.bind ih
      intro others rest
      exact .pure (by simpa using ⟨normal, rest⟩)
    · exact ih

theorem evaluateRule_normal (env : Environment) (media : ∀ v ∈ ctx.media, V v) (e : Entry)
    (imports : ∀ i, e.rule = .fileImport i → E i) :
    Unguarded setting (Output.Normal V I) (evaluateRule evaluate env ctx e) := by
  have values := value_unguarded resolving.closed env
  have preludes := evaluatePrelude_unguarded resolving.closed env
  unfold evaluateRule
  cases rule : e.rule with
  | declaration d =>
    apply Unguarded.bind (.ofLocal (setSpan_local none _))
    intro _ _
    apply Unguarded.bind ((values d.value).mapFailure _)
    intro v holds
    exact .pure ⟨by simpa using holds, by simp, by simp⟩
  | «variable» d =>
    apply Unguarded.bind (.ofLocal (setSpan_local none _))
    intro _ _
    have moved : KeepsLocal setting none (dereference env ⟨d, e.site⟩) :=
      (dereference_quiet env _).loads.local none
    exact .bind ((Unguarded.ofLocal moved).mapFailure _) fun _ _ => .pure .empty
  | ruleset selectors rules span =>
    apply Unguarded.bind (.ofLocal (effectiveSelectors_local ctx.selectors selectors span))
    intro effective _
    constructor
    intro s idle
    refine Yields.bind (Ends.mapFailure
      (enterBlock_ready resolving env e.site rules e.nesting idle)) ?_
    intro inner t ⟨idle, ready⟩
    refine .bind (.mapFailure (resolves idle ready media)) ?_
    intro body _ ⟨normal, idle⟩
    exact .pure ⟨normal.ruleset effective span, idle⟩
  | mixin | call => exact .pure .empty
  | fileImport i => exact resolving.imported env i (imports i rule)
  | media features rules span =>
    apply Unguarded.bind ((values features).mapFailure _)
    intro own holds
    constructor
    intro s idle
    have joined : V (joinFeatures ctx.media own) := by
      unfold joinFeatures
      split
      · rename_i outer enclosing
        apply resolving.closed.list
        simp [media outer enclosing, resolving.closed.keyword, holds]
      · exact holds
    refine .bind (enterBlock_ready resolving env e.site rules e.nesting idle) ?_
    intro inner t ⟨idle, ready⟩
    refine Yields.bind (resolves idle ready (by simpa using joined)) ?_
    intro body _ ⟨normal, idle⟩
    exact .pure ⟨normal.media joined ctx.selectors span, idle⟩
  | atStatement name prelude span =>
    apply Unguarded.bind (preludes span prelude)
    intro result holds
    exact .pure (.single rfl (.atStatement holds))
  | atBlock name prelude rules span =>
    apply Unguarded.bind (preludes span prelude)
    intro result holds
    constructor
    intro s idle
    refine Yields.bind (enterBlock_ready resolving env e.site rules e.nesting idle) ?_
    intro inner t ⟨idle, ready⟩
    refine Yields.bind (Ends.mapFailure (resolves idle ready (by simp))) ?_
    intro body _ ⟨normal, idle⟩
    exact .pure ⟨normal.atBlock holds name span, idle⟩

theorem evaluateEntries_normal (env : Environment) {ctx : Context} (media : ∀ v ∈ ctx.media, V v)
    (imports : ∀ e ∈ es, ∀ i, e.rule = .fileImport i → E i)
    (expanded : ∀ o ∈ expansions, o.Normal V I) :
    Unguarded setting (Output.Normal V I) (evaluateEntries evaluate env ctx es expansions) := by
  induction es generalizing expansions with
  | nil => exact .pure .empty
  | cons e es ih =>
    simp only [List.forall_mem_cons] at imports
    unfold evaluateEntries
    split
    · simp only [List.forall_mem_cons] at expanded
      apply Unguarded.bind (ih imports.2 expanded.2)
      intro others rest
      exact .pure (expanded.1.append rest)
    · apply Unguarded.bind (evaluateRule_normal resolving resolves env media e imports.1)
      intro own normal
      apply Unguarded.bind (ih imports.2 expanded)
      intro others rest
      exact .pure (normal.append rest)

theorem blockWith_resolves
    (evaluates : ∀ env ctx, KeepsLocal setting env.innermost? (evaluate env ctx)) :
    Resolves setting V E I (blockWith evaluate) := by
  intro env ctx s idle ready media
  unfold blockWith
  split
  · exact .pure ⟨.empty, idle⟩
  · rename_i id innermost
    refine .ofState ?_
    refine Yields.bind (((expandCalls_normal resolving resolves env media _).yields idle).keeping
      (expandCalls_local evaluates env ctx _)) ?_
    intro expansions t ⟨⟨expanded, idle⟩, moved⟩
    have ready := (moved.ready ready) id innermost
    exact .ofState
      ((evaluateEntries_normal resolving resolves env media ready.2 expanded).yields idle)

end

theorem blockWithin_resolves (resolving : Resolving setting V E I) (n : Nat) :
    Resolves setting V E I (blockWithin n) := by
  induction n with
  | zero =>
    intro env ctx s _ _ _
    exact .failWith trivial
  | succ n ih => exact blockWith_resolves resolving ih (blockWithin_local n)

end Eval

end StyleResolution
