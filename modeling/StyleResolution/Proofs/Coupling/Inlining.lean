import StyleResolution.Proofs.Coupling.Expansion

/-! # Calls that were replaced

A call that means a single static mixin expands to what is read off the body of the mixin, and leaves
everything that later rules depend on as it was. Which mixin it means is recorded when the call is
noted, since candidates depend on the frames alone.
-/

namespace StyleResolution

namespace Eval

variable {α β : Type} {setting : Setting} {s : Evaluation}

/-! ## Finding candidates -/

/-- The computation depends on the frames alone, as does what it does to them. -/
def FrameBound (setting : Setting) (x : Eval α) : Prop :=
  ∀ s t : Evaluation, s.frames = t.frames →
    Tied .none setting s t x x fun a s' b t' => a = b ∧ s'.frames = t'.frames

namespace FrameBound

theorem pure (a : α) : FrameBound setting (Pure.pure a) :=
  fun _ _ same => .pure ⟨rfl, same⟩

theorem bind {x : Eval β} {next : β → Eval α} (first : FrameBound setting x)
    (then_ : ∀ b, FrameBound setting (next b)) : FrameBound setting (x >>= next) := by
  intro s t same
  refine .bind (first s t same) ?_ fun _ _ => id
  rintro b s' _ t' ⟨rfl, same⟩
  exact then_ b s' t' same

theorem frame (id : FrameId) : FrameBound setting (Eval.frame id) :=
  fun _ _ same _ => ⟨congrArg (·.get id) same, same⟩

theorem addFrame (f : Frame) : FrameBound setting (Eval.addFrame f) :=
  fun _ _ same _ => ⟨congrArg (·.size) same, congrArg (fun store => (store.add f).2) same⟩

theorem consult (id : FrameId) : FrameBound setting (Eval.consult id) := by
  refine bind (frame id) fun f => ?_
  split
  · exact pure _
  · exact fun _ _ same _ => ⟨rfl, congrArg (·.keepIndex id) same⟩

theorem searchNamespaces (h : ∀ id, FrameBound setting (search id)) (f : Frame) (cs : List Callable) :
    FrameBound setting (Eval.searchNamespaces search f cs) := by
  induction cs with
  | nil => exact pure _
  | cons c cs ih =>
    exact bind (addFrame _) fun _ => bind (h _) fun _ => bind ih fun _ => pure _

theorem searchFrame (path : List String) (id : FrameId) :
    FrameBound setting (Eval.searchFrame path id) := by
  induction path generalizing id with
  | nil => exact pure _
  | cons name rest ih =>
    cases rest with
    | nil => exact bind (consult id) fun _ => bind (frame id) fun _ => pure _
    | cons next rest =>
      exact bind (consult id) fun _ => bind (frame id) fun f => searchNamespaces ih f _

theorem findCandidates (env : Environment) (path : List String) :
    FrameBound setting (Eval.findCandidates env path) := by
  unfold Eval.findCandidates
  induction env.allStacks with
  | nil => exact pure _
  | cons stack captured ih =>
    refine bind ?_ fun found => ?_
    · induction stack with
      | nil => exact pure _
      | cons id outer ih =>
        refine bind (searchFrame path id) fun found => ?_
        split
        · exact ih
        · exact pure _
    · split
      · exact ih
      · exact pure _

end FrameBound

theorem candidates_recorded {c : Calling} (same : s.frames = c.frames)
    (recorded : c.candidates setting = first :: others) :
    ∃ s', findCandidates c.env c.call.path setting s = (.ok (first :: others), s') := by
  have bound : FrameBound setting (findCandidates c.env c.call.path) :=
    .findCandidates c.env c.call.path
  have related := bound s { frames := c.frames } same trivial
  unfold Calling.candidates at recorded
  rcases run : findCandidates c.env c.call.path setting s with ⟨f | found, s'⟩ <;>
    rcases runToo : findCandidates c.env c.call.path setting { frames := c.frames } with ⟨g | b, t⟩ <;>
    rw [runToo] at recorded <;> rw [run, runToo] at related
  · simp at recorded
  · exact absurd trivial related.1
  · simp at recorded
  · have same : found = first :: others := related.1.trans recorded
    exact ⟨s', by rw [same]⟩

/-- Frames were made, and nothing was loaded or noted. -/
structure Prepares (s s' : Evaluation) : Prop where
  extends_ : Extends s s'
  importer : s'.importer = s.importer
  trace : s'.trace = s.trace

instance : IsPreorder Evaluation Prepares where
  refl s := ⟨.refl s, rfl, rfl⟩
  trans _ _ _ first second :=
    ⟨first.extends_.trans second.extends_, second.importer.trans first.importer,
      second.trace.trans first.trace⟩

theorem Keeps.prepares (quiet : Keeps setting Quiet x) : Keeps setting Prepares x :=
  fun s => ⟨(quiet s).extends, (quiet s).importer, (quiet s).trace⟩

theorem addFrame_prepares (fresh : f.Fresh) : Keeps setting Prepares (addFrame f) :=
  fun s => ⟨.add s fresh, rfl, rfl⟩

theorem findCandidates_prepares (env : Environment) (path : List String) :
    Keeps setting Prepares (findCandidates env path) := by
  have searches : Composes.Searches fun _ x _ => Keeps setting Prepares x :=
    { toComposes := Keeps.composes
      consult := fun id => (consult_quiet id).prepares
      addBlock := fun _ _ _ => addFrame_prepares (.ofPlaced _ _) }
  exact searches.findCandidates env path

/-! ## Expanding a single candidate -/

theorem define_prepares (setting : Setting) (s : Evaluation) (name : String) (v : Value) (span : Span) :
    Prepares s (define s.frames.size name v span setting
      { s with frames := (s.frames.add Frame.empty).2 }).2 := by
  refine ⟨⟨?_, fun j inside => .inl ?_, fun fresh => ?_, rfl, Nat.le_succ _⟩, rfl, rfl⟩
  · show s.frames.size ≤ (Frames.modify _ _ _).size
    rw [Frames.size_modify, Frames.size_add]
    exact Nat.le_succ _
  · show (Frames.modify _ s.frames.size _).get j = _
    rw [Frames.get_modify_of_ne _ (Nat.ne_of_lt inside), Frames.get_add_of_lt inside]
  · have blank : Frame.Fresh Frame.empty := rfl
    exact Frames.forall_get_modify (Frames.forall_get_add fresh blank) (.spliceAt _ _ _ _ _)

theorem matchCandidate_bare (caller : Environment) (span : Span) (params : c.callable.params = [])
    (guard : c.callable.guard = none) : Ends setting s (matchCandidate caller [] span c)
      (fun outcome s' => (∃ scope id, outcome = .ok (some ⟨c.callable, scope, id, .plain⟩)) ∧
        Prepares s s')
      fun _ _ => False := by
  unfold matchCandidate defaultGroup
  rw [params, guard]
  exact ⟨⟨_, s.frames.size, rfl⟩, define_prepares setting s "arguments" (.spaceList []) span⟩

theorem matchCandidates_bare (caller : Environment) (span : Span) (params : c.callable.params = [])
    (guard : c.callable.guard = none) : Ends setting s (matchCandidates caller [] span [c])
      (fun selection s' => (∃ scope id, selection.matched = [⟨c.callable, scope, id, .plain⟩]) ∧
        Prepares s s')
      fun _ _ => False := by
  rw [matchCandidates_cons]
  refine .seq (matchCandidate_bare caller span params guard) ?_
  rintro _ t ⟨⟨scope, id, rfl⟩, prepares⟩
  exact ⟨⟨scope, id, rfl⟩, prepares⟩

theorem expandAll_single (evaluate : BlockEvaluator) (ctx : Context) (nesting : Nat)
    (caller : Option FrameId) (m : MatchedCandidate) :
    expandAll evaluate ctx nesting caller [m] =
      whileExpanding m.callable.site (expandBody evaluate ctx nesting caller m) := by
  simp only [expandAll, pure_bind, Output.append_empty, bind_pure]

/-- A call without arguments whose only candidate is a static mixin without parameters and guard
    contributes what is read off the mixin's body, unless it is expanded too often. -/
theorem resolveCall_settles (settles : SettlesBlocks setting evaluate) (env : Environment)
    (ctx : Context) (nesting : Nat) (args : call.args = []) (unimportant : call.important = false)
    (run : findCandidates env call.path setting s = (.ok [c], s₁)) (params : c.callable.params = [])
    (guard : c.callable.guard = none) (static : Rule.areStatic c.callable.rules = true)
    (idle : s.Idle) : Settles setting s (resolveCall evaluate env ctx nesting call)
      (if setting.options.maxMixinDepth < (c.callable.site :: s.expanding).count c.callable.site
        then none else Rule.outputs? setting ctx c.callable.rules) := by
  have searched : Ends setting s (findCandidates env call.path)
      (fun found s' => found = [c] ∧ Prepares s s') fun _ _ => False := by
    have prepares := (findCandidates_prepares env call.path).ends setting s
    rw [Ends.iff_cases, run]
    exact ⟨by rintro _ _ ⟨⟩; exact ⟨rfl, prepares.result run⟩, nofun⟩
  have moved : ∀ {u u' : Evaluation}, Prepares u u' → Extends u u' ∧ u'.importer = u.importer :=
    fun prepares => ⟨prepares.extends_, prepares.importer⟩
  have sameContext : { ctx with important := ctx.important || call.important } = ctx := by
    rw [unimportant, Bool.or_false]
  unfold resolveCall
  rw [args, sameContext]
  refine .bind_of_ok rfl (Settles.after searched (fun _ _ h => moved h.2) ?_)
  rintro _ t ⟨rfl, prepared⟩
  have logged : Ends setting t (emit (.candidates [c].length call.text)) (fun _ => Prepares t)
      fun _ _ => False := ⟨{ Extends.refl t with }, rfl, rfl⟩
  refine Settles.after logged (fun _ _ => moved) fun _ u noted => ?_
  refine Settles.after (matchCandidates_bare env call.span params guard) (fun _ _ h => moved h.2) ?_
  rintro selection v ⟨⟨scope, id, matched⟩, preparedToo⟩
  have restored : v.scopedPart = s.scopedPart :=
    (preparedToo.extends_.restored.trans noted.extends_.restored).trans prepared.extends_.restored
  rw [matched]
  refine .bind_of_ok rfl ?_
  have settled := expand_settles settles ctx nesting env.innermost?
    (m := ⟨c.callable, scope, id, .plain⟩) static (idle.of_restored restored)
  simp only [Evaluation.scopedPart, Scoped.mk.injEq] at restored
  rw [← expandAll_single, restored.2.2.2.1] at settled
  exact settled

theorem callMixin_settles (settles : SettlesBlocks setting evaluate) (env : Environment)
    (ctx : Context) (nesting : Nat) (args : call.args = []) (unimportant : call.important = false)
    (run : findCandidates env call.path setting { s with span := call.span } = (.ok [c], s₁))
    (params : c.callable.params = []) (guard : c.callable.guard = none)
    (static : Rule.areStatic c.callable.rules = true) (idle : s.Idle) :
    Settles setting s (callMixin evaluate env ctx nesting call)
      (if setting.options.maxMixinDepth < (c.callable.site :: s.expanding).count c.callable.site
        then none else Rule.outputs? setting ctx c.callable.rules) := by
  have spanned : Ends setting s (setSpan call.span)
      (fun _ u => u = { s with span := call.span }) fun _ _ => False := rfl
  refine Settles.after spanned ?_ ?_
  · rintro _ _ rfl
    exact ⟨{ Extends.refl s with }, rfl⟩
  · rintro _ _ rfl
    have settled := resolveCall_settles settles env ctx nesting args unimportant run params guard
      static { idle with }
    exact (settled.locatedAt _).insideOf _

end Eval

namespace Coupling

open Eval

variable {K : Coupling} {setting : Setting} {W : World} {s t : Evaluation} {env env' : Environment}

/-- A callable with a static body is not being expanded where calls were replaced. -/
theorem Sim.not_expanding (sim : K.Sim W s t) (inlines : K.Inlines setting) (inexact : ¬ K.Exact)
    (known : K.block site rules) (static : Rule.areStatic rules = true) : site ∉ s.expanding := by
  intro member
  obtain ⟨inner, knownToo, busy⟩ := sim.busy inexact site member
  rw [inlines.functional site inner rules knownToo known, static] at busy
  cases busy

/-- A callable that a call means is known. The second compilation need not make the call, but it
    would mean a callable that belongs to this one. -/
theorem Sim.candidate_known (sim : K.Sim W s t) (lawful : K.Lawful setting)
    (envs : EnvLink W env env') (named : ∀ name ∈ path, K.named name)
    (run : findCandidates env path setting s = (.ok [c], s')) (fair : Grows s' K.final) :
    K.block c.callable.site c.callable.rules := by
  have tied : Tied (K.proviso True True) setting s t (findCandidates env path)
    (findCandidates env' path) _ := findCandidates_ties lawful named envs sim
  have related := tied (by rw [run]; exact fair)
  rcases runToo : findCandidates env' path setting t with ⟨g | found, t'⟩ <;>
    rw [run, runToo] at related
  · exact absurd trivial related.1
  · obtain ⟨W', -, links, -⟩ := related
    obtain ⟨_, _, link, -, -⟩ := List.forall₂_cons_left_iff.mp links
    exact (link.callable.aligned lawful).1

/-- A call that was replaced means a single mixin, which may be expanded too often already. -/
theorem callMixin_replaced (inlines : K.Inlines setting) (replaced : K.replaced site)
    (idle : s.Idle) (fair : Grows (noteCalling site K.call env setting s).2 K.final) (n : Nat)
    (ctx : Context) (nesting : Nat) : ∃ own head scope s', findCandidates env K.call.path setting
        { (noteCalling site K.call env setting s).2 with span := K.call.span } =
          (.ok [⟨.mixin own head K.body, scope⟩], s') ∧
      Settles setting (noteCalling site K.call env setting s).2
        (callMixin (blockWithin n) env ctx nesting K.call)
        (if setting.options.maxMixinDepth < (own :: s.expanding).count own then none
          else Rule.outputs? setting ctx K.body) := by
  obtain ⟨own, head, scope, recorded, params, guard⟩ :=
    inlines.meant ⟨site, K.call, env, s.frames⟩ (fair.callings.subset List.mem_cons_self) replaced
  obtain ⟨s', run⟩ := candidates_recorded
    (s := { (noteCalling site K.call env setting s).2 with span := K.call.span }) rfl recorded
  refine ⟨own, head, scope, s', run, ?_⟩
  exact callMixin_settles (blockWithin_settles inlines.lenient n) env ctx nesting inlines.args
    inlines.unimportant run params guard inlines.static { idle with }

theorem callMixin_inlined (lawful : K.Lawful setting) (replaced : K.replaced site)
    (envs : EnvLink W env env') (sim : K.Sim W s t)
    (fair : Grows (noteCalling site K.call env setting s).2 K.final) (n : Nat) (ctx : Context)
    (nesting : Nat) : Settles setting (noteCalling site K.call env setting s).2
      (callMixin (blockWithin n) env ctx nesting K.call) (Rule.outputs? setting ctx K.body) := by
  have inlines := lawful.inlines site replaced
  obtain ⟨own, head, scope, s', run, settled⟩ :=
    callMixin_replaced inlines replaced sim.idle fair n ctx nesting
  have prepares : Prepares _ s' := ((findCandidates_prepares env K.call.path).ends setting _).result run
  have moved : K.Sim W
      { (noteCalling site K.call env setting s).2 with span := K.call.span } t :=
    sim.extendLeft { Extends.refl s with } rfl
  have known : K.block own K.body := moved.candidate_known lawful envs inlines.called run
    ⟨prepares.importer ▸ fair.cache, prepares.trace ▸ fair.callings⟩
  have once : ¬ setting.options.maxMixinDepth < (own :: s.expanding).count own := by
    have unexpanded := sim.not_expanding inlines (fun exact_ => exact_ site replaced) known
      inlines.static
    have := inlines.depth
    rw [List.count_cons_self, List.count_eq_zero.mpr unexpanded]
    omega
  rwa [if_neg once] at settled

end Coupling

end StyleResolution
