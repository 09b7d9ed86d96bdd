import StyleResolution.Proofs.Import.Splicing

/-! # What evaluating a block leaves alone

Evaluating a block makes new frames and may add definitions to the frame of the block, in front of
its own; every other frame keeps its rules. The scoped part of the state is afterwards what it was
before, on every exit.

`Local limit o own` says that at most the frame `o` was changed, and in which way. What happens to
the frames that a computation makes itself is nobody's business outside (`addFrame_local`).
-/

namespace StyleResolution

/-- Whether the rule can be exported by an expansion: a variable or a mixin definition. -/
def Rule.isExport : Rule → Bool
  | .variable _ | .mixin _ _ => true
  | _ => false

/-- The second frame has the rules of the first one, possibly behind exported ones. -/
def Frame.Grown (f f' : Frame) : Prop :=
  f'.base = f.base ∧ ∃ exported, f'.entries = exported ++ f.entries ∧
    ∀ e ∈ exported, e.rule.isExport = true ∧ e.nesting = f.base

def Frame.Changed (_ _ : Frame) : Prop :=
  True

instance : IsPreorder Frame Frame.Changed where
  refl _ := trivial
  trans _ _ _ _ _ := trivial

instance : IsPreorder Frame Frame.Grown where
  refl _ := ⟨rfl, [], rfl, nofun⟩
  trans f g h := by
    rintro ⟨base, early, entries, fromEarly⟩ ⟨base', late, entries', fromLate⟩
    refine ⟨base'.trans base, late ++ early, by rw [entries', entries, List.append_assoc], ?_⟩
    intro e member
    rcases List.mem_append.mp member with isLate | isEarly
    · exact base ▸ fromLate e isLate
    · exact fromEarly e isEarly

theorem Frame.Indexed.grown {f f' : Frame} (h : f.Indexed f') : f.Grown f' :=
  ⟨h.base, [], h.entries, nofun⟩

section

variable (f : Frame) (rules : List Placed) (closure : List FrameId) (source : Frame)

include f rules closure source

theorem Frame.prependExports_base : (f.prependExports rules closure source).base = f.base := by
  unfold Frame.prependExports
  rw [prepend_eq]
  split <;> rfl

theorem Frame.prependExports_closures : (f.prependExports rules closure source).closures =
      ((rules.filter fun p => FrameData.isMixin p.rule).map fun p =>
        (p.site, (source.closureOf p.site).getD closure)).reverse ++ f.closures := by
  unfold Frame.prependExports
  rw [prepend_eq]
  split <;> rfl

end

theorem Frame.prependExports_grown (f : Frame) (exports : ∀ p ∈ rules, p.rule.isExport = true)
    (closure : List FrameId) (source : Frame) : f.Grown (f.prependExports rules closure source) :=
  ⟨f.prependExports_base rules closure source, _, f.prependExports_entries rules closure source,
    by simpa using exports⟩

/-- At most one frame of the first state was changed, in the way `own` says. -/
structure Local (limit : Nat) (o : Option FrameId) (own : Frame → Frame → Prop)
    (s s' : Evaluation) : Prop where
  size : s.frames.size ≤ s'.frames.size
  other : ∀ j < s.frames.size, o ≠ some j → (s.frames.get j).Indexed (s'.frames.get j)
  own : ∀ j < s.frames.size, o = some j → own (s.frames.get j) (s'.frames.get j)
  restored : s'.scopedPart = s.scopedPart
  cache : s.importer.cache <:+ s'.importer.cache
  numbered : Numbered s.importer.files s.importer.cache →
    Numbered s'.importer.files s'.importer.cache
  callings : s.trace.callings <:+ s'.trace.callings
  history : ProperSince limit s.history s'.history

namespace Local

variable {limit : Nat} {o : Option FrameId} {own : Frame → Frame → Prop}

theorem refl [IsPreorder Frame own] (s : Evaluation) : Local limit o own s s :=
  ⟨Nat.le_refl _, fun _ _ _ => .refl _, fun _ _ _ => refl_of own _, rfl, List.suffix_rfl, id,
    List.suffix_rfl, .refl _⟩

theorem trans [IsPreorder Frame own] (first : Local limit o own s t)
    (second : Local limit o own t u) : Local limit o own s u where
  size := Nat.le_trans first.size second.size
  other j inside ne :=
    (first.other j inside ne).trans (second.other j (Nat.lt_of_lt_of_le inside first.size) ne)
  own j inside same :=
    trans_of own (first.own j inside same) (second.own j (Nat.lt_of_lt_of_le inside first.size) same)
  restored := second.restored.trans first.restored
  cache := first.cache.trans second.cache
  numbered := second.numbered ∘ first.numbered
  callings := first.callings.trans second.callings
  history := first.history.trans second.history

instance [IsPreorder Frame own] : IsPreorder Evaluation (Local limit o own) where
  refl := refl
  trans _ _ _ := trans

theorem ofNone (h : Local limit none own s s') (indexed : ∀ f f' : Frame, f.Indexed f' → own' f f') :
    Local limit o own' s s' where
  size := h.size
  other j inside _ := h.other j inside nofun
  own j inside _ := indexed _ _ (h.other j inside nofun)
  restored := h.restored
  cache := h.cache
  numbered := h.numbered
  callings := h.callings
  history := h.history

theorem changed (h : Local limit o own s s') : Local limit o Frame.Changed s s' :=
  { h with own := fun _ _ _ => trivial }

theorem fresh {own' : Frame → Frame → Prop} {id : FrameId} {s t u : Evaluation}
    (first : Local limit none own s t) (new : s.frames.size ≤ id)
    (second : Local limit (some id) own' t u) : Local limit none own s u where
  size := Nat.le_trans first.size second.size
  other j inside _ := by
    have ne : some id ≠ some j := by
      rintro ⟨⟩
      exact absurd inside (Nat.not_lt.mpr new)
    exact (first.other j inside nofun).trans (second.other j (Nat.lt_of_lt_of_le inside first.size) ne)
  own := nofun
  restored := second.restored.trans first.restored
  cache := first.cache.trans second.cache
  numbered := second.numbered ∘ first.numbered
  callings := first.callings.trans second.callings
  history := first.history.trans second.history

end Local

theorem Loads.local {limit : Nat} {s s' : Evaluation} (loads : Loads s s') (o : Option FrameId) :
    Local limit o Frame.Grown s s' where
  size := Nat.le_of_eq loads.size.symm
  other j _ _ := loads.frame j
  own j _ _ := (loads.frame j).grown
  restored := loads.restored
  cache := loads.cache
  numbered := loads.numbered
  callings := loads.callings ▸ List.suffix_rfl
  history := loads.history limit

theorem Splices.local {limit : Nat} {id : FrameId} {s s' : Evaluation} (splices : Splices id s s') :
    Local limit (some id) Frame.Changed s s' where
  size := Nat.le_of_eq splices.size.symm
  other j _ ne := splices.other j fun same => ne (same ▸ rfl)
  own _ _ _ := trivial
  restored := splices.restored
  cache := splices.cache
  numbered := splices.numbered
  callings := splices.callings ▸ List.suffix_rfl
  history := splices.history limit

namespace Eval

variable {α : Type} {setting : Setting}

/-- The computation changes at most one frame, by exporting definitions to it. -/
abbrev KeepsLocal (setting : Setting) (o : Option FrameId) (x : Eval α) : Prop :=
  Keeps setting (Local setting.options.maxMixinDepth o Frame.Grown) x

/-- The computation changes at most one frame. -/
abbrev KeepsOthers (setting : Setting) (o : Option FrameId) (x : Eval α) : Prop :=
  Keeps setting (Local setting.options.maxMixinDepth o Frame.Changed) x

theorem Keeps.local {x : Eval α} (h : Keeps setting Loads x) (o : Option FrameId) :
    KeepsLocal setting o x :=
  fun s => (h s).local o

theorem KeepsLocal.ofNone (h : KeepsLocal setting none x) (o : Option FrameId) :
    KeepsLocal setting o x :=
  fun s => (h s).ofNone fun _ _ => Frame.Indexed.grown

theorem KeepsLocal.others (h : KeepsLocal setting o x) : KeepsOthers setting o x :=
  fun s => (h s).changed

theorem addFrame_apply_local (f : Frame) (s : Evaluation) :
    Local setting.options.maxMixinDepth none Frame.Grown s
      { s with frames := (s.frames.add f).2 } where
  size := by simp
  other j inside _ := .inl (Frames.get_add_of_lt inside f)
  own := nofun
  restored := rfl
  cache := List.suffix_rfl
  numbered := id
  callings := List.suffix_rfl
  history := .refl _

theorem addFrame_local (f : Frame) : KeepsLocal setting none (addFrame f) :=
  addFrame_apply_local f

theorem addFrame_bind_local (h : ∀ id, KeepsOthers setting (some id) (next id)) :
    KeepsLocal setting none (addFrame f >>= next) :=
  fun s => (addFrame_apply_local f s).fresh (Nat.le_refl _) (h s.frames.size _)

theorem makeSite_local (o : Option FrameId) : KeepsLocal setting o makeSite :=
  fun s => { Local.refl s with }

theorem setSpan_local (o : Option FrameId) (span : Span) : KeepsLocal setting o (setSpan span) :=
  (setSpan_loads span).local o

theorem emit_local (o : Option FrameId) (e : Event) : KeepsLocal setting o (emit e) :=
  (emit_loads e).local o

theorem value_local (o : Option FrameId) (env : Environment) (v : Value) :
    KeepsLocal setting o (value env v) :=
  (value_quiet env v).loads.local o

/-! ## Finding callables -/

theorem searches_local : Composes.Searches fun _ x _ => KeepsLocal setting none x where
  toComposes := Keeps.composes
  consult id := (consult_quiet id).loads.local none
  addBlock _ _ _ := addFrame_local _

theorem searchNamespaces_local (h : ∀ id, KeepsLocal setting none (search id)) (f : Frame)
    (cs : List Callable) : KeepsLocal setting none (searchNamespaces search f cs) :=
  searches_local.searchNamespaces h f cs

/-! ## Matching candidates -/

theorem evaluateArguments_local (env : Environment) (args : List Argument) :
    KeepsLocal setting none (evaluateArguments env args) :=
  (values_quiet.conditions.evaluateArguments env args).loads.local none

theorem changeFrame_others (id : FrameId) (f : Frame → Frame) :
    KeepsOthers setting (some id) (changeFrame id f) :=
  .change fun s =>
    { (Local.refl s : Local _ (some id) Frame.Changed s s) with
      size := by simp
      other := fun j _ ne => .inl (Frames.get_modify_of_ne _ (fun same => ne (congrArg some same.symm)) _)
      own := fun _ _ _ => trivial }

theorem define_others (id : FrameId) (name : String) (v : Value) (span : Span) :
    KeepsOthers setting (some id) (define id name v span) :=
  .bind (makeSite_local _).others fun _ => changeFrame_others id _

theorem defineParams_others (params : FrameId) (scope caller : Environment) (span : Span)
    (bindings : List (String × Mixin.Bound)) :
    KeepsOthers setting (some params) (defineParams params scope caller span bindings) := by
  induction bindings with
  | nil => exact .pure _
  | cons binding rest ih =>
    obtain ⟨name, bound⟩ := binding
    refine .bind ?_ fun v => .bind (define_others params name v span) fun _ => ih
    cases bound with
    | supplied v => exact .pure _
    | fallback v => exact (value_local _ _ v).others

theorem parameterFrame_local (binding : Mixin.Binding) (scope caller : Environment) (span : Span) :
    KeepsLocal setting none (parameterFrame binding scope caller span) :=
  addFrame_bind_local fun params => .bind (defineParams_others params scope caller span _)
    fun _ => .bind (define_others params _ _ span) fun _ => .pure _

theorem defaultGroup_local (callable : Callable) (scope : Environment) :
    KeepsLocal setting none (defaultGroup callable scope) :=
  (defaultGroup_quiet callable scope).loads.local none

theorem calls_local : Composes.Calls fun _ x _ => KeepsLocal setting none x where
  toSearches := searches_local
  emit := emit_local none
  mismatch _ _ := .failWith _
  missing _ := .failWith _
  makeSite := makeSite_local none
  dereference env v := (dereference_quiet env v).loads.local none
  evaluateArguments := evaluateArguments_local
  parameterFrame := parameterFrame_local
  defaultGroup := defaultGroup_local

theorem chosenGroup_local (matched : List MatchedCandidate) (call : MixinCall) :
    KeepsLocal setting none (chosenGroup matched call) :=
  (chosenGroup_quiet matched call).loads.local none

/-! ## Expanding callables -/

theorem exportsOf_exports (env : Environment) (es : List Entry) (s : Evaluation) :
    Ends setting s (exportsOf env es) (fun rules _ => ∀ p ∈ rules, p.rule.isExport = true)
      (fun _ _ => True) := by
  induction es generalizing s with
  | nil => exact .pure nofun
  | cons e es ih =>
    unfold exportsOf
    split
    · refine .bind_of_run (fun v t _ => .bind_of_run (fun site u _ => ?_) ?_) ?_
      · refine .bind (ih u) (fun others u' exports => .pure ?_) fun _ _ h => h
        simpa [Rule.isExport] using exports
      · exact fun _ _ _ => trivial
      · exact fun _ _ _ => trivial
    · rename_i isMixin
      refine .seq (ih s) (fun others u' exports => .pure ?_)
      simpa [Rule.isExport, isMixin] using exports
    · exact ih s

theorem exportTo_local (caller : Option FrameId) (bodyEnv : Environment) (params body : FrameId) :
    KeepsLocal setting caller (exportTo caller bodyEnv params body) := by
  unfold exportTo
  split
  · exact .pure _
  · rename_i caller
    refine .bind ((frame_quiet body).loads.local _) fun f s => ?_
    refine Keeps.bind_at ((calls_local.exportsOf bodyEnv f.entries).ofNone _ s)
      fun rules t run => ?_
    have exports := (exportsOf_exports bodyEnv f.entries s).result run
    refine Keeps.bind ((frame_quiet body).loads.local _) (fun source => ?_) t
    refine Keeps.change fun u =>
      { (Local.refl u : Local _ (some caller) Frame.Grown u u) with
        size := by simp
        other := fun j _ ne => .inl (Frames.get_modify_of_ne _ (fun same => ne (congrArg some same.symm)) _)
        own := ?_ }
    rintro j inside ⟨⟩
    rw [Frames.get_modify_self inside]
    exact Frame.prependExports_grown _ exports _ source

theorem whileExpanding_local (site : Site) (h : KeepsLocal setting o x) :
    KeepsLocal setting o (whileExpanding site x) := by
  refine h.between fun s s' inner => { inner with restored := ?_ }
  have parts := inner.restored
  simp only [Evaluation.scopedPart, Scoped.mk.injEq] at parts ⊢
  simp [parts]

theorem expandImports_others (id : FrameId) (env : Environment) (defer : Bool) :
    KeepsOthers setting (some id) (expandImports id env defer) :=
  fun s => (expandImports_splices id env defer s).local

section Blocks

variable {evaluate : BlockEvaluator}
  (evaluates : ∀ env ctx, KeepsLocal setting env.innermost? (evaluate env ctx))

include evaluates

theorem evaluateBody_local (ctx : Context) (nesting : Nat) (m : MatchedCandidate) :
    KeepsLocal setting none (evaluateBody evaluate ctx nesting m) :=
  addFrame_bind_local fun body => .bind (expandImports_others body _ false) fun _ =>
    .bind (evaluates (m.scope.push body) ctx).others fun _ => .pure _

theorem expandBody_local (ctx : Context) (nesting : Nat) (caller : Option FrameId)
    (m : MatchedCandidate) : KeepsLocal setting caller (expandBody evaluate ctx nesting caller m) := by
  refine Keeps.withState fun s => ?_
  refine Keeps.bind_at (Local.refl s) fun limits t run => ?_
  cases run
  dsimp only
  split
  · exact Local.refl s
  · rename_i within
    have proper : (Beginning.body m.callable.site s.expanding).Proper
        setting.options.maxMixinDepth := Nat.le_of_not_lt within
    have begun : Local setting.options.maxMixinDepth caller Frame.Grown s
        (beginBody m.callable.site setting s).2 :=
      { (Local.refl s : Local setting.options.maxMixinDepth caller Frame.Grown s s) with
        history := .cons proper _ }
    refine Keeps.bind_at begun fun _ t _ => ?_
    exact Keeps.bind (emit_local caller _) (fun _ =>
      .bind ((evaluateBody_local evaluates ctx nesting m).ofNone caller) fun evaluated =>
        .bind (exportTo_local caller _ _ _) fun _ => .pure _) t

theorem expandAll_local (ctx : Context) (nesting : Nat) (caller : Option FrameId)
    (ms : List MatchedCandidate) :
    KeepsLocal setting caller (expandAll evaluate ctx nesting caller ms) := by
  induction ms with
  | nil => exact .pure _
  | cons m ms ih =>
    exact .bind (whileExpanding_local _ (expandBody_local evaluates ctx nesting caller m))
      fun _ => .bind ih fun _ => .pure _

theorem resolveCall_local (env : Environment) (ctx : Context) (nesting : Nat) (call : MixinCall) :
    KeepsLocal setting env.innermost? (resolveCall evaluate env ctx nesting call) := by
  refine .bind ((evaluateArguments_local env call.args).ofNone _) fun args =>
    .bind ((searches_local.findCandidates env call.path).ofNone _) fun candidates => ?_
  split
  · exact .failWith _
  · refine .bind (emit_local _ _) fun _ =>
      .bind ((calls_local.matchCandidates env args call.span candidates).ofNone _)
        fun selection => ?_
    split
    · exact (calls_local.unmatched call _ _).ofNone _
    · exact .bind ((chosenGroup_local _ call).ofNone _) fun group =>
        expandAll_local evaluates _ nesting _ _

theorem callMixin_local (env : Environment) (ctx : Context) (nesting : Nat) (call : MixinCall) :
    KeepsLocal setting env.innermost? (callMixin evaluate env ctx nesting call) :=
  .bind (setSpan_local _ _) fun _ =>
    ((resolveCall_local evaluates env ctx nesting call).locatedAt _).insideOf _

/-! ## Evaluating blocks -/

omit evaluates in
theorem noteCalling_local (o : Option FrameId) (site : Site) (call : MixinCall)
    (env : Environment) : KeepsLocal setting o (noteCalling site call env) :=
  .change fun s => { Local.refl s with callings := List.suffix_cons _ _ }

theorem expandCalls_local (env : Environment) (ctx : Context) (es : List Entry) :
    KeepsLocal setting env.innermost? (expandCalls evaluate env ctx es) := by
  induction es with
  | nil => exact .pure _
  | cons e es ih =>
    unfold expandCalls
    split
    · exact .bind (noteCalling_local _ _ _ env) fun _ =>
        .bind (callMixin_local evaluates env ctx _ _) fun _ => .bind ih fun _ =>
          .pure _
    · exact ih

omit evaluates in
theorem enterBlock_bind (env : Environment) (site : Site) (rules : List Rule) (nesting : Nat)
    (next : Environment → Eval α) :
    enterBlock env site rules nesting >>= next =
      addFrame (Frame.ofBlock site rules nesting) >>= fun id =>
        expandImports id (env.push id) false >>= fun _ => next (env.push id) := by
  simp only [enterBlock, bind_assoc, pure_bind]

omit evaluates in
theorem enterBlock_local (h : ∀ inner, KeepsLocal setting inner.innermost? (next inner)) :
    KeepsLocal setting none (enterBlock env site rules nesting >>= next) := by
  rw [enterBlock_bind]
  exact addFrame_bind_local fun id => .bind (expandImports_others id _ false) fun _ =>
    (h (env.push id)).others

omit evaluates in
theorem evaluatePrelude_local (env : Environment) (span : Span) (prelude : Option Value) :
    KeepsLocal setting none (evaluatePrelude env span prelude) :=
  (values_quiet.evaluatePrelude env span prelude).loads.local none

omit evaluates in
theorem effectiveSelectors_local (ancestors selectors : List Selector) (span : Span) :
    KeepsLocal setting none (effectiveSelectors ancestors selectors span) := by
  refine .bind .ofSetting fun limits => ?_
  dsimp only
  split
  · exact .fail _
  · split
    · exact .pure _
    · exact .bind (emit_local none _) fun _ => .pure _

section

variable (env : Environment) (ctx : Context)

include env ctx

theorem evaluateRuleset_local (e : Entry) (selectors : List Selector) (rules : List Rule)
    (span : Span) :
    KeepsLocal setting none (evaluateRuleset evaluate env ctx e selectors rules span) := by
  refine .bind (effectiveSelectors_local _ _ _) fun effective =>
    .mapFailure_bind (enterBlock_local fun inner => ?_)
  exact .bind ((evaluates inner _).insideOf _) fun _ => .pure _

theorem evaluateMedia_local (e : Entry) (features : Value) (rules : List Rule) (span : Span) :
    KeepsLocal setting none (evaluateMedia evaluate env ctx e features rules span) :=
  .bind ((value_local none env features).locatedAt _) fun _ =>
    enterBlock_local fun inner => .bind (evaluates inner _) fun _ => .pure _

theorem evaluateAtBlock_local (e : Entry) (name : String) (prelude : Option Value)
    (rules : List Rule) (span : Span) :
    KeepsLocal setting none (evaluateAtBlock evaluate env ctx e name prelude rules span) :=
  .bind (evaluatePrelude_local env span prelude) fun _ =>
    enterBlock_local fun inner => .bind ((evaluates inner _).insideOf _) fun _ => .pure _

theorem evaluateRule_local (e : Entry) :
    KeepsLocal setting none (evaluateRule evaluate env ctx e) := by
  unfold evaluateRule
  split
  · exact .bind (setSpan_local none _) fun _ =>
      .bind ((value_local none env _).locatedAt _) fun _ => .pure _
  · exact .bind (setSpan_local none _) fun _ =>
      .bind (((dereference_quiet env _).loads.local none).locatedAt _) fun _ => .pure _
  · exact evaluateRuleset_local evaluates env ctx e _ _ _
  · exact .pure _
  · exact .pure _
  · exact .bind ((value_local none env _).locatedAt _) fun _ =>
      .bind (evaluatePrelude_local env _ _) fun _ => .pure _
  · exact evaluateMedia_local evaluates env ctx e _ _ _
  · exact .bind (evaluatePrelude_local env _ _) fun _ => .pure _
  · exact evaluateAtBlock_local evaluates env ctx e _ _ _ _

theorem evaluateEntries_local (es : List Entry) (expansions : List Output) :
    KeepsLocal setting none (evaluateEntries evaluate env ctx es expansions) := by
  induction es generalizing expansions with
  | nil => exact .pure _
  | cons e es ih =>
    unfold evaluateEntries
    split
    · exact .bind (ih _) fun _ => .pure _
    · exact .bind (evaluateRule_local evaluates env ctx e) fun _ => .bind (ih _) fun _ =>
        .pure _

theorem blockWith_local :
    KeepsLocal setting env.innermost? (blockWith evaluate env ctx) := by
  unfold blockWith
  split
  · exact .pure _
  · rename_i id _
    exact .bind ((frame_quiet id).loads.local _) fun f =>
      .bind (expandCalls_local evaluates env ctx f.entries) fun expansions =>
        .bind ((frame_quiet id).loads.local _) fun f =>
          (evaluateEntries_local evaluates env ctx f.entries expansions).ofNone _

end

end Blocks

theorem expandCalls_of_no_call (evaluate : BlockEvaluator) (ctx : Context)
    (uncalled : ∀ e ∈ es, ∀ c, e.rule ≠ .call c) : expandCalls evaluate env ctx es = pure [] := by
  induction es with
  | nil => rfl
  | cons e es ih =>
    simp only [List.forall_mem_cons] at uncalled
    unfold expandCalls
    split
    · rename_i c isCall
      exact absurd isCall (uncalled.1 c)
    · exact ih uncalled.2

theorem blockWithin_local (n : Nat) (env : Environment) (ctx : Context) :
    KeepsLocal setting env.innermost? (blockWithin n env ctx) := by
  induction n generalizing env ctx with
  | zero => exact .failWith _
  | succ n ih => exact blockWith_local ih env ctx

end Eval

end StyleResolution
