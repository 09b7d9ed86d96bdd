import StyleResolution.Proofs.Evaluation.Locality
import StyleResolution.Proofs.Scope.History

/-! # Exported definitions give way

An expansion puts the definitions of its body in front of the rules of the block it was made from.
The last definition of a name counts, so the block's own definitions win over all exported ones, and
among these the ones of the first expansion win. `Expansion.Made` follows the frame of a block from
expansion to expansion. Whatever else is evaluated in between leaves the rules of the frame alone.
-/

namespace StyleResolution

open Eval

/-! ## Expansions from a block -/

/-- An expansion that came to its end: the callable, the states before and after it, and what it
    exported. -/
structure Expansion where
  candidate : MatchedCandidate
  before : Evaluation
  exported : List Placed
  after : Evaluation

/-- From the first state to the second one no rule of the frame changes. -/
structure Untouched (id : FrameId) (s t : Evaluation) : Prop where
  size : s.frames.size ≤ t.frames.size
  frame : (s.frames.get id).Indexed (t.frames.get id)

namespace Expansion

def lastDefinition (x : Expansion) (name : String) : Option Variable :=
  x.exported.reverse.findSome? (·.definitionOf name)

section Made

variable (setting : Setting) (evaluate : BlockEvaluator) (id : FrameId)

def ExportsTo (x : Expansion) : Prop :=
  ∃ ctx nesting body output evaluated read,
    evaluateBody evaluate ctx nesting x.candidate setting x.before =
      (.ok (body, output), evaluated) ∧
    exportsOf (x.candidate.scope.push body) (evaluated.frames.get body).entries setting
      evaluated = (.ok x.exported, read) ∧
    changeFrame id (·.prependExports x.exported [x.candidate.params, body]
      (read.frames.get body)) setting read = (.ok (), x.after)

/-- Between the two states the expansions were made one after the other, and nothing else changed
    the rules of the frame. -/
def Made : Evaluation → List Expansion → Evaluation → Prop
  | s, [], t => Untouched id s t
  | s, x :: xs, t => Untouched id s x.before ∧ x.ExportsTo setting evaluate id ∧ Made x.after xs t

end Made

end Expansion

namespace Untouched

variable {id : FrameId} {s t u : Evaluation}

theorem of_frames_eq (same : t.frames = s.frames) : Untouched id s t :=
  ⟨Nat.le_of_eq (by rw [same]), .inl (by rw [same])⟩

theorem trans (first : Untouched id s t) (second : Untouched id t u) : Untouched id s u :=
  ⟨Nat.le_trans first.size second.size, first.frame.trans second.frame⟩

theorem of_local (kept : Local limit none own s t) (inside : id < s.frames.size) :
    Untouched id s t :=
  ⟨kept.size, kept.other id inside (by simp)⟩

end Untouched

namespace Expansion

variable {setting : Setting} {evaluate : BlockEvaluator} {id : FrameId} {s t u : Evaluation}
  {x : Expansion} {xs ys : List Expansion}

theorem Made.after_untouched (still : Untouched id s t)
    (made : Made setting evaluate id t ys u) : Made setting evaluate id s ys u := by
  cases ys with
  | nil => exact still.trans made
  | cons y ys => exact ⟨still.trans made.1, made.2⟩

theorem Made.trans (first : Made setting evaluate id s xs t)
    (second : Made setting evaluate id t ys u) : Made setting evaluate id s (xs ++ ys) u := by
  induction xs generalizing s with
  | nil => exact second.after_untouched first
  | cons x xs ih => exact ⟨first.1, first.2.1, ih first.2.2⟩

/-! ## What names mean after expansions -/

section Names

variable (evaluates : ∀ env ctx, Eval.KeepsLocal setting env.innermost? (evaluate env ctx))

include evaluates

theorem ExportsTo.frame (exports : x.ExportsTo setting evaluate id)
    (inside : id < x.before.frames.size) :
    x.before.frames.size ≤ x.after.frames.size ∧ ∃ f closure source,
      (x.before.frames.get id).Indexed f ∧
      x.after.frames.get id = f.prependExports x.exported closure source := by
  obtain ⟨ctx, nesting, body, output, evaluated, read, ran, found, changed⟩ := exports
  have evaluation := evaluateBody_local evaluates ctx nesting x.candidate x.before
  rw [ran] at evaluation
  have reading : Local setting.options.maxMixinDepth none Frame.Grown evaluated _ :=
    calls_local.exportsOf (x.candidate.scope.push body) (evaluated.frames.get body).entries
      evaluated
  rw [found] at reading
  have within := Nat.lt_of_lt_of_le inside evaluation.size
  have still := (Untouched.of_local evaluation inside).trans (.of_local reading within)
  have there := Nat.lt_of_lt_of_le within reading.size
  have frames : x.after.frames = read.frames.modify id fun f =>
      f.prependExports x.exported [x.candidate.params, body] (read.frames.get body) :=
    congrArg (fun run => run.2.frames) changed.symm
  rw [frames, Frames.size_modify, Frames.get_modify_self there]
  exact ⟨still.size, _, _, _, still.frame, rfl⟩

omit evaluates in
theorem lastDefinition_prependExports (f : Frame) (rules : List Placed) (closure : List FrameId)
    (source : Frame) (name : String) :
    (f.prependExports rules closure source).lastDefinition name =
      (f.lastDefinition name).or (rules.reverse.findSome? (·.definitionOf name)) := by
  unfold FrameData.lastDefinition
  rw [Frame.prependExports_rules, List.reverse_append, List.findSome?_append]

omit evaluates in
theorem lastDefinition_indexed {f f' : Frame} (indexed : f.Indexed f') (name : String) :
    f'.lastDefinition name = f.lastDefinition name := by
  rw [FrameData.lastDefinition, indexed.rules, ← FrameData.lastDefinition]

/-- After expansions a name means what it meant before, or else what the first of the expansions
    that exported it says. -/
theorem Made.lastDefinition (made : Made setting evaluate id s xs t) (inside : id < s.frames.size)
    (fresh : (s.frames.get id).Fresh) :
    (t.frames.get id).Fresh ∧ ∀ name, (t.frames.get id).lastDefinition name =
      ((s.frames.get id).lastDefinition name).or (xs.findSome? (·.lastDefinition name)) := by
  induction xs generalizing s with
  | nil =>
    refine ⟨fresh.of_indexed made.frame, fun name => ?_⟩
    rw [lastDefinition_indexed made.frame, List.findSome?_nil, Option.or_none]
  | cons x xs ih =>
    obtain ⟨still, exports, later⟩ := made
    obtain ⟨grows, f, closure, source, kept, after⟩ :=
      exports.frame evaluates (Nat.lt_of_lt_of_le inside still.size)
    have same : (s.frames.get id).Indexed f := still.frame.trans kept
    have freshThen : (x.after.frames.get id).Fresh := by
      rw [after]
      exact (fresh.of_indexed same).prependExports x.exported closure source
    have insideThen := Nat.lt_of_lt_of_le inside (Nat.le_trans still.size grows)
    obtain ⟨freshLater, meanings⟩ := ih later insideThen freshThen
    refine ⟨freshLater, fun name => ?_⟩
    rw [meanings, after, lastDefinition_prependExports, lastDefinition_indexed same,
      Option.or_assoc, List.findSome?_cons, ← Expansion.lastDefinition]
    cases x.lastDefinition name <;> rfl

end Names

end Expansion

/-! ## Evaluating a block makes expansions -/

namespace Eval

variable {α : Type} {setting : Setting} {evaluate : BlockEvaluator} {id : FrameId}

def Expands (setting : Setting) (evaluate : BlockEvaluator) (id : FrameId) (s t : Evaluation) :
    Prop :=
  id < s.frames.size → id < t.frames.size ∧ ∃ xs, Expansion.Made setting evaluate id s xs t

instance : IsPreorder Evaluation (Expands setting evaluate id) where
  refl s inside := ⟨inside, [], .of_frames_eq rfl⟩
  trans s t u first second inside := by
    obtain ⟨within, xs, made⟩ := first inside
    obtain ⟨there, ys, more⟩ := second within
    exact ⟨there, xs ++ ys, made.trans more⟩

theorem Expands.of_frames_eq (same : t.frames = s.frames) : Expands setting evaluate id s t :=
  fun inside => ⟨same ▸ inside, [], .of_frames_eq same⟩

theorem Expands.of_local (kept : Local limit none own s t) : Expands setting evaluate id s t :=
  fun inside => ⟨Nat.lt_of_lt_of_le inside kept.size, [], .of_local kept inside⟩

theorem KeepsLocal.expands (kept : KeepsLocal setting none x) :
    Keeps setting (Expands setting evaluate id) x :=
  fun s => .of_local (kept s)

section Blocks

variable (evaluates : ∀ env ctx, KeepsLocal setting env.innermost? (evaluate env ctx))

include evaluates

theorem exporting_expands (ctx : Context) (nesting : Nat) (m : MatchedCandidate) :
    Keeps setting (Expands setting evaluate id) (do
      let (body, output) ← evaluateBody evaluate ctx nesting m
      exportTo (some id) (m.scope.push body) m.params body
      pure output) := by
  refine .of_ends fun s => ?_
  have evaluation := evaluateBody_local evaluates ctx nesting m s
  refine .bind_of_run (fun evaluated u ran => ?_) fun f u ran => ?_
  · obtain ⟨body, output⟩ := evaluated
    rw [ran] at evaluation
    have reading : Local setting.options.maxMixinDepth none Frame.Grown u _ :=
      calls_local.exportsOf (m.scope.push body) (u.frames.get body).entries u
    have exporting : Ends setting u (exportTo (some id) (m.scope.push body) m.params body)
        (fun _ t => Expands setting evaluate id s t)
        (fun _ t => Expands setting evaluate id s t) := by
      refine .bind_of_ok rfl (.bind_of_run (fun rules v found => ?_) fun f v found => ?_)
      · refine .bind_of_ok rfl fun inside => ?_
        rw [found] at reading
        have there := Nat.lt_of_lt_of_le inside (Nat.le_trans evaluation.size reading.size)
        refine ⟨by simpa using there, [⟨m, s, rules, _⟩], .of_frames_eq rfl, ?_, .of_frames_eq rfl⟩
        exact ⟨ctx, nesting, body, output, u, v, ran, found, rfl⟩
      · rw [found] at reading
        exact .of_local (evaluation.trans reading)
    exact .seq exporting (fun _ _ expands => .pure expands)
  · rw [ran] at evaluation
    exact .of_local evaluation

theorem expandBody_expands (ctx : Context) (nesting : Nat) (m : MatchedCandidate) :
    Keeps setting (Expands setting evaluate id) (expandBody evaluate ctx nesting (some id) m) := by
  refine .bind .ofState fun s => .bind .ofSetting fun limits => ?_
  dsimp only
  split
  · exact .failWith _
  · exact .bind (.change fun _ => .of_frames_eq rfl) fun _ =>
      .bind (emit_local none _).expands fun _ => exporting_expands evaluates ctx nesting m

theorem expandAll_expands (ctx : Context) (nesting : Nat) (ms : List MatchedCandidate) :
    Keeps setting (Expands setting evaluate id) (expandAll evaluate ctx nesting (some id) ms) := by
  induction ms with
  | nil => exact .pure _
  | cons m ms ih =>
    refine .bind ?_ fun _ => .bind ih fun _ => .pure _
    refine (expandBody_expands evaluates ctx nesting m).between fun s t expands => ?_
    have entered : Expands setting evaluate id s
        { s with expanding := m.callable.site :: s.expanding } := .of_frames_eq rfl
    have left : Expands setting evaluate id t { t with expanding := t.expanding.tail } :=
      .of_frames_eq rfl
    exact trans_of _ entered (trans_of _ expands left)

theorem callMixin_expands (env : Environment) (ctx : Context) (nesting : Nat) (call : MixinCall) :
    Keeps setting (Expands setting evaluate id)
      (callMixin evaluate (env.push id) ctx nesting call) := by
  refine .bind (setSpan_local none _).expands fun _ => .insideOf (.locatedAt ?_ _) _
  refine .bind (evaluateArguments_local _ call.args).expands fun args =>
    .bind (searches_local.findCandidates _ call.path).expands fun candidates => ?_
  split
  · exact .failWith _
  · refine .bind (emit_local none _).expands fun _ =>
      .bind (calls_local.matchCandidates _ args call.span candidates).expands fun selection => ?_
    split
    · exact (calls_local.unmatched call _ _).expands
    · exact .bind (chosenGroup_local _ call).expands fun group =>
        expandAll_expands evaluates _ nesting _

theorem expandCalls_expands (env : Environment) (ctx : Context) (es : List Entry) :
    Keeps setting (Expands setting evaluate id) (expandCalls evaluate (env.push id) ctx es) := by
  induction es with
  | nil => exact .pure _
  | cons e es ih =>
    unfold expandCalls
    split
    · exact .bind (noteCalling_local none _ _ _).expands fun _ =>
        .bind (callMixin_expands evaluates env ctx _ _) fun _ => .bind ih fun _ =>
          .pure _
    · exact ih

theorem blockWith_expands (env : Environment) (ctx : Context) :
    Keeps setting (Expands setting evaluate id) (blockWith evaluate (env.push id) ctx) :=
  .bind ((frame_quiet id).loads.local none).expands fun f =>
    .bind (expandCalls_expands evaluates env ctx f.entries) fun expansions =>
      .bind ((frame_quiet id).loads.local none).expands fun f =>
        (evaluateEntries_local evaluates (env.push id) ctx f.entries expansions).expands

end Blocks

end Eval

/-- Whatever is evaluated in a block, whether it fails or not, the rules of its frame change by
    expansions only. After any number of them, a name that the block defines means the block's own
    last definition of it. Another name means the last definition of it that was exported by the
    first expansion that exported one. What a name means never changes by further expansions. -/
theorem exports_never_override (setting : Setting) (s : Evaluation) (env : Environment)
    (id : FrameId) (ctx : Context) (n : Nat) (inside : id < s.frames.size)
    (fresh : (s.frames.get id).Fresh) :
    let Made := Expansion.Made setting (blockWithin n) id
    (∀ es, ∃ xs, Made s xs
      (expandCalls (blockWithin n) (env.push id) ctx es setting s).2) ∧
    (∃ xs, Made s xs (blockWithin (n + 1) (env.push id) ctx setting s).2) ∧
    ∀ xs t, Made s xs t → ∀ name,
      (lookupIn name [id] setting t).1 = .ok
        (((s.frames.get id).lastDefinition name).or (xs.findSome? (·.lastDefinition name))) ∧
      ∀ ys u v, Made t ys u → (lookupIn name [id] setting t).1 = .ok (some v) →
        (lookupIn name [id] setting u).1 = .ok (some v) := by
  intro Made
  have evaluates : ∀ env ctx, Eval.KeepsLocal setting env.innermost? (blockWithin n env ctx) :=
    blockWithin_local n
  have meaning : ∀ {xs t}, Made s xs t → ∀ name, (lookupIn name [id] setting t).1 = .ok
      (((s.frames.get id).lastDefinition name).or (xs.findSome? (·.lastDefinition name))) := by
    intro xs t made name
    obtain ⟨freshThen, meanings⟩ := made.lastDefinition evaluates inside fresh
    rw [(lookupIn_ends name [id] t).outcome_eq, ← meanings, ← freshThen.definitionOf]
    simp only [Frames.variableIn]
    cases (t.frames.get id).names.definitionOf name <;> rfl
  refine ⟨fun es => ?_, ?_, fun xs t made name => ⟨meaning made name, ?_⟩⟩
  · exact (expandCalls_expands evaluates env ctx es s inside).2
  · exact (blockWith_expands evaluates env ctx s inside).2
  · intro ys u v more found
    rw [meaning made name] at found
    rw [meaning (made.trans more) name, List.findSome?_append, ← Option.or_assoc]
    simp only [Except.ok.injEq] at found ⊢
    rw [found, Option.some_or]

/-- A block that defines `@x` and calls two mixins: the first one defines `@x`, and `@y` twice, and
    the second one defines `@y`. -/
def competingExports : Evaluation :=
  { frames := ⟨#[Frame.ofBlock (.written 0 [])
      [.mixin ⟨".one", [], none, Span.none⟩
          [.variable ⟨"x", .keyword "one", Span.none⟩, .variable ⟨"y", .keyword "one", Span.none⟩,
            .variable ⟨"y", .keyword "last", Span.none⟩],
        .mixin ⟨".two", [], none, Span.none⟩ [.variable ⟨"y", .keyword "two", Span.none⟩],
        .variable ⟨"x", .keyword "own", Span.none⟩,
        .call ⟨[".one"], [], false, Span.none⟩,
        .call ⟨[".two"], [], false, Span.none⟩] 0]⟩ }

def competingExportsDone : Evaluation :=
  (blockWithin 2 (Environment.push {} 0) {} {} competingExports).2

def meaningIn (s : Evaluation) (name : String) : Option String :=
  ((lookupIn name [0] {} s).1.toOption.getD none).map (·.definition.value.text)

theorem competingExports_resolved :
    meaningIn competingExportsDone "x" = some "own" ∧
      meaningIn competingExportsDone "y" = some "last" ∧
      ∃ xs, Expansion.Made {} (blockWithin 1) 0 competingExports xs competingExportsDone ∧
        ∀ name, (lookupIn name [0] {} competingExportsDone).1 = .ok
          (((competingExports.frames.get 0).lastDefinition name).or
            (xs.findSome? (·.lastDefinition name))) := by
  obtain ⟨-, ⟨xs, made⟩, meanings⟩ := exports_never_override {} competingExports {} 0 {} 1
    (by decide) (Frame.Fresh.ofPlaced _ _)
  refine ⟨by decide +kernel, by decide +kernel, xs, made, fun name => ?_⟩
  exact (meanings xs competingExportsDone made name).1

end StyleResolution
