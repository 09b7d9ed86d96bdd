import StyleResolution.Proofs.Evaluation.Composition

/-! # Nothing depends on the log

The log of events is written and never read. Started with older events in its log, a computation
ends as it would without them, and its own events follow the older ones (`IgnoresLog`). So from two
states that differ in their logs alone, it ends in the same way and in states that differ in their
logs alone (`EndsLike`).
-/

namespace StyleResolution

namespace Evaluation

def after (s : Evaluation) (older : Array Event) : Evaluation :=
  { s with events := older ++ s.events }

theorem unlogged_after_events (s : Evaluation) : s.unlogged.after s.events = s := by
  simp [after, unlogged]

@[simp] theorem unlogged_after (s : Evaluation) (older : Array Event) :
    (s.after older).unlogged = s.unlogged := rfl

end Evaluation

namespace Eval

variable {α β : Type}

/-- The older events in the log change neither how the computation ends nor what it adds. -/
def IgnoresLog (x : Eval α) : Prop :=
  ∀ setting s older, x setting (s.after older) = ((x setting s).1, (x setting s).2.after older)

/-- The two computations end in the same way, the log apart. -/
def EndsLike (setting : Setting) (s t : Evaluation) (x y : Eval α) : Prop :=
  (x setting s).1 = (y setting t).1 ∧ (x setting s).2.unlogged = (y setting t).2.unlogged

namespace EndsLike

variable {setting : Setting} {s t : Evaluation}

theorem pure (same : s.unlogged = t.unlogged) : EndsLike setting s t (Pure.pure a) (Pure.pure a) :=
  ⟨rfl, same⟩

theorem bind {x y : Eval β} {next next' : β → Eval α} (first : EndsLike setting s t x y)
    (then_ : ∀ b s' t', x setting s = (.ok b, s') → s'.unlogged = t'.unlogged →
      EndsLike setting s' t' (next b) (next' b)) :
    EndsLike setting s t (x >>= next) (y >>= next') := by
  revert first then_
  simp only [EndsLike, bind_apply]
  rcases x setting s with ⟨outcome, s'⟩
  rcases y setting t with ⟨outcome', t'⟩
  rintro ⟨rfl, same⟩ then_
  cases outcome with
  | error f => exact ⟨rfl, same⟩
  | ok b => exact then_ b s' t' rfl same

theorem bind_pure (h : EndsLike setting s t x y) (f : β → α) :
    EndsLike setting s t (x >>= fun b => Pure.pure (f b)) (y >>= fun b => Pure.pure (f b)) :=
  h.bind fun _ _ _ _ same => pure same

end EndsLike

namespace IgnoresLog

theorem endsLike (h : IgnoresLog x) (setting : Setting) (same : s.unlogged = t.unlogged) :
    EndsLike setting s t x x := by
  rw [EndsLike, ← s.unlogged_after_events, ← t.unlogged_after_events, h, h, same]
  simp

theorem pure (a : α) : IgnoresLog (Pure.pure a) :=
  fun _ _ _ => rfl

theorem fail (f : Failure) : IgnoresLog (Eval.fail f : Eval α) :=
  fun _ _ _ => rfl

theorem failWith (cause : Cause) : IgnoresLog (Eval.failWith cause : Eval α) :=
  fail _

theorem bind {x : Eval β} {next : β → Eval α} (first : IgnoresLog x)
    (then_ : ∀ b, IgnoresLog (next b)) : IgnoresLog (x >>= next) := by
  intro setting s older
  simp only [bind_apply, first setting s older]
  rcases x setting s with ⟨f | b, t⟩
  · rfl
  · exact then_ b setting t older

theorem ofState (blind : ∀ s older, next (s.after older) = next s) (h : ∀ s, IgnoresLog (next s)) :
    IgnoresLog (state >>= next) := by
  intro setting s older
  change next (s.after older) setting (s.after older) = _
  rw [blind]
  exact h s setting s older

theorem ofSetting (h : ∀ setting, IgnoresLog (next setting)) : IgnoresLog (Eval.setting >>= next) :=
  fun setting s older => h setting setting s older

theorem change (commutes : ∀ s older, f (s.after older) = (f s).after older) :
    IgnoresLog (Eval.change f) :=
  fun _ s older => congrArg (Prod.mk _) (commutes s older)

theorem emit (e : Event) : IgnoresLog (Eval.emit e) :=
  change fun s older => by simp [Evaluation.after]

theorem mapFailure (h : IgnoresLog x) : IgnoresLog (Eval.mapFailure f x) := by
  intro setting s older
  simp only [Eval.mapFailure, h setting s older]
  rcases x setting s with ⟨g | a, t⟩ <;> rfl

theorem between (h : IgnoresLog x)
    (enters : ∀ s older, enter (s.after older) = (enter s).after older)
    (leaves : ∀ s older, leave (s.after older) = (leave s).after older) :
    IgnoresLog (Eval.between enter leave x) := by
  intro setting s older
  simp only [Eval.between, enters, h setting (enter s) older, leaves]

theorem noteOpening (h : IgnoresLog x) (node : Import) (path : String) :
    IgnoresLog (Eval.noteOpening node path x) := by
  intro setting s older
  simp only [Eval.noteOpening, h setting s older]
  rfl

end IgnoresLog

/-! ## Whole evaluations -/

theorem changeFrame_ignoresLog (id : FrameId) (f : Frame → Frame) :
    IgnoresLog (changeFrame id f) :=
  .change fun _ _ => rfl

theorem changeImporter_ignoresLog (f : Importer → Importer) : IgnoresLog (changeImporter f) :=
  .change fun _ _ => rfl

theorem warn_ignoresLog (message : String) : IgnoresLog (warn message) := by
  refine .ofState (fun _ _ => rfl) fun s => .ofSetting fun setting => ?_
  split
  · exact .fail _
  · exact (IgnoresLog.emit _).bind fun _ => .change fun _ _ => rfl

theorem effectiveSelectors_ignoresLog (ancestors selectors : List Selector) (span : Span) :
    IgnoresLog (effectiveSelectors ancestors selectors span) := by
  refine .ofSetting fun setting => ?_
  dsimp only
  split
  · exact .fail _
  · split
    · exact .pure _
    · exact (IgnoresLog.emit _).bind fun _ => .pure _

namespace IgnoresLog

theorem composes : Composes fun _ x _ => IgnoresLog x where
  pure := pure
  bind := bind
  ofState blind _ h := ofState (fun s _ => (blind _).trans (blind s).symm) h
  ofSetting _ _ h := ofSetting h

theorem values : Composes.Values fun _ x _ => IgnoresLog x where
  toComposes := composes
  emit := emit
  warn := warn_ignoresLog
  keepIndex _ := change fun _ _ => rfl
  undefined _ := failWith _
  exhausted := failWith _
  locatedAt _ h := h.mapFailure
  inParens h := h.between (fun _ _ => rfl) fun _ _ => rfl
  definition v h := ofState (fun _ _ => rfl) fun s => by
    split
    · exact fail _
    · refine mapFailure (between (ofState (fun _ _ => rfl) fun _ => h.between ?_ ?_) ?_ ?_) <;>
        exact fun _ _ => rfl

theorem openings : Composes.Openings fun _ x _ => IgnoresLog x where
  toComposes := composes
  emit := emit
  fail := fail
  resolve _ := changeImporter_ignoresLog _
  mark _ := changeImporter_ignoresLog _
  load path := composes.loadFile emit (fun f _ => fail f) path (changeImporter_ignoresLog _)
    fun _ => changeImporter_ignoresLog _
  withinDepth path h := ofSetting fun _ => ofState (fun _ _ => rfl) fun _ => by
    split
    · exact failWith _
    · exact h

theorem imports (id : FrameId) : Composes.Imports (fun _ x _ => IgnoresLog x) id where
  toComposes := composes
  emit := emit
  exhausted := failWith _
  path := values.importPath fun _ => change fun _ _ => rfl
  opening i text := ((openings.openImport i text).noteOpening i text).mapFailure
  splice f _ := changeFrame_ignoresLog id f
  defer _ _ := changeImporter_ignoresLog _
  whileImporting h := h.between (fun _ _ => rfl) fun _ _ => rfl

theorem calls : Composes.Calls fun _ x _ => IgnoresLog x where
  toComposes := composes
  consult := values.consult
  addBlock _ _ _ _ _ _ := rfl
  emit := emit
  mismatch _ _ := failWith _
  missing _ := failWith _
  makeSite _ _ _ := rfl
  dereference := values.dereference
  evaluateArguments := values.conditions.evaluateArguments
  parameterFrame := composes.parameterFrame values.value (fun _ _ _ => rfl) fun id _ _ _ =>
    bind (fun _ _ _ => rfl) fun _ => changeFrame_ignoresLog id _
  defaultGroup := values.conditions.defaultGroup fun _ h => ofState (fun _ _ => rfl) fun _ =>
    h.between (fun _ _ => rfl) fun _ _ => rfl

theorem blocks : Composes.Blocks fun _ x _ => IgnoresLog x where
  toCalls := calls
  setSpan _ := change fun _ _ => rfl
  note _ _ _ := change fun _ _ => rfl
  beginBody _ := change fun _ _ => rfl
  locatedAt _ h := h.mapFailure
  insideOf _ h := h.mapFailure
  whileExpanding _ h := h.between (fun _ _ => rfl) fun _ _ => rfl
  withinExpansions _ _ h := ofSetting fun _ => by
    dsimp only
    split
    · exact failWith _
    · exact h
  value := values.value
  evaluatePrelude := values.evaluatePrelude
  exportTo := calls.exportTo fun id _ _ _ => changeFrame_ignoresLog id _
  expandImports id env := (imports id).expandImports (ofSetting fun _ => pure _)
    (fun _ h => ofState (fun _ _ => rfl) fun _ => h.between (fun _ _ => rfl) fun _ _ => rfl) env false
  effectiveSelectors := effectiveSelectors_ignoresLog

end IgnoresLog

theorem blockWithin_ignoresLog (n : Nat) (env : Environment) (ctx : Context) :
    IgnoresLog (blockWithin n env ctx) :=
  IgnoresLog.blocks.blockWithin (.failWith _) n env ctx

end Eval

end StyleResolution
