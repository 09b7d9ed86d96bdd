import StyleResolution.Proofs.Evaluation.Composition
import StyleResolution.Proofs.Evaluation.Ending
import StyleResolution.Proofs.Scope.Store

/-! # What evaluating a value leaves alone

Evaluating a value looks names up, warns and logs. It may keep the indexes of the frames it
consults, but the rules in scope, the importer and the scoped part of the state are afterwards what
they were before, and this also holds where the evaluation fails. `Quiet` is this relation between
the states before and after.
-/

namespace StyleResolution

/-- The part of a state that is changed for the time of an inner computation only. -/
structure Scoped where
  parenDepth : Nat
  defaultAnswer : Option Bool
  evaluating : List Site
  expanding : List Site
  baseDepth : Nat
  openImports : Nat
  deriving Repr, DecidableEq

def Evaluation.scopedPart (s : Evaluation) : Scoped :=
  ⟨s.parenDepth, s.defaultAnswer, s.evaluating, s.expanding, s.importer.baseDepth,
    s.importer.openImports⟩

/-- A definition is not begun while it is being evaluated already, and a body not while its callable
    is being expanded more than `limit` times. -/
def Beginning.Proper (limit : Nat) : Beginning → Prop
  | .definition site evaluating => evaluating.count site = 1
  | .body site expanding => expanding.count site ≤ limit

/-- Whatever was begun between two histories was begun properly. -/
def ProperSince (limit : Nat) (before after : List Beginning) : Prop :=
  ∃ new, after = new ++ before ∧ ∀ b ∈ new, b.Proper limit

namespace ProperSince

variable {limit : Nat}

theorem refl (before : List Beginning) : ProperSince limit before before :=
  ⟨[], rfl, nofun⟩

theorem cons {b : Beginning} (proper : b.Proper limit) (before : List Beginning) :
    ProperSince limit before (b :: before) :=
  ⟨[b], rfl, by simpa using proper⟩

theorem trans (first : ProperSince limit before between) (second : ProperSince limit between after) :
    ProperSince limit before after := by
  obtain ⟨new, rfl, proper⟩ := first
  obtain ⟨newer, rfl, properToo⟩ := second
  refine ⟨newer ++ new, by simp, fun b member => ?_⟩
  rcases List.mem_append.mp member with late | early
  · exact properToo b late
  · exact proper b early

end ProperSince

/-- The second state comes from the first one by warnings, events and kept indexes. -/
structure Quiet (s s' : Evaluation) : Prop where
  size : s'.frames.size = s.frames.size
  frame : ∀ id, (s.frames.get id).Indexed (s'.frames.get id)
  importer : s'.importer = s.importer
  parenDepth : s'.parenDepth = s.parenDepth
  defaultAnswer : s'.defaultAnswer = s.defaultAnswer
  evaluating : s'.evaluating = s.evaluating
  expanding : s'.expanding = s.expanding
  span : s'.span = s.span
  made : s'.made = s.made
  history : ∀ limit, ProperSince limit s.history s'.history
  trace : s'.trace = s.trace

namespace Quiet

theorem refl (s : Evaluation) : Quiet s s :=
  ⟨rfl, fun _ => .refl _, rfl, rfl, rfl, rfl, rfl, rfl, rfl, fun _ => .refl _, rfl⟩

theorem trans (first : Quiet s t) (second : Quiet t u) : Quiet s u where
  size := second.size.trans first.size
  frame id := (first.frame id).trans (second.frame id)
  importer := second.importer.trans first.importer
  parenDepth := second.parenDepth.trans first.parenDepth
  defaultAnswer := second.defaultAnswer.trans first.defaultAnswer
  evaluating := second.evaluating.trans first.evaluating
  expanding := second.expanding.trans first.expanding
  span := second.span.trans first.span
  made := second.made.trans first.made
  history limit := (first.history limit).trans (second.history limit)
  trace := second.trace.trans first.trace

instance : IsPreorder Evaluation Quiet where
  refl := refl
  trans _ _ _ := trans

theorem entries (quiet : Quiet s s') (id : FrameId) :
    (s'.frames.get id).entries = (s.frames.get id).entries :=
  (quiet.frame id).entries

theorem restored (quiet : Quiet s s') : s'.scopedPart = s.scopedPart := by
  simp only [Evaluation.scopedPart, quiet.importer, quiet.parenDepth, quiet.defaultAnswer,
    quiet.evaluating, quiet.expanding]

end Quiet

namespace Eval

variable {α : Type} {setting : Setting}

/-! ## Single steps -/

theorem emit_quiet (e : Event) : Keeps setting Quiet (emit e) :=
  .change fun _ => { Quiet.refl _ with }

theorem warn_quiet (message : String) : Keeps setting Quiet (warn message) := by
  unfold warn
  refine .bind .ofState fun s => .bind .ofSetting fun setting => ?_
  split
  · exact .fail _
  · exact .bind (emit_quiet _) fun _ => .change fun _ => { Quiet.refl _ with }

theorem frame_quiet (id : FrameId) : Keeps setting Quiet (frame id) :=
  .bind .ofState fun _ => .pure _

theorem addFrame_apply (f : Frame) (setting : Setting) (s : Evaluation) :
    addFrame f setting s = (.ok s.frames.size, { s with frames := (s.frames.add f).2 }) := rfl

theorem keepIndex_quiet (id : FrameId) :
    Keeps setting Quiet (change fun s => { s with frames := s.frames.keepIndex id }) :=
  .change fun s =>
    { Quiet.refl s with size := Frames.size_keepIndex _ _, frame := s.frames.keepIndex_indexed id }

/-! ## Scoped changes -/

theorem inParens_quiet (h : Keeps setting Quiet x) : Keeps setting Quiet (inParens x) :=
  h.between fun _ _ quiet => { quiet with parenDepth := by simp [quiet.parenDepth] }

theorem outsideParens_quiet (h : Keeps setting Quiet x) :
    Keeps setting Quiet (outsideParens x) := by
  intro s
  exact { h { s with parenDepth := 0 } with parenDepth := rfl }

theorem answeringDefault_quiet (answer : Bool) (h : Keeps setting Quiet x) :
    Keeps setting Quiet (answeringDefault answer x) := by
  intro s
  exact { h { s with defaultAnswer := some answer } with defaultAnswer := rfl }

theorem whileEvaluating_quiet (h : Keeps setting Quiet x) (idle : site ∉ s.evaluating) :
    Quiet s (whileEvaluating site x setting s).2 := by
  have inner := h { s with
    evaluating := site :: s.evaluating
    history := .definition site (site :: s.evaluating) :: s.history }
  refine { inner with evaluating := ?_, history := fun limit => ?_ }
  · exact congrArg List.tail inner.evaluating
  · have proper : (Beginning.definition site (site :: s.evaluating)).Proper limit := by
      simp [Beginning.Proper, List.count_eq_zero_of_not_mem idle]
    exact (ProperSince.cons proper _).trans (inner.history limit)

/-! ## Values and guards -/

theorem Keeps.composes [IsPreorder Evaluation R] : Composes fun _ x _ => Keeps setting R x where
  pure := .pure
  bind := .bind
  ofState _ _ h := .bind .ofState h
  ofSetting _ _ h := .bind .ofSetting h

/-- Evaluating values and guards leaves rules, importer and scoped state as they were. -/
theorem values_quiet : Composes.Values fun _ x _ => Keeps setting Quiet x where
  toComposes := Keeps.composes
  emit := emit_quiet
  warn := warn_quiet
  keepIndex := keepIndex_quiet
  undefined _ := .failWith _
  exhausted := .failWith _
  locatedAt span h := h.locatedAt span
  inParens := inParens_quiet
  definition v h := Keeps.withState fun s => by
    split
    · exact Quiet.refl s
    · rename_i idle
      rw [locatedAt, mapFailure_snd]
      exact whileEvaluating_quiet (outsideParens_quiet h) (by simpa using idle)

theorem consult_quiet (id : FrameId) : Keeps setting Quiet (consult id) :=
  values_quiet.consult id

theorem dereference_quiet (env : Environment) (v : Variable) : Keeps setting Quiet (dereference env v) :=
  values_quiet.dereference env v

theorem variableValue_quiet (env : Environment) (name : String) :
    Keeps setting Quiet (variableValue env name) :=
  .bind (values_quiet.lookup env name) fun _ => dereference_quiet env _

theorem value_quiet (env : Environment) (v : Value) : Keeps setting Quiet (value env v) :=
  values_quiet.value env v

theorem defaultGroup_quiet (callable : Callable) (scope : Environment) :
    Keeps setting Quiet (defaultGroup callable scope) :=
  values_quiet.conditions.defaultGroup answeringDefault_quiet callable scope

theorem chosenGroup_quiet (matched : List MatchedCandidate) (call : MixinCall) :
    Keeps setting Quiet (chosenGroup matched call) :=
  Keeps.composes.chosenGroup (fun _ _ => Keeps.failWith _) matched call

end Eval

end StyleResolution
