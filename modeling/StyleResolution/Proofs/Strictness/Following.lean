import StyleResolution.Proofs.Evaluation.Composition
import StyleResolution.Proofs.Evaluation.Ending

/-! # Strict and lenient runs

Of two settings that agree otherwise, one may be stricter than the other: its limits are lower, or
it takes warnings for errors. A run under the stricter setting does what the lenient run does, step
by step and with the same state, until it is stopped by a limit or by the first warning. `Follows`
says so of two computations. The lenient run never forgets a warning, so the first warning that it
ends with is the one that stopped the strict run.
-/

namespace StyleResolution

open Eval

/-- The numbers that bound a compilation. -/
def Options.limits (o : Options) : Nat × Nat × Nat :=
  (o.maxMixinDepth, o.maxImportDepth, o.maxSelectorExpansions)

/-- The settings agree, except that limits of the first are lower or it takes warnings for
    errors. -/
structure Setting.Stricter (strict lenient : Setting) : Prop where
  loader : strict.loader = lenient.loader
  functions : strict.functions = lenient.functions
  strictMath : strict.options.strictMath = lenient.options.strictMath
  includePaths : strict.options.includePaths = lenient.options.includePaths
  importOnce : strict.options.importOnce = lenient.options.importOnce
  warnings : lenient.options.warningsAsErrors → strict.options.warningsAsErrors
  mixinDepth : strict.options.maxMixinDepth ≤ lenient.options.maxMixinDepth
  importDepth : strict.options.maxImportDepth ≤ lenient.options.maxImportDepth
  selectors : strict.options.maxSelectorExpansions ≤ lenient.options.maxSelectorExpansions

/-- A bound of the strict run and the bound that the lenient run has in its place. -/
structure Setting.Room (strict lenient : Setting) (n m : Nat) : Prop where
  le : n ≤ m
  shared : strict.options.limits = lenient.options.limits → n = m

namespace Setting

variable {strict lenient : Setting}

theorem Room.refl (n : Nat) : Room strict lenient n n :=
  ⟨Nat.le_refl n, fun _ => rfl⟩

theorem Room.add (room : Room strict lenient n m) (k : Nat) : Room strict lenient (n + k) (m + k) :=
  ⟨Nat.add_le_add_right room.le k, fun same => congrArg (· + k) (room.shared same)⟩

theorem Room.pred (room : Room strict lenient (n + 1) (m + 1)) : Room strict lenient n m :=
  ⟨Nat.le_of_succ_le_succ room.le, fun same => Nat.succ.inj (room.shared same)⟩

section

variable (stricter : strict.Stricter lenient)

include stricter

theorem Stricter.bare : strict.bare = lenient.bare := by
  simp only [Setting.bare, stricter.loader, stricter.functions, stricter.strictMath,
    stricter.includePaths, stricter.importOnce]

theorem Stricter.mixinRoom :
    Room strict lenient strict.options.maxMixinDepth lenient.options.maxMixinDepth :=
  ⟨stricter.mixinDepth, fun same => congrArg Prod.fst same⟩

theorem Stricter.importRoom :
    Room strict lenient strict.options.maxImportDepth lenient.options.maxImportDepth :=
  ⟨stricter.importDepth, fun same => congrArg (·.2.1) same⟩

end

end Setting

/-- Whether a bound was exceeded that the settings do not share. -/
def Cause.Exceeds (strict lenient : Setting) : Cause → Prop
  | .mixinTooDeep _ _ => strict.options.maxMixinDepth ≠ lenient.options.maxMixinDepth
  | .importTooDeep _ _ => strict.options.maxImportDepth ≠ lenient.options.maxImportDepth
  | .selectorCombination (.tooMany _) =>
    strict.options.maxSelectorExpansions ≠ lenient.options.maxSelectorExpansions
  | .exhausted => strict.options.limits ≠ lenient.options.limits
  | _ => False

theorem Cause.Exceeds.limits {cause : Cause} (exceeds : cause.Exceeds strict lenient) :
    strict.options.limits ≠ lenient.options.limits := by
  unfold Exceeds at exceeds
  split at exceeds
  · exact fun same => exceeds (congrArg Prod.fst same)
  · exact fun same => exceeds (congrArg (·.2.1) same)
  · exact fun same => exceeds (congrArg (·.2.2) same)
  · exact exceeds
  · exact exceeds.elim

/-- Whether a failure is the one that a strict run is stopped by, where the lenient run has these
    warnings: a limit that the settings do not share, or the first warning. -/
def Failure.Stops (strict lenient : Setting) (f : Failure) (warnings : List Warning) : Prop :=
  f.cause.Exceeds strict lenient ∨
    (strict.options.warningsAsErrors ≠ lenient.options.warningsAsErrors ∧
      ∃ w, warnings.head? = some w ∧ f.cause = .warning w.message ∧ f.span = some w.span)

namespace Failure.Stops

variable {strict lenient : Setting} {f : Failure} {warnings : List Warning}

section

variable (h : f.Stops strict lenient warnings)

include h

theorem mono (grown : warnings <+: more) :
    f.Stops strict lenient more := by
  cases h with
  | inl limit => exact .inl limit
  | inr first =>
    obtain ⟨differ, w, head, cause, span⟩ := first
    obtain ⟨later, rfl⟩ := grown
    exact .inr ⟨differ, w, by rw [List.head?_append, head]; rfl, cause, span⟩

/-- Neither a limit nor a warning is an undefined variable, so no import waits for it. -/
theorem not_isUndefinedVariable :
    f.isUndefinedVariable = false := by
  unfold isUndefinedVariable
  cases h with
  | inl limit =>
    cases cause : f.cause <;> first | rfl | simp [cause, Cause.Exceeds] at limit
  | inr first =>
    obtain ⟨-, w, -, cause, -⟩ := first
    rw [cause]

theorem located (span : Span) :
    (f.located span).Stops strict lenient warnings := by
  cases h with
  | inl limit => exact .inl limit
  | inr first =>
    obtain ⟨differ, w, head, cause, at_⟩ := first
    exact .inr ⟨differ, w, head, cause, by simp [Failure.located, at_]⟩

theorem inside (frame : String) :
    (f.inside frame).Stops strict lenient warnings :=
  h

end

end Failure.Stops

/-- A strict run that takes warnings for errors has met none so far. -/
def Evaluation.Calm (strict : Setting) (s : Evaluation) : Prop :=
  strict.options.warningsAsErrors → s.warnings = #[]

namespace Eval

variable {α β : Type} {strict lenient : Setting}

/-- The first computation, under the strict setting, ends as the second one does under the lenient
    setting, or it is stopped. -/
structure Follows (strict lenient : Setting) (x y : Eval α) : Prop where
  /-- The lenient run keeps the warnings it had. -/
  grows : ∀ s, s.warnings.toList <+: (y lenient s).2.warnings.toList
  agrees : ∀ s, s.Calm strict →
    (x strict s = y lenient s ∧ (y lenient s).2.Calm strict) ∨
      ∃ f, (x strict s).1 = .error f ∧ f.Stops strict lenient (y lenient s).2.warnings.toList

namespace Follows

theorem ofRun {x y : Eval α}
    (h : ∀ s, x strict s = y lenient s ∧ (y lenient s).2.warnings = s.warnings) :
    Follows strict lenient x y where
  grows s := by simp [(h s).2]
  agrees s calm := .inl ⟨(h s).1, fun flag => by rw [(h s).2, calm flag]⟩

theorem pure (a : α) : Follows strict lenient (Pure.pure a : Eval α) (Pure.pure a) :=
  ofRun fun _ => ⟨rfl, rfl⟩

theorem fail (f : Failure) : Follows strict lenient (fail f : Eval α) (fail f) :=
  ofRun fun _ => ⟨rfl, rfl⟩

theorem failWith (cause : Cause) :
    Follows strict lenient (failWith cause : Eval α) (failWith cause) :=
  fail _

theorem change {f : Evaluation → Evaluation} (h : ∀ s, (f s).warnings = s.warnings) :
    Follows strict lenient (change f) (change f) :=
  ofRun fun s => ⟨rfl, h s⟩

theorem bind {x y : Eval β} {next next' : β → Eval α} (first : Follows strict lenient x y)
    (then_ : ∀ b, Follows strict lenient (next b) (next' b)) :
    Follows strict lenient (x >>= next) (y >>= next') := by
  -- The warnings of the first lenient step are still there after the second.
  have later : ∀ s, (y lenient s).2.warnings.toList <+:
      ((y >>= next') lenient s).2.warnings.toList := by
    intro s
    rw [bind_apply]
    rcases y lenient s with ⟨f | b, s'⟩
    · exact List.prefix_rfl
    · exact (then_ b).grows s'
  constructor
  · intro s
    exact (first.grows s).trans (later s)
  · intro s calm
    cases first.agrees s calm with
    | inl same =>
      obtain ⟨same, calm'⟩ := same
      simp only [bind_apply, same]
      rcases run : y lenient s with ⟨f | b, s'⟩
      · rw [run] at calm'
        exact .inl ⟨rfl, calm'⟩
      · rw [run] at calm'
        exact (then_ b).agrees s' calm'
    | inr stopped =>
      obtain ⟨f, failed, stops⟩ := stopped
      refine .inr ⟨f, ?_, stops.mono (later s)⟩
      rw [bind_apply]
      rcases run : x strict s with ⟨g | b, s'⟩ <;> rw [run] at failed <;> cases failed
      rfl

theorem ofState (h : ∀ s, Follows strict lenient (next s) (next' s)) :
    Follows strict lenient (state >>= next) (state >>= next') :=
  ⟨fun s => (h s).grows s, fun s => (h s).agrees s⟩

theorem ofSetting (h : Follows strict lenient (next strict) (next' lenient)) :
    Follows strict lenient (setting >>= next) (setting >>= next') :=
  ⟨h.grows, h.agrees⟩

theorem mapFailure (h : Follows strict lenient x y)
    (keeps : ∀ f warnings, f.Stops strict lenient warnings → (g f).Stops strict lenient warnings) :
    Follows strict lenient (mapFailure g x) (mapFailure g y) := by
  constructor
  · intro s
    rw [mapFailure_snd]
    exact h.grows s
  · intro s calm
    rw [mapFailure_snd]
    cases h.agrees s calm with
    | inl same =>
      refine .inl ⟨?_, same.2⟩
      unfold Eval.mapFailure
      rw [same.1]
    | inr stopped =>
      obtain ⟨f, failed, stops⟩ := stopped
      refine .inr ⟨g f, ?_, keeps f _ stops⟩
      unfold Eval.mapFailure
      rcases run : x strict s with ⟨e | a, s'⟩ <;> rw [run] at failed <;> cases failed
      rfl

theorem locatedAt (h : Follows strict lenient x y) (span : Span) :
    Follows strict lenient (locatedAt span x) (locatedAt span y) :=
  h.mapFailure fun _ _ stops => stops.located span

theorem insideOf (h : Follows strict lenient x y) (frame : Unit → String) :
    Follows strict lenient (insideOf frame x) (insideOf frame y) :=
  h.mapFailure fun _ _ stops => stops.inside _

theorem between (h : Follows strict lenient x y) (entered : ∀ s, (enter s).warnings = s.warnings)
    (left : ∀ s, (leave s).warnings = s.warnings) :
    Follows strict lenient (between enter leave x) (between enter leave y) := by
  constructor
  · intro s
    change _ <+: (leave (y lenient (enter s)).2).warnings.toList
    rw [left, ← entered s]
    exact h.grows (enter s)
  · intro s calm
    change _ ∨ ∃ f, (x strict (enter s)).1 = .error f ∧
      f.Stops strict lenient (leave (y lenient (enter s)).2).warnings.toList
    rw [left]
    cases h.agrees (enter s) fun flag => (entered s).trans (calm flag) with
    | inl same =>
      refine .inl ⟨?_, fun flag => (left _).trans (same.2 flag)⟩
      unfold Eval.between
      rw [same.1]
    | inr stopped => exact .inr stopped

theorem noteOpening (h : Follows strict lenient x y) (node : Import) (path : String) :
    Follows strict lenient (noteOpening node path x) (noteOpening node path y) := by
  constructor
  · exact h.grows
  · intro s calm
    cases h.agrees s calm with
    | inl same =>
      refine .inl ⟨?_, same.2⟩
      unfold Eval.noteOpening
      rw [same.1]
    | inr stopped => exact .inr stopped

theorem attempt_bind {x y : Eval β} {next next' : Except Failure β → Eval α}
    (first : Follows strict lenient x y)
    (then_ : ∀ outcome, Follows strict lenient (next outcome) (next' outcome))
    (refuses : ∀ f, f.isUndefinedVariable = false → next (.error f) = Eval.fail f) :
    Follows strict lenient (attempt x >>= next) (attempt y >>= next') := by
  constructor
  · intro s
    exact (first.grows s).trans ((then_ _).grows _)
  · intro s calm
    change (next (x strict s).1 strict (x strict s).2 = next' (y lenient s).1 lenient (y lenient s).2
      ∧ _) ∨ ∃ f, (next (x strict s).1 strict (x strict s).2).1 = .error f ∧ _
    cases first.agrees s calm with
    | inl same =>
      rw [same.1]
      exact (then_ _).agrees _ same.2
    | inr stopped =>
      obtain ⟨f, failed, stops⟩ := stopped
      refine .inr ⟨f, ?_, stops.mono ((then_ _).grows _)⟩
      rw [failed, refuses f stops.not_isUndefinedVariable]
      rfl

theorem checked {x y : Eval α} {tooMuch : Nat → Cause} (h : Follows strict lenient x y)
    (le : limit ≤ limit') (exceeds : limit ≠ limit' → (tooMuch limit).Exceeds strict lenient) :
    Follows strict lenient
      (if limit < count then Eval.failWith (tooMuch limit) else x)
      (if limit' < count then Eval.failWith (tooMuch limit') else y) := by
  by_cases same : limit = limit'
  · rw [same]
    split
    · exact failWith _
    · exact h
  · by_cases exceeded : limit < count
    · rw [if_pos exceeded]
      constructor
      · intro s
        split
        · exact List.prefix_rfl
        · exact h.grows s
      · intro s _
        exact .inr ⟨_, rfl, .inl (exceeds same)⟩
    · have under : ¬ limit' < count := fun less => exceeded (Nat.lt_of_le_of_lt le less)
      rw [if_neg exceeded, if_neg under]
      exact h

/-- A bound on steps that has run out in the strict run alone. -/
theorem exhausted (h : Follows strict lenient x y) (room : Setting.Room strict lenient 0 (m + 1)) :
    Follows strict lenient (Eval.failWith .exhausted) y := by
  refine ⟨h.grows, fun _ _ => .inr ⟨_, rfl, .inl fun same => ?_⟩⟩
  have := room.shared same
  omega

end Follows

/-! ## Single steps -/

theorem emit_follows (e : Event) : Follows strict lenient (emit e) (emit e) :=
  .change fun _ => rfl

theorem setSpan_follows (span : Span) : Follows strict lenient (setSpan span) (setSpan span) :=
  .change fun _ => rfl

theorem frame_follows (id : FrameId) : Follows strict lenient (frame id) (frame id) :=
  .ofRun fun _ => ⟨rfl, rfl⟩

theorem changeFrame_follows (id : FrameId) (f : Frame → Frame) :
    Follows strict lenient (changeFrame id f) (changeFrame id f) :=
  .change fun _ => rfl

theorem changeImporter_follows (f : Importer → Importer) :
    Follows strict lenient (changeImporter f) (changeImporter f) :=
  .change fun _ => rfl

theorem addFrame_follows (f : Frame) : Follows strict lenient (addFrame f) (addFrame f) :=
  .ofRun fun _ => ⟨rfl, rfl⟩

theorem makeSite_follows : Follows strict lenient makeSite makeSite :=
  .ofRun fun _ => ⟨rfl, rfl⟩

theorem atBaseDepth_follows (depth : Nat) (h : Follows strict lenient x y) :
    Follows strict lenient (atBaseDepth depth x) (atBaseDepth depth y) :=
  .ofState fun _ => h.between (fun _ => rfl) fun _ => rfl

theorem warn_follows (stricter : strict.Stricter lenient) (message : String) :
    Follows strict lenient (warn message) (warn message) := by
  refine .ofState fun s => .ofSetting ?_
  by_cases errors : lenient.options.warningsAsErrors = true
  · rw [if_pos errors, if_pos (stricter.warnings errors)]
    exact .fail _
  · rw [if_neg errors]
    constructor
    · intro t
      change _ <+: (t.warnings.push _).toList
      rw [Array.toList_push]
      exact List.prefix_append _ _
    · intro t calm
      by_cases flag : strict.options.warningsAsErrors = true
      · -- The strict run has no warning so far: this one is the first, and it stops the run.
        refine .inr ⟨{ cause := .warning message, span := some s.span }, by rw [if_pos flag]; rfl, ?_⟩
        refine .inr ⟨fun same => errors (same ▸ flag), ⟨message, s.span⟩, ?_, rfl, rfl⟩
        change (t.warnings.push _).toList.head? = _
        rw [calm flag]
        rfl
      · rw [if_neg flag]
        exact .inl ⟨rfl, fun set => absurd set flag⟩

/-! ## Values -/

theorem composes_follows (stricter : strict.Stricter lenient) :
    Composes fun _ x y => Follows strict lenient x y where
  pure := .pure
  bind := .bind
  ofState _ _ h := .ofState h
  ofSetting {_ f _} blind _ h := .ofSetting (by
    have same : f strict = f lenient := by rw [blind strict, stricter.bare, ← blind lenient]
    rw [same]
    exact h lenient)

theorem values_follows (stricter : strict.Stricter lenient) :
    Composes.Values fun _ x y => Follows strict lenient x y where
  toComposes := composes_follows stricter
  emit := emit_follows
  warn := warn_follows stricter
  keepIndex _ := .change fun _ => rfl
  undefined _ := .failWith _
  exhausted := .failWith _
  locatedAt span h := h.locatedAt span
  inParens h := h.between (fun _ => rfl) fun _ => rfl
  definition v h := .ofState fun s => by
    split
    · exact .fail _
    · refine .locatedAt (.between (.ofState fun _ => h.between ?_ ?_) ?_ ?_) _ <;>
        exact fun _ => rfl

end Eval

end StyleResolution
