import StyleResolution.Proofs.Evaluation.Locality

/-! # The scoped state is restored

Parentheses, the answer of `default()`, the nesting of imports, the definitions being evaluated and
the callables being expanded are set for the time of an inner computation. Whatever is evaluated,
and however it ends, they are afterwards what they were before; and in the meantime no definition is
evaluated inside itself and no body beyond the limit. So a sheet carries the same counters after a
compilation as before, and can be compiled again.
-/

namespace StyleResolution

open Eval

/-- The scoped state is what it was, and whatever was begun was begun properly. -/
structure Restored (limit : Nat) (s s' : Evaluation) : Prop where
  scopedPart : s'.scopedPart = s.scopedPart
  history : ProperSince limit s.history s'.history

namespace Restored

variable {limit : Nat}

instance : IsPreorder Evaluation (Restored limit) where
  refl _ := ⟨rfl, .refl _⟩
  trans _ _ _ first second :=
    ⟨second.scopedPart.trans first.scopedPart, first.history.trans second.history⟩

theorem evaluating (restored : Restored limit s s') : s'.evaluating = s.evaluating :=
  congrArg Scoped.evaluating restored.scopedPart

theorem expanding (restored : Restored limit s s') : s'.expanding = s.expanding :=
  congrArg Scoped.expanding restored.scopedPart

end Restored

theorem Quiet.toRestored (quiet : Quiet s s') : Restored limit s s' :=
  ⟨quiet.restored, quiet.history limit⟩

theorem Splices.toRestored {limit : Nat} {id : FrameId} {s s' : Evaluation}
    (splices : Splices id s s') : Restored limit s s' :=
  ⟨splices.restored, splices.history limit⟩

theorem Local.toRestored {own : Frame → Frame → Prop} (local_ : Local limit o own s s') :
    Restored limit s s' :=
  ⟨local_.restored, local_.history⟩

/-- However the computation ends, it restores the scoped state. -/
abbrev Eval.Restores {α : Type} (setting : Setting) (x : Eval α) : Prop :=
  Eval.Keeps setting (Restored setting.options.maxMixinDepth) x

namespace Compiler

variable {setting : Setting}

open Eval (Keeps)

theorem openSheet_restored (sheet : Stylesheet) :
    Eval.Restores setting (openSheet sheet) :=
  .bind (fun s => ((registerSheet_loads sheet s).local none).toRestored) fun _ =>
    .bind (fun s => (addFrame_local _ s).toRestored) fun root =>
      .bind .ofSetting fun _ =>
        .bind (fun s => (expandImports_splices root _ true s).toRestored) fun _ =>
          .bind (fun s => (replayDeferred_splices root _ s).toRestored) fun _ =>
            .pure _

theorem resolveSheet_restored (sheet : Stylesheet) :
    Eval.Restores setting (resolveSheet sheet) :=
  .bind (openSheet_restored sheet) fun env => .bind .ofSetting fun _ =>
    .bind .ofSetting fun _ =>
      .bind (fun s => (blockWithin_local _ env _ s).toRestored) fun _ => .pure _

theorem compileFrom_counters (counters : Counters) (setting : Setting) (sheet : Stylesheet) :
    (compileFrom counters setting sheet).2 = counters := by
  have restored := @resolveSheet_restored setting sheet
    { evaluating := counters.evaluating, expanding := counters.expanding }
  have evaluating := restored.evaluating
  have expanding := restored.expanding
  simp only at evaluating expanding
  simp only [compileFrom, run, evaluating, expanding]

end Compiler

/-- Whatever is evaluated, and however it ends, the scoped state is restored, no definition was
    evaluated inside itself, and no body was evaluated with its callable beyond the limit. After a
    compilation, the rules of the sheet carry the counters that they carried before, so that
    compiling the sheet again has the same result. -/
theorem scoped_state_is_restored (setting : Setting) :
    (∀ env v, Eval.Restores setting (value env v)) ∧
      (∀ env v, Eval.Restores setting (dereference env v)) ∧
      (∀ env g, Eval.Restores setting (guardHolds env g)) ∧
      (∀ n env ctx nesting call,
        Eval.Restores setting (callMixin (blockWithin n) env ctx nesting call)) ∧
      (∀ n env ctx, Eval.Restores setting (blockWithin n env ctx)) ∧
      (∀ id env defer, Eval.Restores setting (expandImports id env defer)) ∧
      (∀ root width, Eval.Restores setting (replayDeferred root width)) ∧
      (∀ counters sheet, (Compiler.compileFrom counters setting sheet).2 = counters ∧
        Compiler.compileFrom (Compiler.compileFrom counters setting sheet).2 setting sheet =
          Compiler.compileFrom counters setting sheet) := by
  refine ⟨?_, ?_, ?_, ?_, ?_, ?_, ?_, ?_⟩
  · intro env v s
    exact (value_quiet env v s).toRestored
  · intro env v s
    exact (dereference_quiet env v s).toRestored
  · intro env g s
    exact (values_quiet.spine.guardHolds_self (value_quiet env) g s).toRestored
  · intro n env ctx nesting call s
    exact (callMixin_local (blockWithin_local n) env ctx nesting call s).toRestored
  · intro n env ctx s
    exact (blockWithin_local n env ctx s).toRestored
  · intro id env defer s
    exact (expandImports_splices id env defer s).toRestored
  · intro root width s
    exact (replayDeferred_splices root width s).toRestored
  · intro counters sheet
    have same := Compiler.compileFrom_counters counters setting sheet
    exact ⟨same, by rw [same]⟩

end StyleResolution
