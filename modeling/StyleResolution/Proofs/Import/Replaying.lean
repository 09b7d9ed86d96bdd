import StyleResolution.Import.Replay
import StyleResolution.Proofs.Evaluation.Ending

/-! # Invariants of replaying

Replaying goes through the queue in passes, and a pass tries one import after the other. What holds
all along therefore follows from what holds when one import is tried. The failure that a pass
remembers is part of the invariant: it is what replaying fails with in the end.
-/

namespace StyleResolution.Eval

variable {setting : Setting} {root : FrameId} {s : Evaluation}

/-- The import that is tried, failing where it fails. -/
def spliceDeferred (root : FrameId) (d : DeferredImport) (site : Site) (i : Import) : Eval Nat := do
  let levels ← importLevels
  atBaseDepth d.depth
    (spliceImport (expandWithin root d.scope true levels) root d.scope d.location site i)

theorem tryDeferred_eq_attempt (root : FrameId) (d : DeferredImport) (site : Site) (i : Import) :
    tryDeferred root d site i = attempt (spliceDeferred root d site i) :=
  rfl

theorem replayDeferred_of_empty (empty : s.importer.deferred = []) (root : FrameId) (width : Nat) :
    replayDeferred root width setting s = (.ok (), s) := by
  have taken : takeDeferred setting s = (.ok [], s) := by
    unfold takeDeferred
    rw [← empty]
  have once : replayOnce root setting s = (.ok true, s) := by
    unfold replayOnce
    rw [bind_apply, taken]
    rfl
  simp only [replayDeferred, importLevels, Repetition.repeatPowers, Repetition.repeatPowersFrom,
    Repetition.repeatPower, bind_apply, Eval.setting, pure_apply, once, if_true]

/-- `I` holds of the state and of the failure that is remembered whenever an import has been tried,
    and whatever replaying fails with is as `failed` says. -/
structure Replays (setting : Setting) (root : FrameId) (I : Option Failure → Evaluation → Prop)
    (failed : Failure → Evaluation → Prop) : Prop where
  requeue : ∀ {first s} events deferred, I first s →
    I first { s with events, importer := { s.importer with deferred } }
  splice : ∀ {first s} {d : DeferredImport} {i site nesting},
    (s.frames.get root).entryAt d.location = some ⟨⟨.fileImport i, site⟩, nesting⟩ → I first s →
    Ends setting s (spliceDeferred root d site i) (fun _ t => I first t) fun f t =>
      if f.isUndefinedVariable then I (first.or (some f)) t else failed f t
  forget : ∀ {first s}, I first s → I none s
  stuck : ∀ {f s}, I (some f) s → failed f s
  exhausted : ∀ {s}, I none s → failed { cause := .exhausted } s

namespace Replays

variable {I : Option Failure → Evaluation → Prop} {failed : Failure → Evaluation → Prop}
  (replays : Replays setting root I failed)

include replays

theorem tryDeferred
    (found : (s.frames.get root).entryAt d.location = some ⟨⟨.fileImport i, site⟩, nesting⟩)
    (holds : I first s) :
    Ends setting s (Eval.tryDeferred root d site i)
      (fun outcome t => match outcome with
        | .ok _ => I first t
        | .error f => if f.isUndefinedVariable then I (first.or (some f)) t else failed f t)
      (fun _ _ => False) := by
  rw [tryDeferred_eq_attempt]
  exact .attempt (replays.splice found holds)

theorem replayPass (pending : List DeferredImport) (pass : Pass) (holds : I pass.firstFailure s) :
    Ends setting s (Eval.replayPass root pending pass) (fun pass' t => I pass'.firstFailure t)
      failed := by
  fun_induction Eval.replayPass root pending pass generalizing s with
  | case1 pass => exact .pure holds
  | case2 pass d rest expanded blocked gone =>
    refine .ofState ?_
    split
    · rename_i i site nesting found
      have tried := replays.tryDeferred (s := { s with
        importer := { s.importer with deferred := [] } }) found (replays.requeue _ _ holds)
      refine .bind_of_ok rfl (.bind tried (fun outcome t holds => ?_) fun _ _ never => never.elim)
      cases outcome with
      | ok inserted =>
        have emptied := replays.requeue t.events [] holds
        exact .bind_of_ok rfl (.change (expanded _ (replays.requeue _ _ emptied)))
      | error f =>
        dsimp only at holds ⊢
        split
        · rename_i undefined
          rw [if_pos undefined] at holds
          refine .change (.change (blocked f (replays.requeue _ _ ?_)))
          exact replays.requeue _ t.importer.deferred holds
        · rename_i defined
          rw [if_neg defined] at holds
          exact .fail holds
    · exact .change (gone (replays.requeue _ _ holds))

theorem replayOnce (holds : I none s) :
    Ends setting s (Eval.replayOnce root) (fun _ t => I none t) failed := by
  refine .bind_of_ok rfl ?_
  split
  · exact .pure (replays.requeue _ _ holds)
  · refine .change (.seq (replays.replayPass _ {} ?_) fun pass t holds => ?_)
    · exact replays.requeue _ _ (replays.requeue s.events [] holds)
    split
    · rename_i stuck
      rw [stuck] at holds
      exact .fail (replays.stuck holds)
    · exact .change (.pure (replays.forget (replays.requeue _ _ holds)))

theorem replayDeferred (holds : I none s) (width : Nat) :
    Ends setting s (Eval.replayDeferred root width) (fun _ t => I none t) failed := by
  have chains : Repetition.Chains fun x : Eval Bool =>
      ∀ s, I none s → Ends setting s x (fun _ t => I none t) failed :=
    { none := fun _ holds => .pure holds
      next := fun first later s holds => .seq (first s holds) fun last t holds => by
        cases last with
        | true => exact .pure holds
        | false => exact later t holds }
  have passes := chains.repeatPowersFrom (fun _ => replays.replayOnce) width 0
  refine .ofSetting (.seq (passes _ s holds) fun last t holds => ?_)
  cases last with
  | true => exact .pure holds
  | false => exact .failWith (replays.exhausted holds)

end Replays

end StyleResolution.Eval
