import StyleResolution.Proofs.Import.Splicing
import StyleResolution.Proofs.Strictness.Following

/-! # Imports in strict and lenient runs

Import nesting is limited, so an expansion under a stricter setting may be stopped where the lenient
one goes on. Deferred imports are tried and put aside where they fail for an undefined variable.
A limit and a warning are no such failures: a replayed import that is stopped stops the whole run.
-/

namespace StyleResolution.Eval

variable {strict lenient : Setting}

/-! ## Opening files -/

section

variable (stricter : strict.Stricter lenient)

include stricter

theorem registerMain_follows (path : Path) :
    Follows strict lenient (registerMain path) (registerMain path) := by
  apply Follows.ofSetting
  rw [stricter.loader]
  cases lenient.loader.normalize path with
  | ok canonical => exact changeImporter_follows _
  | error message => exact emit_follows _

theorem openings_follows :
    Composes.Openings fun _ x y => Follows strict lenient x y where
  toComposes := composes_follows stricter
  emit := emit_follows
  fail := .fail
  resolve _ := changeImporter_follows _
  mark _ := changeImporter_follows _
  load path := (composes_follows stricter).loadFile emit_follows (fun f _ => .fail f) path
    (changeImporter_follows _) fun _ => changeImporter_follows _
  withinDepth _ h := .ofSetting (.ofState fun _ => h.checked stricter.importDepth id)

/-! ## Expansion -/

theorem imports_follows (id : FrameId) :
    Composes.Imports (fun _ x y => Follows strict lenient x y) id where
  toComposes := composes_follows stricter
  emit := emit_follows
  exhausted := .failWith _
  path := (values_follows stricter).importPath setSpan_follows
  opening i text :=
    (((openings_follows stricter).openImport i text).noteOpening i text).locatedAt i.span
  splice f _ := changeFrame_follows id f
  defer _ _ := changeImporter_follows _
  whileImporting h := h.between (fun _ => rfl) fun _ => rfl

theorem expandWithin_follows (id : FrameId) (env : Environment) (defer : Bool)
    (room : Setting.Room strict lenient levels levels') (position count : Nat) :
    Follows strict lenient (expandWithin id env defer levels position count)
      (expandWithin id env defer levels' position count) := by
  induction levels' generalizing levels position count with
  | zero =>
    obtain rfl : levels = 0 := Nat.le_zero.mp room.le
    exact .failWith _
  | succ m ih =>
    cases levels with
    | zero =>
      have lenientRun : Follows strict lenient _ _ :=
        (imports_follows stricter id).expandRange (ih (.refl m)) env defer position count
      exact lenientRun.exhausted room
    | succ n =>
      exact (imports_follows stricter id).expandRange (ih room.pred) env defer position count

theorem expandImports_follows (id : FrameId) (env : Environment) (defer : Bool) :
    Follows strict lenient (expandImports id env defer) (expandImports id env defer) := by
  refine .bind (frame_follows id) fun f => .ofSetting (atBaseDepth_follows _ ?_)
  exact .bind (expandWithin_follows stricter id env defer (stricter.importRoom.add 1) 0 f.size)
    fun _ => .pure ()

end

/-! ## Replay -/

theorem takeDeferred_follows : Follows strict lenient takeDeferred takeDeferred :=
  .ofRun fun _ => ⟨rfl, rfl⟩

theorem deferAll_follows (queue : List DeferredImport) :
    Follows strict lenient (deferAll queue) (deferAll queue) :=
  changeImporter_follows _

section

variable (stricter : strict.Stricter lenient) (root : FrameId)

include stricter root

theorem spliceDeferred_follows (d : DeferredImport) (site : Site) (i : Import) :
    Follows strict lenient (spliceDeferred root d site i) (spliceDeferred root d site i) := by
  refine .ofSetting (atBaseDepth_follows _ ?_)
  exact (imports_follows stricter root).spliceImport
    (expandWithin_follows stricter root d.scope true (stricter.importRoom.add 1))
    d.scope d.location site i

theorem replayPass_follows (pending : List DeferredImport) (pass : Pass) :
    Follows strict lenient (replayPass root pending pass) (replayPass root pending pass) := by
  fun_induction replayPass root pending pass with
  | case1 pass => exact .pure pass
  | case2 pass d rest expanded blocked gone =>
    refine .bind (frame_follows root) fun f => ?_
    split
    · refine .bind takeDeferred_follows fun earlier => ?_
      rw [tryDeferred_eq_attempt]
      apply Follows.attempt_bind (spliceDeferred_follows stricter root d _ _)
      · intro outcome
        split
        · apply Follows.bind takeDeferred_follows
          intro added
          exact .bind (deferAll_follows _) fun _ => expanded _
        · split
          · apply Follows.bind (emit_follows _)
            intro _
            exact .bind (deferAll_follows _) fun _ => blocked _
          · exact .fail _
      · intro f known
        simp only [known, Bool.false_eq_true, if_false]
    · exact .bind (emit_follows _) fun _ => gone

theorem replayOnce_follows :
    Follows strict lenient (replayOnce root) (replayOnce root) := by
  refine .bind takeDeferred_follows fun pending => ?_
  split
  · exact .pure true
  · apply Follows.bind (emit_follows _)
    intro _
    refine .bind (replayPass_follows stricter root _ _) fun pass => ?_
    split
    · exact .fail _
    · exact .bind (deferAll_follows _) fun _ => .pure false

end

section

variable {step : Eval Bool} (steps : Follows strict lenient step step)

include steps

omit steps in
theorem follows_chains : Repetition.Chains fun step => Follows strict lenient step step where
  none := .pure false
  next first later := .bind first fun last => by
    cases last with
    | true => exact .pure true
    | false => exact later

theorem repeatPowersFrom_follows (w start : Nat) (room : Setting.Room strict lenient n m) :
    Follows strict lenient
      (do if ← Repetition.repeatPowersFrom w step start n then pure () else failWith .exhausted)
      (do if ← Repetition.repeatPowersFrom w step start m then pure () else failWith .exhausted) := by
  have unrolled : ∀ start n,
      (do if ← Repetition.repeatPowersFrom w step start (n + 1) then pure ()
          else failWith .exhausted) =
        (do if ← Repetition.repeatPower w step start then pure ()
            else if ← Repetition.repeatPowersFrom w step (start + 1) n then pure ()
            else failWith .exhausted : Eval Unit) := by
    intro start n
    rw [Repetition.repeatPowersFrom, bind_assoc]
    refine congrArg _ (funext fun last => ?_)
    cases last <;> rfl
  induction m generalizing n start with
  | zero =>
    obtain rfl : n = 0 := Nat.le_zero.mp room.le
    exact .failWith _
  | succ m ih =>
    have further : ∀ {k}, Setting.Room strict lenient k m → ∀ last : Bool, Follows strict lenient
        (if last then pure () else do
          if ← Repetition.repeatPowersFrom w step (start + 1) k then pure ()
          else failWith .exhausted)
        (if last then pure () else do
          if ← Repetition.repeatPowersFrom w step (start + 1) m then pure ()
          else failWith .exhausted) := by
      intro k inner last
      cases last with
      | true => exact .pure ()
      | false => exact ih (start + 1) inner
    rw [unrolled start m]
    cases n with
    | zero =>
      exact (Follows.bind (follows_chains.repeatPower steps w start) (further (.refl m))).exhausted room
    | succ n =>
      rw [unrolled start n]
      exact .bind (follows_chains.repeatPower steps w start) (further room.pred)

end

theorem replayDeferred_follows (stricter : strict.Stricter lenient) (root : FrameId)
    (width : Nat) :
    Follows strict lenient (replayDeferred root width) (replayDeferred root width) :=
  .ofSetting
    (repeatPowersFrom_follows (replayOnce_follows stricter root) width 0 (stricter.importRoom.add 3))

end StyleResolution.Eval
