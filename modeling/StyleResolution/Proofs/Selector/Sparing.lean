import StyleResolution.Proofs.Evaluation.Resolved

/-! # Failures that selectors have no part in

Selectors are combined where a nested ruleset is evaluated, and nowhere else. So what is done between
blocks, from expanding imports to matching the candidates of a call, fails for other causes.
-/

namespace StyleResolution

def Cause.SparesSelectors : Cause → Prop
  | .selectorCombination _ => False
  | _ => True

namespace Eval

variable {α β : Type}

/-- The computation never fails because selectors cannot be combined. -/
abbrev Spares (x : Eval α) : Prop :=
  FailsOnly Cause.SparesSelectors x

/-! ## Values -/

theorem sparesSelectors_of_blamesValue (cause : Cause) (blames : BlamesValue cause) :
    cause.SparesSelectors := by
  rcases blames with ofValue | rfl
  · cases cause <;> first | exact ofValue.elim | trivial
  · trivial

theorem values_spares : Composes.Values fun _ x _ => Spares x :=
  FailsOnly.values sparesSelectors_of_blamesValue

theorem addFrame_spares (f : Frame) : Spares (addFrame f) := by
  rintro setting s f s' ⟨⟩

theorem makeSite_spares : Spares makeSite := by
  rintro setting s f s' ⟨⟩

/-! ## Imports -/

theorem imports_spares (id : FrameId) : Composes.Imports (fun _ x _ => Spares x) id where
  toComposes := FailsOnly.composes
  emit := .emit
  exhausted := .failWith trivial
  path := values_spares.importPath fun _ => .change _
  opening i text := by
    have opens : Spares (openImport i text) := (openImport_failsOnly i text).mono fun cause opening => by
      cases cause <;> first | exact opening.elim | trivial
    exact (opens.noteOpening i text).locatedAt _
  splice _ _ := .change _
  defer _ _ := FailsOnly.change _
  whileImporting h := h.between

theorem importLevels_spares : Spares importLevels :=
  FailsOnly.ofSetting.bind fun _ => .pure _

theorem expandImports_spares (id : FrameId) (env : Environment) (defer : Bool) :
    Spares (expandImports id env defer) :=
  (imports_spares id).expandImports importLevels_spares
    (fun _ h => FailsOnly.ofState.bind fun _ => h.between) env defer

theorem enterBlock_spares (env : Environment) (site : Site) (rules : List Rule) (nesting : Nat) :
    Spares (enterBlock env site rules nesting) :=
  (addFrame_spares _).bind fun id => (expandImports_spares id _ false).bind fun _ => .pure _

theorem spliceDeferred_spares (root : FrameId) (d : DeferredImport) (site : Site) (i : Import) :
    Spares (spliceDeferred root d site i) := by
  apply importLevels_spares.bind
  intro levels
  let expandAt := expandWithin root d.scope true levels
  have splices : Spares (spliceImport expandAt root d.scope d.location site i) :=
    @Composes.Imports.spliceImport _ root (imports_spares root) expandAt expandAt
      ((imports_spares root).expandWithin d.scope true levels) d.scope d.location site i
  exact FailsOnly.ofState.bind fun _ => splices.between

/-- The failure that a pass remembers is the failure of one of its imports. -/
theorem replays_spares (setting : Setting) (root : FrameId) :
    Replays setting root (fun first _ => ∀ f, first = some f → f.cause.SparesSelectors)
      (fun f _ => f.cause.SparesSelectors) where
  requeue _ _ earlier := earlier
  splice _ earlier := by
    refine ((spliceDeferred_spares root _ _ _).ends setting _).mono (fun _ _ _ => earlier) ?_
    intro f t spares
    split
    · intro g first
      rcases Option.or_eq_some_iff.mp first with known | ⟨-, own⟩
      · exact earlier g known
      · exact Option.some.inj own ▸ spares
    · exact spares
  forget _ := by simp
  stuck holds := holds _ rfl
  exhausted _ := trivial

theorem replayDeferred_spares (root : FrameId) (width : Nat) : Spares (replayDeferred root width) :=
  .of_ends fun setting _ => ((replays_spares setting root).replayDeferred (by simp) width).imp
    fun _ _ _ => trivial

theorem openSheet_spares (sheet : Stylesheet) : Spares (Compiler.openSheet sheet) := by
  have registers : Spares (Compiler.registerSheet sheet) := by
    unfold Compiler.registerSheet registerMain
    split
    · refine FailsOnly.ofSetting.bind fun _ => ?_
      split
      · exact .change _
      · exact .emit _
    · exact .pure _
  exact registers.bind fun _ => (addFrame_spares _).bind fun root => FailsOnly.ofSetting.bind fun _ =>
    (expandImports_spares root _ true).bind fun _ => (replayDeferred_spares root _).bind fun _ =>
      .pure _

/-! ## Calls -/

theorem calls_spares : Composes.Calls fun _ x _ => Spares x where
  toComposes := FailsOnly.composes
  consult := values_spares.consult
  addBlock _ _ _ := addFrame_spares _
  emit := .emit
  mismatch _ _ := .failWith trivial
  missing _ := .failWith trivial
  makeSite := makeSite_spares
  dereference := values_spares.dereference
  evaluateArguments := values_spares.conditions.evaluateArguments
  parameterFrame := FailsOnly.composes.parameterFrame values_spares.value (addFrame_spares _)
    fun _ _ _ _ => makeSite_spares.bind fun _ => .change _
  defaultGroup := values_spares.conditions.defaultGroup fun _ h => FailsOnly.ofState.bind fun _ => h.between

theorem exportTo_spares (caller : Option FrameId) (bodyEnv : Environment) (params body : FrameId) :
    Spares (exportTo caller bodyEnv params body) :=
  calls_spares.exportTo (fun _ _ _ _ => .change _) caller bodyEnv params body

end Eval

end StyleResolution
