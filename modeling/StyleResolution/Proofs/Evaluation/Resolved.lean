import StyleResolution.Proofs.Normal.Settled

/-! # Values without variables

The path of an import that refers to no variable leads to the same file in every scope. Any other value
can fail for a few causes only, and none of them has to do with imports, mixins or selectors.
-/

namespace StyleResolution

namespace Eval

variable {setting : Setting}

theorem importPath_settles (env : Environment) (resolved : i.isInterpolated = false) :
    ComesTo setting (importPath env i)
      (setting.settle i.path, (setting.settle i.path).reference) where
  ends s := by
    refine .change (.seq (.mapFailure ((valueWith_settles _ _ resolved).ends _)) ?_)
    intro path t settles
    cases path <;> exact .pure ⟨fun idle => settles.1 idle ▸ rfl, settles.2⟩

/-! ## Why values cannot be evaluated -/

def OfValue : Cause → Prop
  | .undefinedVariable _ | .circularReference _ | .warning _ => True
  | _ => False

/-- The failure is that of a value, unless the evaluation was exhausted. -/
def BlamesValue (cause : Cause) : Prop :=
  OfValue cause ∨ cause = .exhausted

theorem FailsOnly.values {P : Cause → Prop} (blames : ∀ cause, BlamesValue cause → P cause) :
    Composes.Values fun _ x _ => FailsOnly P x where
  toComposes := composes
  emit := emit
  warn message := by
    refine bind .ofState fun s => bind .ofSetting fun setting => ?_
    split
    · exact .fail (blames _ (.inl trivial))
    · exact .bind (.emit _) fun _ => .change _
  keepIndex _ := change _
  undefined _ := failWith (blames _ (.inl trivial))
  exhausted := failWith (blames _ (.inr rfl))
  locatedAt span h := h.locatedAt span
  inParens h := h.between
  definition v h := bind .ofState fun s => by
    split
    · exact .fail (blames _ (.inl trivial))
    · exact (FailsOnly.between (.bind .ofState fun _ => h.between)).locatedAt _

theorem dereference_failsOnly (env : Environment) (v : Variable) :
    FailsOnly BlamesValue (dereference env v) :=
  (FailsOnly.values fun _ h => h).dereference env v

theorem value_failsOnly (env : Environment) (v : Value) : FailsOnly BlamesValue (value env v) :=
  (FailsOnly.values fun _ h => h).value env v

theorem dereference_resolved (env : Environment)
    (resolved : v.definition.value.isUnresolved = false) (free : s.evaluating = []) :
    Ends setting s (dereference env v) (fun _ _ => True) (fun _ _ => False) := by
  have inner : ∀ fetch, FailsOnly (fun _ => False) (locatedAt v.definition.span
      (whileEvaluating v.site (outsideParens (valueWith fetch v.definition.value)))) := by
    intro fetch
    have evaluated := valueWith_resolved fetch v.definition.value resolved
    exact (FailsOnly.between (.bind .ofState fun _ => evaluated.between)).locatedAt _
  apply Ends.ofState
  apply Ends.ofState
  rw [if_neg (by simp [free])]
  exact (inner _).ends setting s

end Eval

end StyleResolution
