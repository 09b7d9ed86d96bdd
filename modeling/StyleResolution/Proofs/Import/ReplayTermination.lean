import StyleResolution.Proofs.Import.Termination

/-! # Replaying deferred imports comes to an end

A pass over the queue either makes it lighter, or fails because every import in it is blocked. The
queue of a root is never heavier than the number of passes that `replayDeferred` allows for.
-/

namespace StyleResolution

namespace Eval

variable {setting : Setting} {sheet : Stylesheet} {root : FrameId} {allowed : Entry → Prop}
  {s : Evaluation} {width : Nat}

theorem takeDeferred_ends : Ends setting s takeDeferred
    (fun queue t => queue = s.importer.deferred ∧
      t = { s with importer := { s.importer with deferred := [] } }) (fun _ _ => False) :=
  ⟨rfl, rfl⟩

/-- What the imports still to be tried, those found blocked and those queued weigh together. -/
def passWeight (setting : Setting) (width : Nat) (pending : List DeferredImport) (pass : Pass)
    (s : Evaluation) : Nat :=
  queueWeight width setting.options.maxImportDepth pending +
    queueWeight width setting.options.maxImportDepth pass.blocked + weightOf setting width s

section Replay

variable (admits : Admits setting sheet 0 allowed)
  (wide : Compiler.ruleBound setting.loader sheet < width)

include admits wide

/-- A deferred import that is expanded makes the queue lighter; one that is blocked changes
    nothing. -/
theorem tryDeferred_within (hosts : Hosts setting sheet root 0 allowed s) (d : DeferredImport)
    (site : Site) (i : Import) :
    Ends setting s (tryDeferred root d site i)
      (fun outcome s' => match outcome with
        | .ok _ => Hosts setting sheet root 0 allowed s' ∧ weightOf setting width s' <
            weightOf setting width s + d.weight width setting.options.maxImportDepth
        | .error f => f.cause ≠ .exhausted ∧ (f.isUndefinedVariable = true →
            Hosts setting sheet root 0 allowed s' ∧
              s'.importer.deferred = s.importer.deferred))
      (fun _ _ => False) := by
  let start : Evaluation := { s with importer := { s.importer with baseDepth := d.depth } }
  have startHosts : Hosts setting sheet root 0 allowed start := hosts.congr rfl rfl (Nat.zero_le _)
  have spliced := spliceImport_within admits wide
    (expandWithin_splices root d.scope true (setting.options.maxImportDepth + 1))
    (fun position count t hosts' _ _ => expandWithin_within admits wide d.scope true
      (setting.options.maxImportDepth + 1) position count hosts' (Nat.succ_pos _)
      (Nat.le_add_left _ _))
    startHosts d.scope d.location site i
  have lighter : width ^ (setting.options.maxImportDepth - start.importer.nesting) ≤
      d.weight width setting.options.maxImportDepth := by
    refine Nat.pow_le_pow_right (by omega) (Nat.sub_le_sub_left ?_ _)
    exact Nat.le_add_right _ _
  refine .ofSetting (.ofState (.between (.attempt (.mono spliced ?_ ?_))))
  · rintro inserted t ⟨hosts', weight⟩
    exact ⟨hosts'.congr rfl rfl (Nat.zero_le _),
      Nat.lt_of_lt_of_le weight (Nat.add_le_add_left lighter _)⟩
  · rintro f t ⟨different, blocked⟩
    refine ⟨different, fun undefined => ?_⟩
    obtain ⟨-, hosts', deferred⟩ := blocked rfl undefined
    exact ⟨hosts'.congr rfl rfl (Nat.zero_le _), deferred⟩

/-- What a pass leaves weighs no more than what it found. If it weighs as much, every import that was
    tried is blocked. -/
theorem replayPass_within (pending : List DeferredImport) (pass : Pass)
    (hosts : Hosts setting sheet root 0 allowed s)
    (bounded : ∀ f, pass.firstFailure = some f → f.cause ≠ .exhausted) :
    Finishes setting s (replayPass root pending pass) fun pass' s' =>
      Hosts setting sheet root 0 allowed s' ∧
      passWeight setting width [] pass' s' ≤ passWeight setting width pending pass s ∧
      (∀ f, pass'.firstFailure = some f → f.cause ≠ .exhausted) ∧
      (passWeight setting width [] pass' s' = passWeight setting width pending pass s →
        pass'.progressed = pass.progressed ∧
          (pending ≠ [] ∨ pass.firstFailure.isSome = true → pass'.firstFailure.isSome = true)) := by
  fun_induction replayPass root pending pass generalizing s with
  | case1 pass =>
    refine .pure ⟨hosts, Nat.le_refl _, bounded, fun _ => ⟨rfl, fun h => ?_⟩⟩
    exact h.elim (absurd rfl) id
  | case2 pass d rest expanded blocked gone =>
    have heavy : 0 < d.weight width setting.options.maxImportDepth := Nat.pow_pos (by omega)
    refine .ofState ?_
    dsimp only
    split
    · rename_i i site _ _
      have tried := tryDeferred_within admits wide (s := { s with
        importer := { s.importer with deferred := [] } }) (hosts.congr rfl rfl (Nat.zero_le _)) d
        site i
      refine .bind takeDeferred_ends ?_ fun _ _ never => never.elim
      rintro earlier t ⟨rfl, rfl⟩
      refine .bind tried ?_ fun _ _ never => never.elim
      intro outcome u ended
      cases outcome with
      | ok inserted =>
        obtain ⟨hosts', weight⟩ := ended
        simp only [weightOf, queueWeight_nil, Nat.zero_add] at weight
        refine .bind takeDeferred_ends ?_ fun _ _ never => never.elim
        rintro added v ⟨rfl, rfl⟩
        refine .change ?_
        refine Ends.imp (expanded inserted (hosts'.congr rfl rfl (Nat.zero_le _)) bounded) ?_
        rintro pass' s' ⟨hosts'', weight', bounded', -⟩
        simp only [passWeight, weightOf, List.nil_append, queueWeight_append,
          queueWeight_shiftAll, queueWeight_cons] at weight' ⊢
        refine ⟨hosts'', by omega, bounded', fun same => ?_⟩
        omega
      | error f =>
        obtain ⟨different, isBlocked⟩ := ended
        dsimp only
        split
        · rename_i undefined
          obtain ⟨hosts', deferred⟩ := isBlocked undefined
          refine .change (.change ?_)
          refine Ends.imp (blocked f (hosts'.congr rfl rfl (Nat.zero_le _)) ?_) ?_
          · intro g first
            cases known : pass.firstFailure with
            | none =>
              simp only [known, Option.none_or, Option.some.injEq] at first
              exact first ▸ different
            | some g' =>
              simp only [known, Option.some_or, Option.some.injEq] at first
              exact first ▸ bounded g' known
          · rintro pass' s' ⟨hosts'', weight', bounded', blockedAll⟩
            simp only [passWeight, weightOf, deferred, List.nil_append, queueWeight_append,
              queueWeight_cons, queueWeight_nil] at weight' blockedAll ⊢
            refine ⟨hosts'', by omega, bounded', fun same => ?_⟩
            obtain ⟨progressed, failed⟩ := blockedAll (by omega)
            exact ⟨progressed, fun _ => failed (.inr (by cases pass.firstFailure <;> rfl))⟩
        · exact Ends.fail different
    · refine Ends.change (Ends.imp (gone (hosts.congr rfl rfl (Nat.zero_le _)) bounded) ?_)
      rintro pass' s' ⟨hosts', weight, bounded', -⟩
      simp only [passWeight, weightOf, queueWeight_cons] at weight ⊢
      refine ⟨hosts', by omega, bounded', fun same => ?_⟩
      omega

/-- A pass that is not the last one makes the queue lighter. -/
theorem replayOnce_within (hosts : Hosts setting sheet root 0 allowed s) :
    Finishes setting s (replayOnce root) fun last s' =>
      Hosts setting sheet root 0 allowed s' ∧
        (last = false → weightOf setting width s' + 1 ≤ weightOf setting width s) := by
  refine Ends.bind takeDeferred_ends ?_ fun _ _ never => never.elim
  rintro pending t ⟨rfl, rfl⟩
  split
  · exact Ends.pure ⟨hosts.congr rfl rfl (Nat.zero_le _), nofun⟩
  · rename_i waiting
    refine Ends.change ?_
    refine Ends.seq (replayPass_within admits wide s.importer.deferred {}
      (hosts.congr rfl rfl (Nat.zero_le _)) nofun) ?_
    rintro pass u ⟨hosts', weight, bounded, blockedAll⟩
    simp only [passWeight, weightOf, queueWeight_nil, Nat.add_zero, Nat.zero_add] at weight blockedAll
    have lighter : ¬ (pass.progressed = false ∧ pass.firstFailure.isSome = true) →
        queueWeight width setting.options.maxImportDepth pass.blocked +
          queueWeight width setting.options.maxImportDepth u.importer.deferred + 1 ≤
            queueWeight width setting.options.maxImportDepth s.importer.deferred := by
      intro notBlocked
      refine Nat.lt_of_le_of_ne weight fun same => notBlocked ?_
      obtain ⟨progressed, failed⟩ := blockedAll same
      exact ⟨progressed, failed (.inl (by simpa using waiting))⟩
    split
    · rename_i failure _ failed
      exact .fail (bounded failure failed)
    · rename_i notBlocked
      refine .change (.pure ⟨hosts'.congr rfl rfl (Nat.zero_le _), fun _ => ?_⟩)
      have := lighter fun ⟨progressed, failed⟩ => by
        obtain ⟨failure, isFailure⟩ := Option.isSome_iff_exists.mp failed
        exact notBlocked failure progressed isFailure
      simp only [weightOf, queueWeight_append]
      omega

end Replay

/-! ## Repetition -/

section Repetition

variable {I : Evaluation → Prop} {measure : Evaluation → Nat} {step : Eval Bool}

theorem repeatUpTo_within
    (steps : ∀ s, I s → Finishes setting s step fun last s' =>
      I s' ∧ (last = false → measure s' + drop ≤ measure s))
    (n : Nat) (holds : I s) : Finishes setting s (Repetition.repeatUpTo step n) fun last s' =>
      I s' ∧ (last = false → measure s' + n * drop ≤ measure s) := by
  induction n generalizing s with
  | zero => exact Ends.pure ⟨holds, by simp⟩
  | succ n ih =>
    refine .bind (steps s holds) ?_
    rintro last t ⟨holds', dropped⟩
    cases last with
    | true => exact .pure ⟨holds', nofun⟩
    | false =>
      refine .imp (ih holds') ?_
      rintro last u ⟨holds'', dropped'⟩
      refine ⟨holds'', fun more => ?_⟩
      have := dropped rfl
      have := dropped' more
      rw [Nat.add_mul, Nat.one_mul]
      omega

section

variable
  (steps : ∀ s, I s → Finishes setting s step fun last s' =>
    I s' ∧ (last = false → measure s' + 1 ≤ measure s))

include steps

theorem repeatPower_within (w n : Nat) (holds : I s) :
    Finishes setting s (Repetition.repeatPower w step n) fun last s' =>
      I s' ∧ (last = false → measure s' + w ^ n ≤ measure s) := by
  induction n generalizing s with
  | zero => exact steps s holds
  | succ n ih =>
    rw [Nat.pow_succ, Nat.mul_comm]
    exact repeatUpTo_within (fun t holds' => ih holds') w holds

theorem repeatPowersFrom_within (w start n : Nat) (holds : I s) :
    Finishes setting s (Repetition.repeatPowersFrom w step start n) fun last s' =>
      I s' ∧ (last = false → measure s' ≤ measure s ∧
        ∀ k < n, measure s' + w ^ (start + k) ≤ measure s) := by
  induction n generalizing start s with
  | zero => exact .pure ⟨holds, fun _ => ⟨Nat.le_refl _, nofun⟩⟩
  | succ n ih =>
    refine .bind (repeatPower_within steps w start holds) ?_
    rintro last t ⟨holds', dropped⟩
    cases last with
    | true => exact .pure ⟨holds', nofun⟩
    | false =>
      refine .imp (ih (start + 1) holds') ?_
      rintro last u ⟨holds'', dropped'⟩
      refine ⟨holds'', fun more => ?_⟩
      have first := dropped rfl
      obtain ⟨later, powers⟩ := dropped' more
      refine ⟨by omega, fun k inside => ?_⟩
      cases k with
      | zero => simp only [Nat.add_zero]; omega
      | succ k =>
        have := powers k (by omega)
        rw [Nat.add_right_comm, Nat.add_assoc] at this
        omega

end

end Repetition

theorem replayDeferred_within (admits : Admits setting sheet 0 allowed)
    (wide : Compiler.ruleBound setting.loader sheet < width)
    (hosts : Hosts setting sheet root 0 allowed s)
    (light : weightOf setting width s < width ^ (setting.options.maxImportDepth + 2)) :
    Finishes setting s (replayDeferred root width) fun _ s' =>
      Hosts setting sheet root 0 allowed s' := by
  refine .ofSetting ?_
  have repeated := repeatPowersFrom_within
    (fun t hosts' => @replayOnce_within setting sheet root allowed t width admits wide hosts') width 0
    (setting.options.maxImportDepth + 1 + 2) hosts
  refine Ends.seq repeated ?_
  rintro last t ⟨hosts', dropped⟩
  cases last with
  | true => exact .pure hosts'
  | false =>
    have := (dropped rfl).2 (setting.options.maxImportDepth + 2) (by omega)
    rw [Nat.zero_add] at this
    omega

end Eval

end StyleResolution
