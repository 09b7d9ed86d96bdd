import StyleResolution.Proofs.Import.Remaining

/-! # Expanding imports that stay

Where all imports of a frame stay in the output, and their paths evaluate to themselves, expanding
and replaying them leaves the rules of the frame as they are, whatever the queue says.
-/

namespace StyleResolution

namespace Eval

variable {α β : Type} {setting : Setting} {s : Evaluation} {V : Value → Prop} {id : FrameId}
  {rules : List Entry}

/-- The computation has a result as `ok` says, unless it is exhausted. -/
abbrev Succeeds (setting : Setting) (s : Evaluation) (x : Eval α) (ok : α → Evaluation → Prop) :
    Prop :=
  Within (· = .exhausted) setting s x ok

/-- Outside of guards, the frame has these rules. -/
structure Unmoved (id : FrameId) (rules : List Entry) (s : Evaluation) : Prop where
  inside : id < s.frames.size
  entries : (s.frames.get id).entries = rules
  idle : s.defaultAnswer = none

theorem Unmoved.congr (unmoved : Unmoved id rules s) (frames : s'.frames = s.frames)
    (idle : s'.defaultAnswer = s.defaultAnswer) : Unmoved id rules s' :=
  ⟨frames ▸ unmoved.inside, frames ▸ unmoved.entries, idle.trans unmoved.idle⟩

section

variable (fixed : ∀ env v, V v → Answers setting (value env v) v)

include fixed

theorem importPath_answers (env : Environment) (kept : i.Kept V) :
    Answers setting (importPath env i) (i.path, i.path.reference) := by
  have spanned : Answers setting (setSpan i.span) () := ⟨fun idle => ⟨rfl, idle⟩⟩
  apply spanned.bind
  apply ((fixed env i.path kept.path).locatedAt i.span).bind
  cases i.path <;> exact .pure _

theorem replaceImport_unmoved {position : Nat} (env : Environment) (kept : i.Kept V)
    (unmoved : Unmoved id rules s)
    (found : (s.frames.get id).entryAt position = some ⟨⟨.fileImport i, site⟩, nesting⟩) :
    Succeeds setting s (replaceImport id env position site i) fun r s' =>
      r = .settled 1 ∧ Unmoved id rules s' := by
  have path : Succeeds setting s (importPath env i) _ :=
    (importPath_answers fixed env kept).ends unmoved.idle
  refine Ends.seq (path.keeping (importPath_loads env i)) ?_
  intro _ t ended
  obtain ⟨⟨same, idle⟩, loads⟩ := ended
  subst same
  have plain : locatedAt i.span (noteOpening i i.path.reference (openImport i i.path.reference))
      setting t = (.ok .passThrough,
        t.note ⟨i, i.path.reference, t.importer, .ok .passThrough, t.importer⟩) := by
    unfold openImport
    rw [if_pos kept.plain]
    rfl
  refine .bind_of_ok plain ?_
  refine .change (.pure ⟨rfl, ?_, ?_, idle⟩)
  · simpa [loads.size] using unmoved.inside
  · have inside : id < t.frames.size := loads.size ▸ unmoved.inside
    rw [Frame.entryAt_eq] at found
    obtain ⟨before, after, split, rfl⟩ := exists_append_of_getElem? found
    have entries := (loads.entries id).trans split
    have nestingAt : (t.frames.get id).nestingAt before.length = nesting := by
      simp [Frame.nestingAt_eq, entries]
    rw [Evaluation.note_frames, Frames.get_modify_self inside, ← unmoved.entries, split]
    simp [nestingAt, entries]

theorem spliceImport_unmoved {position : Nat} (expandAt : Nat → Nat → Eval Nat) (env : Environment)
    (kept : i.Kept V) (unmoved : Unmoved id rules s)
    (found : (s.frames.get id).entryAt position = some ⟨⟨.fileImport i, site⟩, nesting⟩) :
    Succeeds setting s (spliceImport expandAt id env position site i) fun _ s' =>
      Unmoved id rules s' := by
  refine Ends.seq (replaceImport_unmoved fixed env kept unmoved found) ?_
  intro r t ended
  obtain ⟨settled, unmoved⟩ := ended
  subst settled
  exact .pure unmoved

omit fixed in
theorem Unmoved.kept {position : Nat} (unmoved : Unmoved id rules s)
    (final : ∀ e ∈ rules, e.Final V)
    (found : (s.frames.get id).entryAt position = some ⟨⟨.fileImport i, site⟩, nesting⟩) :
    i.Kept V := by
  exact final _ (unmoved.entries ▸ Frame.mem_entries_of_entryAt found) i rfl

variable (final : ∀ e ∈ rules, e.Final V)

include final

theorem expandRange_unmoved (expandAt : Nat → Nat → Eval Nat) (env : Environment) (defer : Bool)
    (position count : Nat) (unmoved : Unmoved id rules s) :
    Succeeds setting s (expandRange expandAt id env defer position count) fun _ s' =>
      Unmoved id rules s' := by
  induction count generalizing position s with
  | zero => exact .pure unmoved
  | succ count ih =>
    refine .ofState ?_
    split
    · rename_i i site nesting found
      split
      · exact .change (.change (ih _ (unmoved.congr rfl rfl)))
      · have kept := unmoved.kept final found
        refine Ends.seq (spliceImport_unmoved fixed expandAt env kept unmoved found) ?_
        intro count t unmoved
        exact ih _ unmoved
    · exact ih _ unmoved

theorem expandImports_unmoved (env : Environment) (defer : Bool) (unmoved : Unmoved id rules s) :
    Succeeds setting s (expandImports id env defer) fun _ s' => Unmoved id rules s' := by
  refine .ofState (.ofSetting (.ofState (.between ?_)))
  refine Ends.seq (expandRange_unmoved fixed final _ env defer 0 _ (unmoved.congr rfl rfl)) ?_
  intro _ t unmoved
  exact .pure (unmoved.congr rfl rfl)

theorem replays_unmoved : Replays setting id
    (fun first s => first = none ∧ Unmoved id rules s) (fun f _ => f.cause = .exhausted) where
  requeue _ _ holds := ⟨holds.1, holds.2.congr rfl rfl⟩
  splice found holds := by
    have kept := holds.2.kept final found
    refine .ofSetting (.ofState (.between ?_))
    refine .mono (spliceImport_unmoved fixed _ _ kept (holds.2.congr rfl rfl) found) ?_ ?_
    · intro count t ended
      exact ⟨holds.1, ended.congr rfl rfl⟩
    · intro f t exhausted
      simp [Failure.isUndefinedVariable, exhausted]
  forget holds := ⟨rfl, holds.2⟩
  stuck holds := by cases holds.1
  exhausted _ := rfl

theorem replayDeferred_unmoved (width : Nat) (unmoved : Unmoved id rules s) :
    Succeeds setting s (replayDeferred id width) fun _ s' => Unmoved id rules s' :=
  ((replays_unmoved fixed final).replayDeferred ⟨rfl, unmoved⟩ width).imp fun _ _ ended => ended.2

end

end Eval

end StyleResolution
