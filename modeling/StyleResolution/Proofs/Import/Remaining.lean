import StyleResolution.Proofs.Import.QueueIntegrity
import StyleResolution.Proofs.Normal.Settled

/-! # The imports that remain

An expanded frame holds no import but those that stay in the output, and their paths are evaluated.
In the root, imports with variables in their paths are passed over at first and marked; once none
of them waits any more, no mark is left.
-/

namespace StyleResolution

/-- The import stays in the output, and its path is as `V` says. -/
structure Import.Kept (V : Value → Prop) (i : Import) : Prop where
  path : V i.path
  plain : isPassThrough i.options i.path.reference = true

def Entry.Final (V : Value → Prop) (e : Entry) : Prop :=
  ∀ i, e.rule = .fileImport i → i.Kept V

theorem exists_append_of_getElem? (h : as[n]? = some a) :
    ∃ before after, as = before ++ a :: after ∧ before.length = n := by
  obtain ⟨inside, rfl⟩ := List.getElem?_eq_some_iff.mp h
  refine ⟨as.take n, as.drop (n + 1), ?_, List.length_take_of_le (Nat.le_of_lt inside)⟩
  rw [List.getElem_cons_drop, List.take_append_drop]

variable {setting : Setting} {V : Value → Prop} {s : Evaluation} {id : FrameId}

theorem Eval.importPath_gives {env : Environment} {i : Import}
    (gives : Gives setting V (value env i.path)) :
    Gives setting (fun found => V found.1 ∧ found.2 = found.1.reference) (importPath env i) := by
  apply Gives.bind (.any _)
  intro _ _
  apply Gives.bind (gives.mapFailure _)
  intro path holds
  split
  · exact .pure ⟨holds, rfl⟩
  · rename_i other
    refine .pure ⟨holds, ?_⟩
    cases path with
    | url inner => exact absurd rfl (other inner)
    | _ => rfl

section

variable (closed : Eval.Closed setting V)

include closed

theorem Import.kept_of_evaluated {i : Import} {path : Value} {text : String}
    (evaluated : ∃ env t t', Eval.importPath env i setting t = (.ok (path, text), t'))
    (plain : isPassThrough i.options text = true) : Import.Kept V { i with path } := by
  obtain ⟨env, t, t', run⟩ := evaluated
  obtain ⟨holds, isReference⟩ :=
    ((Eval.importPath_gives (Eval.value_gives closed env i.path)).ends t).result run
  exact ⟨holds, isReference ▸ plain⟩

theorem Entry.final_settles : Tracked.Settles setting (Entry.Final V) where
  rule other i isImport := by simp [Compiler.isImport, isImport] at other
  kept _ _ evaluated plain := by
    rintro _ ⟨⟩
    exact Import.kept_of_evaluated closed evaluated plain

theorem Entry.final_expansion :
    ImportExpansion setting fun _ _ result => ∀ e ∈ result, e.Final V where
  nil := by simp
  append first second e member := (List.mem_append.mp member).elim (first e) (second e)
  mono _ holds := holds
  rule other e member := List.mem_singleton.mp member ▸ (final_settles closed).rule other
  settled contributes := by
    cases contributes with
    | plain evaluated kept =>
      intro e member
      exact List.mem_singleton.mp member ▸ (final_settles closed).kept _ _ evaluated kept
    | nothing => simp
  file _ holds := holds

theorem Eval.expandImports_final (inside : id < s.frames.size) (env : Environment) :
    Yields setting s (expandImports id env false) fun _ s' => s'.Holds (Import.Kept V) id :=
  (expandImports_replaces (Entry.final_expansion closed) inside env).imp fun _ _ ended => ended.2

/-- Unless the root has more rules than there are locations, all imports in the root of an opened
    sheet stay in the output. -/
theorem Compiler.openSheet_final
    (fits : ∀ m ∈ (Tracked.openSheet sheet setting {} {}).moments,
      m.rules.length ≤ DeferredImport.maxLocation)
    (opened : openSheet sheet setting {} = (.ok { frames := [root] }, s)) :
    s.Holds (Import.Kept V) root := by
  have erased := Tracked.Erases.openSheet sheet setting {} {}
  rw [opened, Prod.mk.injEq] at erased
  obtain ⟨outcome, state⟩ := erased
  have ended := (Tracked.openSheet_atRest (Entry.final_settles closed) sheet rfl fits).2
  rw [outcome] at ended
  obtain ⟨_, same, rest, empty⟩ := ended
  cases same
  rw [state] at rest empty
  exact rest.all empty

end

end StyleResolution
