import StyleResolution.Proofs.Evaluation.Coincidence
import StyleResolution.Proofs.Evaluation.Locality
import StyleResolution.Proofs.Flattening.Reading

/-! # Blocks as they are written

Without imports and calls, the frames in scope hold the rules of the blocks around a rule as they
are written, so the value of an expression is the one that `Scope.value` gives it.
-/

namespace StyleResolution

/-! ## Entered blocks -/

/-- The frames of the environment are those of the blocks of the scope, as they are written, and
    nothing is being evaluated. -/
structure Entered (env : Environment) (scope : Scope) (s : Evaluation) : Prop where
  captured : env.captured = []
  blocks : env.frames.map (fun id => (s.frames.get id).entries) =
    scope.map fun block => (Frame.ofBlock block.1 block.2 0).entries
  inside : ∀ id ∈ env.frames, id < s.frames.size
  fresh : ∀ id ∈ env.frames, (s.frames.get id).Fresh
  parenDepth : s.parenDepth = 0
  defaultAnswer : s.defaultAnswer = none
  evaluating : s.evaluating = []

namespace Entered

variable {env env' : Environment} {scope : Scope} {s t : Evaluation}

theorem chain (entered : Entered env scope s) : env.chain = env.frames := by
  simp [Environment.chain, Environment.allStacks, entered.captured]

/-- What a frame of the environment defines and how many rules it has is read off its rules. -/
theorem visible (entered : Entered env scope s) :
    env.chain.map (fun id => ((s.frames.get id).names, (s.frames.get id).size)) =
      scope.map fun block =>
        let entries := (Frame.ofBlock block.1 block.2 0).entries
        (Index.ofRules (entries.map (·.toPlaced)), entries.length) := by
  have frames : env.frames.map (fun id => ((s.frames.get id).names, (s.frames.get id).size)) =
      (env.frames.map fun id => (s.frames.get id).entries).map
        fun entries => (Index.ofRules (entries.map (·.toPlaced)), entries.length) := by
    rw [List.map_map]
    apply List.map_congr_left
    intro id member
    have names : (s.frames.get id).names = Index.ofRules _ := entered.fresh id member
    simp only [Function.comp_apply, names, Frame.map_toPlaced_entries, Frame.length_entries]
  rw [entered.chain, frames, entered.blocks, List.map_map]
  rfl

theorem sameScope (first : Entered env scope s) (second : Entered env' scope t) :
    SameScope Eq True env env' s t := by
  have visible := first.visible.trans second.visible.symm
  refine ⟨OneToOne.eq, ?_, fun _ => ?_, ?_, ?_, ?_⟩
  · have names := congrArg (List.map Prod.fst) visible
    simp only [List.map_map] at names
    rw [← List.forall₂_eq_eq_eq, List.forall₂_map_left_iff, List.forall₂_map_right_iff] at names
    exact names.imp fun i j same => Index.Agree.of_eq same
  · have sizes := congrArg (List.foldr (fun f total => f.2 + total) 0) visible
    simpa only [List.foldr_map, Evaluation.scopeSize] using sizes
  · exact first.parenDepth.trans second.parenDepth.symm
  · exact first.defaultAnswer.trans second.defaultAnswer.symm
  · rw [first.evaluating, second.evaluating]
    exact .nil

theorem of_scope (scope : Scope) : Entered scope.environment scope scope.state where
  captured := rfl
  blocks := by
    apply List.ext_getElem
    · simp [Scope.environment]
    · intro position _ inside
      have inside : position < scope.length := by simpa using inside
      simp [Scope.environment, Scope.state, Frames.get, inside]
  inside id member := by simpa [Scope.environment, Scope.state, Frames.size] using member
  fresh id member := by
    have inside : id < scope.length := by simpa [Scope.environment] using member
    simp only [Scope.state, Frames.get, List.getElem?_toArray, List.getElem?_map,
      List.getElem?_eq_getElem inside, Option.map_some, Option.getD_some]
    exact Frame.Fresh.ofPlaced _ _
  parenDepth := rfl
  defaultAnswer := rfl
  evaluating := rfl

theorem of_local (entered : Entered env scope s) (moved : Local limit none own s t) :
    Entered env scope t where
  captured := entered.captured
  blocks := by
    rw [← entered.blocks]
    apply List.map_congr_left
    intro id member
    exact (moved.other id (entered.inside id member) nofun).entries
  inside id member := Nat.lt_of_lt_of_le (entered.inside id member) moved.size
  fresh id member :=
    (entered.fresh id member).of_indexed (moved.other id (entered.inside id member) nofun)
  parenDepth := (congrArg Scoped.parenDepth moved.restored).trans entered.parenDepth
  defaultAnswer := (congrArg Scoped.defaultAnswer moved.restored).trans entered.defaultAnswer
  evaluating := (congrArg Scoped.evaluating moved.restored).trans entered.evaluating

theorem push (entered : Entered env scope s) (site : Site) (rules : List Rule) :
    Entered (env.push s.frames.size) ((site, rules) :: scope)
      { s with frames := (s.frames.add (Frame.ofBlock site rules 0)).2 } where
  captured := entered.captured
  blocks := by
    simp only [Environment.push, List.map_cons, Frames.get_add_self, List.cons.injEq, true_and]
    rw [← entered.blocks]
    apply List.map_congr_left
    intro id member
    rw [Frames.get_add_of_lt (entered.inside id member)]
  inside id member := by
    rw [Frames.size_add]
    rcases List.mem_cons.mp member with rfl | outer
    · exact Nat.lt_succ_self _
    · exact Nat.lt_succ_of_lt (entered.inside id outer)
  fresh id member := by
    rcases List.mem_cons.mp member with rfl | outer
    · rw [Frames.get_add_self]
      exact Frame.Fresh.ofPlaced _ _
    · rw [Frames.get_add_of_lt (entered.inside id outer)]
      exact entered.fresh id outer
  parenDepth := entered.parenDepth
  defaultAnswer := entered.defaultAnswer
  evaluating := entered.evaluating

theorem innermost (entered : Entered env (block :: scope) s) : ∃ id, env.innermost? = some id ∧
      (s.frames.get id).entries = (Frame.ofBlock block.1 block.2 0).entries := by
  have blocks := entered.blocks
  cases frames : env.frames with
  | nil => simp [frames] at blocks
  | cons id outer =>
    simp only [frames, List.map_cons, List.cons.injEq] at blocks
    exact ⟨id, by simp [Environment.innermost?, frames], blocks.1⟩

end Entered

theorem Rule.arePlain_iff : arePlain rules = true ↔ ∀ r ∈ rules, r.isPlain = true := by
  induction rules with
  | nil => simp [arePlain]
  | cons r rs ih => simp [arePlain, ih]

namespace Eval

variable {setting : Setting} {env : Environment} {scope : Scope} {s : Evaluation}

theorem value_yields (entered : Entered env scope s) (v : Value) :
    Yields setting s (value env v) fun a _ => scope.value setting v = some a := by
  have alike : Alike _ _ _ _ setting s scope.state (value env v) (value scope.environment v) :=
    value_alike v (entered.sameScope (Entered.of_scope scope))
  have related := alike trivial
  unfold Yields Ends Scope.value
  rcases run : value env v setting s with ⟨f | a, s'⟩
  · trivial
  · rw [run] at related
    rcases run' : value scope.environment v setting scope.state with ⟨g | b, t⟩
    · rw [run'] at related
      exact absurd trivial related.1
    · rw [run'] at related
      exact congrArg some related.1.symm

theorem evaluatePrelude_yields (entered : Entered env scope s) (span : Span)
    (prelude : Option Value) :
    Yields setting s (evaluatePrelude env span prelude) fun a _ =>
      scope.prelude setting prelude = some a := by
  cases prelude with
  | none => exact .pure rfl
  | some v =>
    refine .bind (.mapFailure (value_yields entered v)) fun a _ evaluated => ?_
    exact Ends.pure (by simp [Scope.prelude, evaluated])

/-! ## Blocks without imports and calls -/

def entriesFrom (site : Site) : Nat → List Rule → List Entry
  | _, [] => []
  | position, r :: rs => ⟨⟨r, site.child position⟩, 0⟩ :: entriesFrom site (position + 1) rs

theorem ofBlock_entries (site : Site) (rules : List Rule) :
    (Frame.ofBlock site rules 0).entries = entriesFrom site 0 rules := by
  have shifted : ∀ position, (rules.mapIdx fun i r => (⟨r, site.child (position + i)⟩ : Placed)).map
      (fun p => ({ p with nesting := 0 } : Entry)) = entriesFrom site position rules := by
    induction rules with
    | nil => exact fun _ => rfl
    | cons r rs ih =>
      intro position
      simp only [List.mapIdx_cons, List.map_cons, Nat.add_zero, entriesFrom, ← ih (position + 1),
        Nat.add_assoc, Nat.add_comm 1]
  rw [← shifted 0]
  simp only [Frame.entries_ofBlock, Placed.ofBlock, Nat.zero_add]

theorem ofBlock_plain (plain : Rule.arePlain rules = true) (site : Site) :
    ∀ e ∈ (Frame.ofBlock site rules 0).entries, e.rule.isPlain = true := by
  intro e member
  simp only [Frame.entries_ofBlock, Placed.ofBlock, List.mem_map, List.mem_mapIdx] at member
  obtain ⟨_, ⟨position, inside, rfl⟩, rfl⟩ := member
  exact Rule.arePlain_iff.mp plain _ (List.getElem_mem inside)

theorem addFrame_yields (entered : Entered env scope s) (site : Site) (rules : List Rule) :
    Yields setting s (addFrame (Frame.ofBlock site rules 0)) fun id t =>
      t.frames.get id = Frame.ofBlock site rules 0 ∧ t.importer = s.importer ∧
        Entered (env.push id) ((site, rules) :: scope) t :=
  ⟨Frames.get_add_self _ _, rfl, entered.push site rules⟩

theorem expandBlock_yields {site : Site} {rules : List Rule} {id : FrameId}
    (plain : Rule.arePlain rules = true) (frame : s.frames.get id = Frame.ofBlock site rules 0)
    (defer : Bool) : Yields setting s (expandImports id env defer) fun _ s' => s' = s := by
  have bare : ∀ e ∈ (s.frames.get id).entries, Compiler.isImport e.rule = false := by
    intro e member
    rw [frame] at member
    have := ofBlock_plain plain site e member
    cases rule : e.rule <;> simp_all [Rule.isPlain, Compiler.isImport]
  unfold Yields Ends
  rw [expandImports_of_no_import bare]

theorem enterBlock_yields (entered : Entered env scope s) (site : Site)
    (plain : Rule.arePlain rules = true) :
    Yields setting s (enterBlock env site rules 0) fun inner s' =>
      Entered inner ((site, rules) :: scope) s' := by
  refine .bind (addFrame_yields entered site rules) ?_
  rintro id t ⟨frame, -, entered'⟩
  refine .bind (expandBlock_yields plain frame false) ?_
  rintro _ _ rfl
  exact .pure entered'

theorem expandCalls_plain (evaluate : BlockEvaluator) (ctx : Context)
    (plain : ∀ e ∈ es, e.rule.isPlain = true) : expandCalls evaluate env ctx es = pure [] := by
  apply expandCalls_of_no_call
  intro e member c isCall
  have := plain e member
  simp [isCall, Rule.isPlain] at this

end Eval

end StyleResolution
