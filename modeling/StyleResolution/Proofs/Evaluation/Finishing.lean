import StyleResolution.Proofs.Evaluation.Causes
import StyleResolution.Proofs.Evaluation.Quiet
import StyleResolution.Proofs.Scope.Names

/-! # Evaluating a value comes to an end

A computation that is bounded fails as exhausted where the bound is too small; `Finishes` says that
it does not. For values the bound is the number of rules in scope: a definition is never begun while
it is being evaluated, so every definition inside another one uses up a rule in scope.
-/

namespace StyleResolution

namespace Eval

variable {α β : Type} {setting : Setting} {s : Evaluation}

/-- From the state `s`, the computation has a result as `ok` says, or fails for another reason than
    that its bound is too small. -/
abbrev Finishes (setting : Setting) (s : Evaluation) (x : Eval α) (ok : α → Evaluation → Prop) :
    Prop :=
  Within (· ≠ .exhausted) setting s x ok

namespace Finishes

variable {ok : α → Evaluation → Prop}

theorem mapFailure_bind (same : ∀ f, (g f).cause = f.cause) (h : Finishes setting s (x >>= next) ok) :
    Finishes setting s (Eval.mapFailure g x >>= next) ok := by
  unfold Finishes Within Ends at h ⊢
  rw [bind_apply] at h ⊢
  unfold Eval.mapFailure
  rcases run : x setting s with ⟨f | b, t⟩
  · rw [run] at h
    change f.cause ≠ .exhausted at h
    change (g f).cause ≠ .exhausted
    rwa [same]
  · rwa [run] at h

theorem of_failsOnly (h : FailsOnly P x) (different : ¬ P .exhausted) :
    Finishes setting s x fun _ _ => True :=
  (h.ends setting s).mono (fun _ _ h => h) fun _ _ cause same => different (same ▸ cause)

theorem of_warned (h : Ends setting s x ok fun f _ => Warned setting f) :
    Finishes setting s x fun _ _ => True := by
  refine h.mono (fun _ _ _ => trivial) ?_
  rintro f _ ⟨-, message, cause⟩
  simp [cause]

end Finishes

/-! ## Steps that are not bounded -/

theorem warn_finishes (message : String) : Finishes setting s (warn message) fun _ _ => True :=
  .of_warned (warn_ends message s)

theorem applyOperator_finishes (op : Operator) (lhs rhs : Value) :
    Finishes setting s (applyOperator op lhs rhs) fun _ _ => True :=
  .of_warned (applyOperator_ends op lhs rhs s)

theorem applyFunction_finishes (name : String) (args : List Value) :
    Finishes setting s (applyFunction name args) fun _ _ => True :=
  .of_failsOnly (P := fun _ => False) (applyFunction_failsOnly name args) id

theorem outsideParens_finishes
    (h : Finishes setting { s with parenDepth := 0 } x fun a s' =>
      ok a { s' with parenDepth := s.parenDepth }) :
    Finishes setting s (outsideParens x) ok := by
  have inside : Finishes setting s (between (fun s => { s with parenDepth := 0 })
      (fun s' => { s' with parenDepth := s.parenDepth }) x) ok := .between h
  exact .ofState inside

theorem consult_ends (id : FrameId) :
    Ends setting s (consult id) (fun index _ => index = (s.frames.get id).names) fun _ _ => False := by
  refine .ofState ?_
  dsimp only
  split
  · rename_i kept
    exact Ends.pure (by simp only [FrameData.names, kept, Option.getD_some])
  · exact .change (.change (.pure rfl))

theorem consult_finishes (id : FrameId) :
    Finishes setting s (consult id) fun index _ => index = (s.frames.get id).names :=
  (consult_ends id).mono (fun _ _ answer => answer) nofun

/-! ## Values -/

/-- What holds of a state does not depend on indexes, warnings, events and parentheses. -/
structure Steady (I : Evaluation → Prop) : Prop where
  quiet : ∀ {s s'}, Quiet s s' → I s → I s'
  parens : ∀ {s} (depth : Nat), I s → I { s with parenDepth := depth }

theorem Finishes.steadily (steady : Steady I) (h : Finishes setting s x fun _ _ => True)
    (quiet : Keeps setting Quiet x) (holds : I s) : Finishes setting s x fun _ s' => I s' :=
  (h.keeping quiet).imp fun _ _ both => steady.quiet both.2 holds

/-- Whoever finishes and keeps what is steady passes this on to values and guards. -/
theorem spine_finishes (steady : Steady I) :
    Composes.Spine fun _ x _ => ∀ s, I s → Finishes setting s x fun _ s' => I s' where
  pure _ _ holds := .pure holds
  bind first then_ s holds := .bind (first s holds) then_
  inParens h _ holds := .between ((h _ (steady.parens _ holds)).imp fun _ _ => steady.parens _)
  applyOperator op lhs rhs _ holds :=
    (applyOperator_finishes op _ _).steadily steady (values_quiet.applyOperator op lhs rhs) holds
  applyFunction name args _ holds :=
    (applyFunction_finishes name _).steadily steady (values_quiet.applyFunction name args) holds

/-! ## Definitions -/

def sitesIn (store : Frames) (ids : List FrameId) : List Site :=
  ids.flatMap fun id => (store.get id).entries.map (·.site)

theorem mem_sitesIn : ∀ id ∈ ids, ∀ e ∈ (store.get id).entries, e.site ∈ sitesIn store ids :=
  fun id inside _ member => List.mem_flatMap.mpr ⟨id, inside, List.mem_map_of_mem member⟩

theorem length_sitesIn (store : Frames) (ids : List FrameId) :
    (sitesIn store ids).length = ids.foldr (fun id total => (store.get id).size + total) 0 := by
  unfold sitesIn
  induction ids with
  | nil => rfl
  | cons id ids ih => simp [ih, ← Frame.length_entries]

/-- All rules in scope are at one of the sites, and fewer than `n` of these are not being
    evaluated. -/
structure InScope (env : Environment) (sites : List Site) (n : Nat) (s : Evaluation) : Prop where
  fresh : s.frames.Fresh
  scope : ∀ id ∈ env.chain, ∀ e ∈ (s.frames.get id).entries, e.site ∈ sites
  room : sites.countP (· ∉ s.evaluating) < n

theorem InScope.steady (env : Environment) (sites : List Site) (n : Nat) :
    Steady (InScope env sites n) where
  quiet {s s'} quiet h :=
    { fresh := fun id => (h.fresh id).of_indexed (quiet.frame id)
      scope := fun id inside => by
        rw [quiet.entries]
        exact h.scope id inside
      room := by
        rw [quiet.evaluating]
        exact h.room }
  parens _ h := ⟨h.fresh, h.scope, h.room⟩

theorem lookupIn_finishes (name : String) {sites : List Site} (ids : List FrameId)
    (fresh : s.frames.Fresh) (scope : ∀ id ∈ ids, ∀ e ∈ (s.frames.get id).entries, e.site ∈ sites) :
    Finishes setting s (lookupIn name ids) fun found _ => ∀ v, found = some v → v.site ∈ sites := by
  induction ids generalizing s with
  | nil => exact .pure nofun
  | cons id ids ih =>
    refine .bind ((consult_finishes id).keeping (consult_quiet id)) ?_
    rintro index t ⟨rfl, quiet⟩
    split
    · rename_i v found
      refine .pure ?_
      rintro _ ⟨⟩
      obtain ⟨e, inside, isVariable⟩ := (fresh id).variable_mem found
      have same : e.site = v.site := by
        unfold Placed.asVariable at isVariable
        split at isVariable <;> cases isVariable
        rfl
      exact same ▸ scope id List.mem_cons_self e inside
    · refine ih (fun other => (fresh other).of_indexed (quiet.frame other)) ?_
      intro other later
      rw [quiet.entries]
      exact scope other (List.mem_cons_of_mem _ later)

theorem lookup_finishes {sites : List Site} (name : String) (h : InScope env sites n s) :
    Finishes setting s (lookup env name) fun v s' => v.site ∈ sites ∧ InScope env sites n s' := by
  have found : Finishes setting s (lookup env name) fun v _ => v.site ∈ sites := by
    refine .bind (lookupIn_finishes name env.chain h.fresh h.scope) fun found t inside => ?_
    split
    · exact .pure (inside _ rfl)
    · exact .failWith nofun
  exact (found.keeping (values_quiet.lookup env name)).imp fun v _ both =>
    ⟨both.1, (InScope.steady env sites n).quiet both.2 h⟩

theorem countP_begun_lt {sites evaluating : List Site} (inside : site ∈ sites)
    (idle : site ∉ evaluating) :
    sites.countP (· ∉ site :: evaluating) < sites.countP (· ∉ evaluating) := by
  obtain ⟨before, after, rfl⟩ := List.append_of_mem inside
  have fewer : ∀ l : List Site,
      l.countP (· ∉ site :: evaluating) ≤ l.countP (· ∉ evaluating) := by
    intro l
    refine List.countP_mono_left fun other _ begun => ?_
    simp only [List.mem_cons, decide_eq_true_eq] at begun ⊢
    exact fun member => begun (.inr member)
  have := fewer before
  have := fewer after
  simp only [List.countP_append, List.countP_cons, List.mem_cons, idle, true_or, not_true_eq_false,
    not_false_eq_true, decide_true, decide_false, if_true, Bool.false_eq_true, if_false]
  simp only [List.mem_cons] at *
  omega

theorem dereferenceWithin_finishes {env : Environment} {sites : List Site} (n : Nat) (v : Variable)
    (fresh : s.frames.Fresh)
    (scope : ∀ id ∈ env.chain, ∀ e ∈ (s.frames.get id).entries, e.site ∈ sites)
    (room : v.site ∉ s.evaluating → sites.countP (· ∉ v.site :: s.evaluating) < n) :
    Finishes setting s (dereferenceWithin env (n + 1) v) fun _ _ => True := by
  induction n generalizing v s with
  | zero =>
    refine .ofState ?_
    split
    · exact .fail nofun
    · rename_i idle
      exact absurd (room (by simpa using idle)) (Nat.not_lt_zero _)
  | succ n ih =>
    refine .ofState ?_
    split
    · exact .fail nofun
    · rename_i idle
      -- Whatever the value refers to is in scope, and is found with one site less to begin.
      have fetches : ∀ name t, InScope env sites (n + 1) t →
          Finishes setting t (do dereferenceWithin env (n + 1) (← lookup env name))
            fun _ t' => InScope env sites (n + 1) t' := by
        intro name t h
        refine .bind (lookup_finishes name h) ?_
        rintro w u ⟨inside, h⟩
        refine Finishes.steadily (InScope.steady env sites _)
          (ih w h.fresh h.scope fun notBegun => ?_) (values_quiet.dereferenceWithin env _ w) h
        have := countP_begun_lt inside notBegun
        have := h.room
        omega
      have begun : InScope env sites (n + 1)
          { s with
            evaluating := v.site :: s.evaluating
            history := .definition v.site (v.site :: s.evaluating) :: s.history
            parenDepth := 0 } :=
        ⟨fresh, scope, room (by simpa using idle)⟩
      refine (Within.between (outsideParens_finishes ?_)).locatedAt _
      exact ((spine_finishes (InScope.steady env sites _)).valueWith_self fetches _ _ begun).imp
        fun _ _ _ => trivial

theorem dereference_finishes (env : Environment) (v : Variable) (fresh : s.frames.Fresh) :
    Finishes setting s (dereference env v) fun _ _ => True := by
  refine .ofState (dereferenceWithin_finishes _ v fresh mem_sitesIn fun _ => ?_)
  rw [← length_sitesIn]
  exact Nat.lt_succ_of_le List.countP_le_length

theorem fresh_steady : Steady fun s => s.frames.Fresh where
  quiet quiet fresh id := (fresh id).of_indexed (quiet.frame id)
  parens _ fresh := fresh

theorem variableValue_finishes (env : Environment) (name : String) (fresh : s.frames.Fresh) :
    Finishes setting s (variableValue env name) fun _ _ => True := by
  have room : InScope env (sitesIn s.frames env.chain) ((sitesIn s.frames env.chain).length + 1) s :=
    ⟨fresh, mem_sitesIn, Nat.lt_succ_of_le List.countP_le_length⟩
  exact .bind (lookup_finishes name room) fun v _ found =>
    dereference_finishes env v found.2.fresh

theorem value_freshly (env : Environment) (v : Value) (s : Evaluation) (fresh : s.frames.Fresh) :
    Finishes setting s (value env v) fun _ s' => s'.frames.Fresh :=
  (spine_finishes fresh_steady).valueWith_self (fun name _ fresh =>
    (variableValue_finishes env name fresh).steadily fresh_steady (variableValue_quiet env name)
      fresh) v s fresh

theorem value_finishes (env : Environment) (v : Value) (fresh : s.frames.Fresh) :
    Finishes setting s (value env v) fun _ _ => True :=
  (value_freshly env v s fresh).imp fun _ _ _ => trivial

end Eval

end StyleResolution
