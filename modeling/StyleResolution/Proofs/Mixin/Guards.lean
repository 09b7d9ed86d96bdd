import StyleResolution.Proofs.Import.Blocked
import StyleResolution.Proofs.Mixin.Candidates
import StyleResolution.Proofs.Normal.Sheet

/-! # Guards select overloads

A guard has a value for each answer of `default()`. The value is read off the truth of its
conditions, none of which is skipped: that the test of a guard ends as early as it can does not show
in how it ends.

The candidates of a call are sorted into groups before anything is known about the others, and what
is expanded is decided from the groups. This is the same as to answer `default()` once for the whole
call, truly: it holds if no candidate can do without it.
-/

namespace StyleResolution

open Eval

/-! ## The value of a guard -/

/-- Whether the condition is true in a state. One that cannot be evaluated is not. -/
def Condition.truth (c : Condition) (setting : Setting) (env : Environment) (s : Evaluation) : Bool :=
  match (inParens (comparisonHolds env c) setting s).1 with
  | .ok holds => holds ^^ c.negated
  | .error _ => false

def Guard.holdsFor (g : Guard) (truth : Condition → Bool) : Bool :=
  g.groups.any fun group => group.all truth

/-- The state in which `default()` gives this answer. -/
def Evaluation.answering (s : Evaluation) (answer : Bool) : Evaluation :=
  { s with defaultAnswer := some answer }

/-- The value of a guard that may ask for `default()`. -/
def Guard.value (g : Guard) (setting : Setting) (env : Environment) (s : Evaluation)
    (answer : Bool) : Bool :=
  g.holdsFor fun c => c.truth setting env (if g.callsDefault then s.answering answer else s)

def Callable.guardValue (c : Callable) (setting : Setting) (env : Environment) (s : Evaluation)
    (answer : Bool) : Bool :=
  match c.guard with
  | none => true
  | some g => g.value setting env s answer

theorem Quiet.answering (quiet : Quiet s s') (answer : Bool) :
    Quiet (s.answering answer) (s'.answering answer) :=
  { quiet with defaultAnswer := rfl }

theorem Quiet.truth (quiet : Quiet s s') (c : Condition) (setting : Setting) (env : Environment) :
    c.truth setting env s' = c.truth setting env s := by
  have same : SameScope Eq True env env s s' := (SameScope.refl env s).of_quiet (.refl s) quiet
  have alike : Eval.Alike Eq True env env setting s s'
      (inParens (comparisonHolds env c)) (inParens (comparisonHolds env c)) :=
    spine_alike.inParens (spine_alike.comparisonHolds (fun v _ _ => value_alike v) c) s s' same
  have related := alike trivial
  unfold Condition.truth
  revert related
  rcases inParens (comparisonHolds env c) setting s with ⟨f | holds, t⟩ <;>
    rcases inParens (comparisonHolds env c) setting s' with ⟨g | holds', t'⟩
  · exact fun _ => rfl
  · exact fun related => absurd trivial related.1
  · exact fun related => absurd trivial related.1
  · rintro ⟨rfl, -⟩
    rfl

namespace Eval

variable {setting : Setting} {s t : Evaluation}

theorem conditionHolds_ends (env : Environment) (c : Condition) (s : Evaluation) :
    Ends setting s (conditionHolds env c)
      (fun holds t => holds = c.truth setting env s ∧ Quiet s t) fun _ _ => True := by
  refine .keeping ?_ (values_quiet.spine.conditionHolds_self (value_quiet env) c)
  refine .bind_of_run (fun holds t run => .pure ?_) fun _ _ _ => trivial
  rw [Condition.truth, run]

theorem allHold_ends (env : Environment) (cs : List Condition) (s : Evaluation) :
    Ends setting s (allHold env cs) (fun holds _ => holds = cs.all (·.truth setting env s))
      fun _ _ => True := by
  induction cs generalizing s with
  | nil => exact .pure rfl
  | cons c cs ih =>
    refine .seq (conditionHolds_ends env c s) ?_
    rintro holds t ⟨rfl, quiet⟩
    rw [List.all_cons]
    split
    · rename_i isTrue
      refine (ih t).imp (fun holds u all => ?_)
      simp only [all, quiet.truth, isTrue, Bool.true_and]
    · rename_i isFalse
      refine .pure ?_
      rw [eq_false_of_ne_true isFalse, Bool.false_and]

theorem guardHolds_ends (env : Environment) (g : Guard) (s : Evaluation) :
    Ends setting s (guardHolds env g) (fun holds _ => holds = g.holdsFor (·.truth setting env s))
      fun _ _ => True := by
  unfold guardHolds Guard.holdsFor
  induction g.groups generalizing s with
  | nil => exact .pure rfl
  | cons group groups ih =>
    refine .seq ((allHold_ends env group s).keeping
      (values_quiet.spine.allHold_self (value_quiet env) group)) ?_
    rintro holds t ⟨rfl, quiet⟩
    rw [List.any_cons]
    split
    · rename_i isTrue
      refine .pure ?_
      rw [isTrue, Bool.true_or]
    · rename_i isFalse
      refine (ih t).imp (fun holds u any => ?_)
      simp only [any, quiet.truth, eq_false_of_ne_true isFalse, Bool.false_or]

theorem answeringDefault_ends (env : Environment) (g : Guard) (answer : Bool) (s : Evaluation) :
    Ends setting s (answeringDefault answer (guardHolds env g))
      (fun holds t => holds = g.holdsFor (·.truth setting env (s.answering answer)) ∧ Quiet s t)
      fun _ _ => True :=
  .keeping (.ofState (.between (guardHolds_ends env g (s.answering answer))))
    (answeringDefault_quiet answer (values_quiet.spine.guardHolds_self (value_quiet env) g))

end Eval

/-! ## Groups -/

/-- The group of a candidate whose guard has these values, if it can hold. -/
def DefaultGroup.ofValues (without alone : Bool) : DefaultGroup :=
  if without == alone then .plain else if alone then .whenDefault else .unlessDefault

/-- A candidate that takes the arguments of a call, with the frame of its parameters and the state
    in which its guard is tested. -/
structure Trial where
  candidate : Candidate
  params : FrameId
  state : Evaluation

namespace Trial

/-- The scope of the guard and the body. -/
def scope (t : Trial) (caller : Environment) : Environment :=
  (t.candidate.scope.push t.params).capture caller

def value (t : Trial) (setting : Setting) (caller : Environment) (answer : Bool) : Bool :=
  t.candidate.callable.guardValue setting (t.scope caller) t.state answer

/-- Whether the guard can hold. -/
def mayHold (t : Trial) (setting : Setting) (caller : Environment) : Bool :=
  t.value setting caller false || t.value setting caller true

/-- Whether the guard holds whatever `default()` answers. -/
def needsNoDefault (t : Trial) (setting : Setting) (caller : Environment) : Bool :=
  t.value setting caller false && t.value setting caller true

/-- Whether it matters to the guard what `default()` answers. -/
def dependsOnDefault (t : Trial) (setting : Setting) (caller : Environment) : Bool :=
  t.value setting caller false != t.value setting caller true

def expanded (t : Trial) (setting : Setting) (caller : Environment) : MatchedCandidate :=
  ⟨t.candidate.callable, t.scope caller, t.params,
    .ofValues (t.value setting caller false) (t.value setting caller true)⟩

def all (setting : Setting) (caller : Environment) (args : List Argument) (span : Span) :
    Evaluation → List Candidate → List Trial
  | _, [] => []
  | s, c :: cs =>
    let later := all setting caller args span
      (matchCandidate caller args span c setting s).2 cs
    match Mixin.bind c.callable.params args with
    | .error _ => later
    | .ok binding =>
      match parameterFrame binding c.scope caller span setting s with
      | (.ok params, t) => ⟨c, params, t⟩ :: later
      | (.error _, _) => later

end Trial

theorem Mixin.accepts_eq_isOk (params : List Param) (args : List Argument) :
    Mixin.accepts params args = (Mixin.bind params args).isOk := by
  unfold Mixin.accepts Mixin.bind
  cases Mixin.assign params args <;> rfl

namespace Eval

variable {setting : Setting} {caller : Environment} {args : List Argument} {span : Span}
  {s t : Evaluation}

theorem defaultGroup_ends (c : Callable) (env : Environment) (s : Evaluation) :
    Ends setting s (defaultGroup c env)
      (fun group _ => group =
        if c.guardValue setting env s false || c.guardValue setting env s true then
          some (.ofValues (c.guardValue setting env s false) (c.guardValue setting env s true))
        else none) fun _ _ => True := by
  unfold defaultGroup Callable.guardValue
  cases c.guard with
  | none => exact .pure rfl
  | some g =>
    simp only [Guard.value]
    split
    · refine .seq (answeringDefault_ends env g false s) ?_
      rintro _ t ⟨rfl, quiet⟩
      refine .seq (answeringDefault_ends env g true t) ?_
      rintro _ u ⟨rfl, -⟩
      simp only [(quiet.answering true).truth]
      cases g.holdsFor (·.truth setting env (s.answering false)) <;>
        cases g.holdsFor (·.truth setting env (s.answering true)) <;> exact .pure rfl
    · refine .seq (guardHolds_ends env g s) ?_
      rintro _ t rfl
      cases g.holdsFor (·.truth setting env s) with
      | true => exact .pure rfl
      | false => exact .change (.pure rfl)

theorem matchCandidate_outcome
    (run : matchCandidate caller args span c setting s = (.ok outcome, t)) :
    (∃ failure, Mixin.bind c.callable.params args = .error failure ∧ outcome = .error failure) ∨
    ∃ binding params u, Mixin.bind c.callable.params args = .ok binding ∧
      parameterFrame binding c.scope caller span setting s = (.ok params, u) ∧
      outcome = .ok (if (⟨c, params, u⟩ : Trial).mayHold setting caller then
        some ((⟨c, params, u⟩ : Trial).expanded setting caller) else none) := by
  unfold matchCandidate at run
  cases bound : Mixin.bind c.callable.params args with
  | error failure =>
    simp only [bound] at run
    cases run
    exact .inl ⟨failure, rfl, rfl⟩
  | ok binding =>
    simp only [bound] at run
    obtain ⟨params, u, entered, tested⟩ := bind_eq_ok run
    obtain ⟨group, _, grouped, result⟩ := bind_eq_ok tested
    cases result
    have values := (defaultGroup_ends _ _ u).result grouped
    refine .inr ⟨binding, params, u, rfl, entered, congrArg Except.ok ?_⟩
    rw [values, apply_ite (Option.map _)]
    rfl

theorem matchCandidates_matched
    (run : matchCandidates caller args span cs setting s = (.ok selection, t)) :
    (Trial.all setting caller args span s cs).map (·.candidate) =
        cs.filter (fun c => Mixin.accepts c.callable.params args) ∧
      selection.matched =
        ((Trial.all setting caller args span s cs).filter (·.mayHold setting caller)).map
          (·.expanded setting caller) := by
  induction cs generalizing s t selection with
  | nil =>
    cases run
    exact ⟨rfl, rfl⟩
  | cons c cs ih =>
    obtain ⟨outcome, u, first, rest⟩ := bind_eq_ok run
    obtain ⟨others, v, later, last⟩ := bind_eq_ok rest
    obtain ⟨candidates, matched⟩ := ih later
    rw [Trial.all, List.filter_cons, Mixin.accepts_eq_isOk, first]
    rcases matchCandidate_outcome first with
      ⟨failure, bound, rfl⟩ | ⟨binding, params, w, bound, entered, rfl⟩
    · cases last
      simp only [bound]
      exact ⟨candidates, matched⟩
    · simp only [bound, entered, List.filter_cons, List.map_cons, candidates]
      refine ⟨rfl, ?_⟩
      cases holds : (⟨c, params, w⟩ : Trial).mayHold setting caller with
      | true =>
        rw [holds] at last
        cases last
        simp only [if_true, List.map_cons, matched]
      | false =>
        rw [holds] at last
        cases last
        simp only [Bool.false_eq_true, if_false, matched]

end Eval

/-! ## The answer of `default()` -/

namespace Trial

variable (trials : List Trial) (setting : Setting) (caller : Environment)

/-- Whether `default()` holds for the call: no guard holds without asking for it. -/
def defaultHolds : Bool :=
  !trials.any (·.needsNoDefault setting caller)

/-- Whether guards contradict each other about `default()`. -/
def ambiguous : Bool :=
  defaultHolds trials setting caller && 1 < trials.countP (·.dependsOnDefault setting caller)

/-- The candidates whose guards hold once `default()` is answered. -/
def selected : List Trial :=
  trials.filter (·.value setting caller (defaultHolds trials setting caller))

end Trial

/-- The group that is expanded beside the plain candidates. -/
def DefaultGroup.answering (answer : Bool) : DefaultGroup :=
  if answer then .whenDefault else .unlessDefault

namespace Trial

variable {trials : List Trial} {setting : Setting} {caller : Environment}

theorem any_plain :
    ((trials.filter (·.mayHold setting caller)).map (·.expanded setting caller)).any
      (·.group == .plain) = !defaultHolds trials setting caller := by
  rw [defaultHolds, Bool.not_not, List.any_map, List.any_filter]
  congr 1
  funext t
  simp only [mayHold, needsNoDefault, expanded, DefaultGroup.ofValues, Function.comp_apply]
  cases t.value setting caller false <;> cases t.value setting caller true <;> rfl

theorem length_mayHold (holds : defaultHolds trials setting caller = true) :
    (trials.filter (·.mayHold setting caller)).length =
      trials.countP (·.dependsOnDefault setting caller) := by
  rw [← List.countP_eq_length_filter]
  refine List.countP_congr fun t member => ?_
  have asks : t.needsNoDefault setting caller = false := by
    rw [defaultHolds, Bool.not_eq_true', List.any_eq_false] at holds
    exact eq_false_of_ne_true (holds t member)
  revert asks
  unfold needsNoDefault mayHold dependsOnDefault
  cases t.value setting caller false <;> cases t.value setting caller true <;> decide

theorem any_mayHold_of_ambiguous (isAmbiguous : ambiguous trials setting caller = true) :
    trials.any (·.mayHold setting caller) = true := by
  rw [ambiguous, Bool.and_eq_true, decide_eq_true_eq] at isAmbiguous
  obtain ⟨t, member, depends⟩ := List.countP_pos_iff.mp (Nat.lt_of_succ_lt isAmbiguous.2)
  refine List.any_eq_true.mpr ⟨t, member, ?_⟩
  revert depends
  unfold dependsOnDefault mayHold
  cases t.value setting caller false <;> cases t.value setting caller true <;> decide

theorem filter_group (answer : Bool) :
    ((trials.filter (·.mayHold setting caller)).map (·.expanded setting caller)).filter
        (fun m => m.group == .plain || m.group == .answering answer) =
      (trials.filter (·.value setting caller answer)).map (·.expanded setting caller) := by
  rw [List.filter_map, List.filter_filter]
  congr 2
  funext t
  simp only [mayHold, expanded, DefaultGroup.ofValues, Function.comp_apply]
  cases answer <;> cases t.value setting caller false <;> cases t.value setting caller true <;> rfl

end Trial

namespace Eval

variable {setting : Setting} {caller : Environment} {s t : Evaluation} {trials : List Trial}

theorem chosenGroup_eq (call : MixinCall) :
    chosenGroup ((trials.filter (·.mayHold setting caller)).map (·.expanded setting caller)) call =
      if Trial.ambiguous trials setting caller then
        failWith (.argumentMismatch call.text "ambiguous use of `default()`")
      else pure (.answering (Trial.defaultHolds trials setting caller)) := by
  unfold chosenGroup Trial.ambiguous
  rw [Trial.any_plain, List.length_map]
  cases holds : Trial.defaultHolds trials setting caller with
  | false => rfl
  | true =>
    rw [Trial.length_mayHold holds]
    simp [DefaultGroup.answering]

theorem mapFailure_congr (same : x setting s = y setting t) (f : Failure → Failure) :
    mapFailure f x setting s = mapFailure f y setting t := by
  simp only [mapFailure, same]

theorem callMixin_matched (evaluate : BlockEvaluator) (env : Environment) (ctx : Context)
    (nesting : Nat)
    (evaluated : evaluateArguments env call.args setting { s with span := call.span } = (.ok args, s₁))
    (found : findCandidates env call.path setting s₁ = (.ok candidates, s₂))
    (matched : (emit (.candidates candidates.length call.text) >>= fun _ =>
      matchCandidates env args call.span candidates) setting s₂ = (.ok selection, s₃))
    (some : selection.matched ≠ []) : callMixin evaluate env ctx nesting call setting s =
      insideOf (fun _ => call.text) (locatedAt call.span
        (chosenGroup selection.matched call >>= fun group =>
          expandAll evaluate { ctx with important := ctx.important || call.important } nesting
            env.innermost?
            (selection.matched.filter fun m => m.group == .plain || m.group == group)))
        setting s₃ := by
  have nonempty : candidates.isEmpty = false := by
    cases candidates with
    | nil =>
      cases matched
      exact absurd rfl some
    | cons c cs => rfl
  have isSome : selection.matched.isEmpty = false := by
    simpa [List.isEmpty_eq_false_iff] using some
  refine mapFailure_congr (mapFailure_congr ?_ _) _
  have afterArguments :
      resolveCall evaluate env ctx nesting call setting { s with span := call.span } = _ :=
    bind_of_ok evaluated
  rw [afterArguments, bind_of_ok found, nonempty, if_neg Bool.false_ne_true, ← bind_assoc,
    bind_of_ok matched, isSome, if_neg Bool.false_ne_true]

end Eval

/-- For every call whose arguments, fallbacks and guards can be evaluated, the candidates whose
    parameters bind the arguments are tried in order. `default()` is true if no guard among them holds
    whatever it answers. If it is true and more than one guard depends on it, the call is ambiguous.
    Otherwise, if any guard can hold, exactly the bodies of the candidates whose guards hold for this
    answer are expanded, each once and in order. This is document order: while indexes are up to date,
    the candidates are the callables that the path leads to in the nearest frame that has any. -/
theorem guards_select_overloads (evaluate : BlockEvaluator) (setting : Setting) (env : Environment)
    (ctx : Context) (nesting : Nat) (call : MixinCall) (s s₁ s₂ s₃ : Evaluation)
    (args : List Argument) (candidates : List Candidate) (selection : Selection)
    (evaluated : evaluateArguments env call.args setting { s with span := call.span } =
      (.ok args, s₁))
    (found : findCandidates env call.path setting s₁ = (.ok candidates, s₂))
    (matched : (emit (.candidates candidates.length call.text) >>= fun _ =>
      matchCandidates env args call.span candidates) setting s₂ = (.ok selection, s₃)) :
    let trials := Trial.all setting env args call.span
      (emit (.candidates candidates.length call.text) setting s₂).2 candidates
    (s.frames.Holds env.chain →
      candidates.map (·.callable) = s.frames.callablesIn call.path env.chain) ∧
    trials.map (·.candidate) =
      candidates.filter (fun c => Mixin.accepts c.callable.params args) ∧
    (Trial.ambiguous trials setting env = true →
      ∃ f, callMixin evaluate env ctx nesting call setting s = (.error f, s₃) ∧
        f.cause = .argumentMismatch call.text "ambiguous use of `default()`") ∧
    (Trial.ambiguous trials setting env = false →
      trials.any (·.mayHold setting env) = true →
        callMixin evaluate env ctx nesting call setting s =
          insideOf (fun _ => call.text) (locatedAt call.span
            (expandAll evaluate { ctx with important := ctx.important || call.important }
              nesting env.innermost?
              ((Trial.selected trials setting env).map (·.expanded setting env)))) setting s₃) := by
  intro trials
  have kept : trials.map (·.candidate) = _ ∧ selection.matched =
      (trials.filter (·.mayHold setting env)).map (·.expanded setting env) :=
    matchCandidates_matched matched
  have resolved := callMixin_matched evaluate env ctx nesting evaluated found matched
  have anyKept : trials.any (·.mayHold setting env) = true → selection.matched ≠ [] := by
    intro mayHold
    rw [kept.2, ne_eq, List.map_eq_nil_iff, List.filter_eq_nil_iff]
    simpa using mayHold
  refine ⟨fun held => ?_, kept.1, fun isAmbiguous => ?_, fun unambiguous mayHold => ?_⟩
  · let located := { s with span := call.span }
    have same : Local setting.options.maxMixinDepth none Frame.Grown located _ :=
      evaluateArguments_local env call.args located
    rw [evaluated] at same
    have heldThen : s₁.frames.Holds env.chain := Frames.Holds.moved (s := located) held same
    rw [((findCandidates_finds env call.path heldThen).result found).1]
    exact same.callablesIn call.path fun id member => (held id member).1
  · rw [resolved (anyKept (Trial.any_mayHold_of_ambiguous isAmbiguous)), kept.2,
      chosenGroup_eq, if_pos isAmbiguous]
    exact ⟨_, rfl, rfl⟩
  · rw [resolved (anyKept mayHold), kept.2, chosenGroup_eq,
      if_neg (by rw [unambiguous]; decide), pure_bind, Trial.filter_group]
    rfl

/-- A mixin without parameters and rules whose guard is one condition on one value. -/
def guardedOverload (negated : Bool) (v : Value) : Rule :=
  .mixin ⟨".m", [], some ⟨[[⟨negated, v, none⟩]]⟩, Span.none⟩ []

/-- `.m() when (default()) { }`, `.m() when not (default()) { }`, `.m() when (true) { }` and
    `.m(@a) { }`, in the only frame. -/
def guardedOverloads : Evaluation :=
  { frames := ⟨#[Frame.ofBlock (.written 0 [])
      [guardedOverload false (.call "default" []), guardedOverload true (.call "default" []),
        guardedOverload false (.keyword "true"), .mixin ⟨".m", [.positional "a"], none, Span.none⟩ []]
      0]⟩ }

/-- `.m();` -/
def overloadCall : MixinCall :=
  ⟨[".m"], [], false, Span.none⟩

def overloadSearch : Except Failure (List Candidate) × Evaluation :=
  findCandidates ⟨[0], []⟩ overloadCall.path {} guardedOverloads

def foundOverloads : List Candidate :=
  overloadSearch.1.toOption.getD []

def overloadTrials : List Trial :=
  Trial.all {} ⟨[0], []⟩ [] Span.none
    (emit (.candidates foundOverloads.length overloadCall.text) {} overloadSearch.2).2
    foundOverloads

theorem overloadSearch_isOk : overloadSearch.1.isOk = true := by
  decide +kernel

/-- What became of the overloads, and the state after it. -/
def overloadMatching : Except Failure Selection × Evaluation :=
  (emit (.candidates foundOverloads.length overloadCall.text) >>= fun _ =>
    matchCandidates ⟨[0], []⟩ [] Span.none foundOverloads) {} overloadSearch.2

theorem overloadMatching_isOk : overloadMatching.1.isOk = true := by
  decide +kernel

theorem eq_ok_of_isOk {run : Except Failure α × Evaluation} (isOk : run.1.isOk = true) (other : α) :
    run = (.ok (run.1.toOption.getD other), run.2) := by
  rcases run with ⟨f | a, s⟩
  · cases isOk
  · rfl

/-- The third overload can do without `default()`, so it is false for all of them. -/
theorem guardedOverloads_selected :
    (overloadTrials.map (·.candidate.callable.site)) =
        [.written 0 [0], .written 0 [1], .written 0 [2]] ∧
      ((Trial.selected overloadTrials {} ⟨[0], []⟩).map (·.candidate.callable.site)) =
        [.written 0 [1], .written 0 [2]] ∧
      foundOverloads.map (·.callable) = guardedOverloads.frames.callablesIn [".m"] [0] ∧
      ∃ s₃, callMixin (blockWithin 1) ⟨[0], []⟩ {} 0 overloadCall {} guardedOverloads =
        insideOf (fun _ => overloadCall.text) (locatedAt Span.none
          (expandAll (blockWithin 1) {} 0 (some 0)
            ((Trial.selected overloadTrials {} ⟨[0], []⟩).map (·.expanded {} ⟨[0], []⟩)))) {} s₃ := by
  refine ⟨by decide +kernel, by decide +kernel, ?_⟩
  have held : guardedOverloads.frames.Holds (Environment.chain ⟨[0], []⟩) := by
    intro id member
    obtain rfl : id = 0 := by simpa [Environment.chain, Environment.allStacks] using member
    exact ⟨by decide, Frame.Fresh.ofPlaced _ _⟩
  have selects := guards_select_overloads (blockWithin 1) {} ⟨[0], []⟩ {} 0 overloadCall
    guardedOverloads guardedOverloads overloadSearch.2 overloadMatching.2 [] foundOverloads
    (overloadMatching.1.toOption.getD {}) rfl (eq_ok_of_isOk overloadSearch_isOk [])
    (eq_ok_of_isOk overloadMatching_isOk {})
  refine ⟨selects.1 held, overloadMatching.2, ?_⟩
  exact selects.2.2.2 (by decide +kernel) (by decide +kernel)

end StyleResolution
