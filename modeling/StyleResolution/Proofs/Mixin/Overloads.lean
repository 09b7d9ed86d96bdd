import StyleResolution.Proofs.Evaluation.Log
import StyleResolution.Proofs.Mixin.Guards

/-! # Overloads that reject the arguments

A call is compared with the call whose candidates are only those that take its arguments. The
candidates that reject the arguments leave nothing behind but events in the log, and the log is never
read, so both calls go on in the same way as soon as a guard holds.

If no guard holds, the rejections are looked at: one that is an argument error is reported although
another overload took the arguments, where nothing is expanded without it.
-/

namespace StyleResolution

open Eval

namespace Candidate

def takes (args : List Argument) (c : Candidate) : Bool :=
  Mixin.accepts c.callable.params args

def rejection? (args : List Argument) (c : Candidate) : Option Mixin.MatchFailure :=
  match Mixin.bind c.callable.params args with
  | .error failure => some failure
  | .ok _ => none

def rejections (args : List Argument) (candidates : List Candidate) : List Mixin.MatchFailure :=
  candidates.filterMap (rejection? args)

theorem takes_of_bind_ok {c : Candidate} (bound : Mixin.bind c.callable.params args = .ok binding) :
    c.takes args = true := by
  rw [takes, Mixin.accepts_eq_isOk, bound]
  rfl

theorem takes_of_bind_error {args : List Argument} {c : Candidate} {failure : Mixin.MatchFailure}
    (bound : Mixin.bind c.callable.params args = .error failure) : c.takes args = false := by
  rw [takes, Mixin.accepts_eq_isOk, bound]
  rfl

theorem rejection?_isSome (args : List Argument) (c : Candidate) :
    (c.rejection? args).isSome = !c.takes args := by
  cases bound : Mixin.bind c.callable.params args with
  | ok binding => simp [rejection?, bound, takes_of_bind_ok bound]
  | error failure => simp [rejection?, bound, takes_of_bind_error bound]

theorem length_rejections_lt (taken : candidates.any (takes args) = true) :
    (rejections args candidates).length < candidates.length := by
  obtain ⟨c, member, takes⟩ := List.any_eq_true.mp taken
  rw [rejections, List.length_filterMap_eq_countP, List.countP_eq_length_filter]
  refine List.length_filter_lt_length_iff_exists.mpr ⟨c, member, ?_⟩
  simp [rejection?_isSome, takes]

@[simp] theorem rejections_filter_takes (args : List Argument) (candidates : List Candidate) :
    rejections args (candidates.filter (takes args)) = [] := by
  refine List.filterMap_eq_nil_iff.mpr fun c member => ?_
  rw [← Option.not_isSome_iff_eq_none, rejection?_isSome, (List.mem_filter.mp member).2]
  decide

end Candidate

namespace Eval

variable {setting : Setting} {caller : Environment} {args : List Argument} {span : Span}
  {s t : Evaluation}

/-! ## Matching without the rejected candidates -/

theorem matchCandidates_endsLike (caller : Environment) (args : List Argument) (span : Span)
    (candidates : List Candidate) (same : s.unlogged = t.unlogged) :
    EndsLike setting s t (matchCandidates caller args span candidates)
      (matchCandidates caller args span (candidates.filter (·.takes args)) >>= fun selection =>
        pure { selection with failures := Candidate.rejections args candidates }) := by
  induction candidates generalizing s t with
  | nil => exact .pure same
  | cons c cs ih =>
    cases bound : Mixin.bind c.callable.params args with
    | error failure =>
      have rejected : matchCandidate caller args span c =
          emit (.rejected c.callable.name failure) >>= fun _ => pure (.error failure) := by
        unfold matchCandidate
        simp only [bound]
      have others : Candidate.rejections args (c :: cs) =
          failure :: Candidate.rejections args cs :=
        List.filterMap_cons_some (by rw [Candidate.rejection?, bound])
      rw [List.filter_cons_of_neg (by simp [Candidate.takes_of_bind_error bound]), others,
        matchCandidates, rejected]
      let noted := { s with events := s.events.push (.rejected c.callable.name failure) }
      have later := (ih (s := noted) same).bind_pure fun others =>
        { others with failures := failure :: others.failures }
      rwa [bind_assoc] at later
    | ok binding =>
      have others : Candidate.rejections args (c :: cs) = Candidate.rejections args cs :=
        List.filterMap_cons_none (by rw [Candidate.rejection?, bound])
      rw [List.filter_cons_of_pos (Candidate.takes_of_bind_ok bound), others, matchCandidates,
        matchCandidates, bind_assoc]
      refine ((IgnoresLog.calls.matchCandidate caller args span c).endsLike setting same).bind ?_
      intro outcome s' t' run same
      obtain ⟨kept, rfl⟩ : ∃ kept, outcome = .ok kept := by
        rcases matchCandidate_outcome run with ⟨failure, refused, -⟩ | ⟨_, _, _, -, -, tested⟩
        · rw [bound] at refused
          cases refused
        · exact ⟨_, tested⟩
      cases kept with
      | none =>
        have later := (ih same).bind_pure fun others => others
        simpa only [bind_assoc, pure_bind] using later
      | some found =>
        have later := (ih same).bind_pure fun others =>
          { others with matched := found :: others.matched }
        simpa only [bind_assoc, pure_bind] using later

theorem matchCandidates_failures
    (run : matchCandidates caller args span candidates setting s = (.ok selection, t)) :
    selection.failures = Candidate.rejections args candidates := by
  have ends : EndsLike setting s s _ _ := matchCandidates_endsLike caller args span candidates rfl
  obtain ⟨others, _, _, last⟩ := bind_eq_ok (Prod.ext (ends.1.symm.trans (by rw [run])) rfl)
  cases last
  rfl

/-! ## Calls among some of their candidates -/

def expandMatched (evaluate : BlockEvaluator) (env : Environment) (ctx : Context) (nesting : Nat)
    (call : MixinCall) (matched : List MatchedCandidate) : Eval Output := do
  let group ← chosenGroup matched call
  expandAll evaluate { ctx with important := ctx.important || call.important } nesting
    env.innermost? (matched.filter fun m => m.group == .plain || m.group == group)

def resolveAmong (evaluate : BlockEvaluator) (env : Environment) (ctx : Context) (nesting : Nat)
    (call : MixinCall) (args : List Argument) (candidates : List Candidate) : Eval Output :=
  if candidates.isEmpty then
    failWith (.mixinNotFound (Text.join " > " call.path))
  else do
    emit (.candidates candidates.length call.text)
    let selection ← matchCandidates env args call.span candidates
    if selection.matched.isEmpty then
      unmatched call candidates.length selection.failures
    else
      expandMatched evaluate env ctx nesting call selection.matched

def callKeeping (keep : List Argument → Candidate → Bool) (evaluate : BlockEvaluator)
    (env : Environment) (ctx : Context) (nesting : Nat) (call : MixinCall) : Eval Output := do
  setSpan call.span
  insideOf (fun _ => call.text) (locatedAt call.span do
    let args ← evaluateArguments env call.args
    let candidates ← findCandidates env call.path
    resolveAmong evaluate env ctx nesting call args (candidates.filter (keep args)))

theorem callKeeping_all : callKeeping (fun _ _ => true) = callMixin := by
  funext evaluate env ctx nesting call
  simp only [callKeeping, List.filter_true]
  rfl

theorem mapFailure_apply (f : Failure → Failure) (x : Eval α) (setting : Setting) (s : Evaluation) :
    mapFailure f x setting s = ((x setting s).1.mapError f, (x setting s).2) := by
  unfold mapFailure
  rcases x setting s with ⟨g | a, t⟩ <;> rfl

theorem callKeeping_found (keep : List Argument → Candidate → Bool) (evaluate : BlockEvaluator)
    (env : Environment) (ctx : Context) (nesting : Nat) {call : MixinCall}
    {candidates : List Candidate} {s₁ s₂ : Evaluation}
    (evaluated : evaluateArguments env call.args setting { s with span := call.span } =
      (.ok args, s₁))
    (found : findCandidates env call.path setting s₁ = (.ok candidates, s₂)) :
    let resolved :=
      resolveAmong evaluate env ctx nesting call args (candidates.filter (keep args)) setting s₂
    callKeeping keep evaluate env ctx nesting call setting s =
      (resolved.1.mapError fun f => (f.located call.span).inside call.text, resolved.2) := by
  have resolves : (do
      let args ← evaluateArguments env call.args
      let candidates ← findCandidates env call.path
      resolveAmong evaluate env ctx nesting call args (candidates.filter (keep args)))
        setting { s with span := call.span } =
      resolveAmong evaluate env ctx nesting call args (candidates.filter (keep args))
        setting s₂ := by
    rw [bind_of_ok evaluated, bind_of_ok found]
  change mapFailure _ (mapFailure _ _) setting { s with span := call.span } = _
  rw [mapFailure_apply, mapFailure_apply, resolves]
  rcases resolveAmong evaluate env ctx nesting call args (candidates.filter (keep args)) setting s₂
    with ⟨f | output, t⟩ <;> rfl

/-! ## What the rejections are good for -/

/-- What a call comes to where no guard holds, by the rejections of the other candidates. -/
def blame (call : MixinCall) (rejections : List Mixin.MatchFailure) : Except Failure Output :=
  match rejections.find? (·.isArgumentError) with
  | some failure => .error { cause := .argumentMismatch call.text failure.message }
  | none => .ok {}

/-- If some candidate took the arguments, only an argument error can make a call fail that nothing
    matches. -/
theorem unmatched_endsLike (call : MixinCall) (fewer : rejections.length < candidates)
    (same : s.unlogged = t.unlogged) :
    EndsLike setting s t (unmatched call candidates rejections) (ofExcept (blame call rejections)) := by
  unfold unmatched blame
  rw [if_neg (by simpa using Nat.ne_of_lt fewer)]
  cases rejections.find? (·.isArgumentError) <;> exact ⟨rfl, same⟩

theorem expandMatched_ignoresLog (evaluates : ∀ env ctx, IgnoresLog (evaluate env ctx))
    (env : Environment) (ctx : Context) (nesting : Nat) (call : MixinCall)
    (matched : List MatchedCandidate) :
    IgnoresLog (expandMatched evaluate env ctx nesting call matched) :=
  .bind (IgnoresLog.composes.chosenGroup (fun _ _ => .failWith _) matched call) fun _ =>
    @Composes.Blocks.expandAll _ IgnoresLog.blocks evaluate evaluate evaluates _ _ _ _

/-- If some candidate takes the arguments, a call depends on the candidates that take them, and on
    the rejections of the other ones. -/
theorem resolveAmong_endsLike (evaluates : ∀ env ctx, IgnoresLog (evaluate env ctx))
    (env : Environment) (ctx : Context) (nesting : Nat) (call : MixinCall)
    (taken : candidates.any (·.takes args) = true) (setting : Setting) (s : Evaluation) :
    EndsLike setting s s (resolveAmong evaluate env ctx nesting call args candidates)
      (matchCandidates env args call.span (candidates.filter (·.takes args)) >>= fun selection =>
        if selection.matched.isEmpty then
          ofExcept (blame call (Candidate.rejections args candidates))
        else expandMatched evaluate env ctx nesting call selection.matched) := by
  have some : candidates.isEmpty ≠ true := by
    rintro isEmpty
    rw [List.isEmpty_iff.mp isEmpty] at taken
    cases taken
  rw [resolveAmong, if_neg some]
  let noted := { s with events := s.events.push (.candidates candidates.length call.text) }
  let goOn (report : Selection → Eval Output) (selection : Selection) : Eval Output :=
    if selection.matched.isEmpty then report selection
    else expandMatched evaluate env ctx nesting call selection.matched
  have goesOn : EndsLike setting noted s
      (matchCandidates env args call.span candidates >>=
        goOn fun selection => unmatched call candidates.length selection.failures)
      ((matchCandidates env args call.span (candidates.filter (·.takes args)) >>= fun selection =>
          pure { selection with failures := Candidate.rejections args candidates }) >>=
        goOn fun selection => ofExcept (blame call selection.failures)) := by
    have same : noted.unlogged = s.unlogged := rfl
    refine (matchCandidates_endsLike env args call.span candidates same).bind ?_
    intro selection s' t' run same
    dsimp only [goOn]
    split
    · refine unmatched_endsLike call ?_ same
      rw [matchCandidates_failures run]
      exact Candidate.length_rejections_lt taken
    · exact (expandMatched_ignoresLog evaluates env ctx nesting call _).endsLike setting same
  rwa [bind_assoc] at goesOn

/-- Every fallback and guard of the candidates can be evaluated, and no guard holds, whatever
    `default()` answers. -/
def guardsFail (setting : Setting) (caller : Environment) (args : List Argument) (span : Span)
    (s : Evaluation) (candidates : List Candidate) : Bool :=
  (matchCandidates caller args span candidates setting s).1.isOk &&
    !(Trial.all setting caller args span s candidates).any (·.mayHold setting caller)

theorem guardsFail_iff
    (run : matchCandidates caller args span candidates setting s = (.ok selection, t)) :
    guardsFail setting caller args span s candidates = true ↔ selection.matched = [] := by
  rw [guardsFail, run, (matchCandidates_matched run).2, List.map_eq_nil_iff,
    List.filter_eq_nil_iff]
  simp [Except.isOk, Except.toBool]

theorem ofExcept_apply (outcome : Except Failure α) (setting : Setting) (s : Evaluation) :
    ofExcept outcome setting s = (outcome, s) := by
  cases outcome <;> rfl

theorem resolveAmong_takes (evaluates : ∀ env ctx, IgnoresLog (evaluate env ctx))
    (env : Environment) (ctx : Context) (nesting : Nat) (call : MixinCall)
    (taken : candidates.any (·.takes args) = true) (setting : Setting) (s : Evaluation) :
    let fitting := candidates.filter (·.takes args)
    let whole := resolveAmong evaluate env ctx nesting call args candidates setting s
    let alone := resolveAmong evaluate env ctx nesting call args fitting setting s
    whole.2.unlogged = alone.2.unlogged ∧
    (guardsFail setting env args call.span s fitting = false → whole.1 = alone.1) ∧
    (guardsFail setting env args call.span s fitting = true →
      alone.1 = .ok {} ∧ whole.1 = blame call (Candidate.rejections args candidates)) := by
  intro fitting whole alone
  have takenToo : fitting.any (·.takes args) = true := by
    simpa [fitting] using taken
  have fitToo : fitting.filter (·.takes args) = fitting := by
    simp [fitting]
  have wholeEnds : EndsLike setting s s _ (matchCandidates env args call.span fitting >>= _) :=
    resolveAmong_endsLike evaluates env ctx nesting call taken setting s
  have aloneEnds := resolveAmong_endsLike evaluates env ctx nesting call takenToo setting s
  rw [fitToo, Candidate.rejections_filter_takes] at aloneEnds
  simp only [EndsLike, bind_apply] at wholeEnds aloneEnds
  rcases run : matchCandidates env args call.span fitting setting s with ⟨f | selection, t⟩ <;>
    rw [run] at wholeEnds aloneEnds
  · have cannot : guardsFail setting env args call.span s fitting = false := by
      rw [guardsFail, run]
      rfl
    exact ⟨wholeEnds.2.trans aloneEnds.2.symm, fun _ => wholeEnds.1.trans aloneEnds.1.symm,
      fun failed => by simp [cannot] at failed⟩
  · have failed := guardsFail_iff run
    by_cases none : selection.matched = []
    · simp only [none, List.isEmpty_nil, if_true, ofExcept_apply] at wholeEnds aloneEnds
      refine ⟨wholeEnds.2.trans aloneEnds.2.symm, fun some => ?_, fun _ => ⟨aloneEnds.1, wholeEnds.1⟩⟩
      rw [failed.mpr none] at some
      cases some
    · simp only [List.isEmpty_iff, none, if_false] at wholeEnds aloneEnds
      exact ⟨wholeEnds.2.trans aloneEnds.2.symm, fun _ => wholeEnds.1.trans aloneEnds.1.symm,
        fun fails => absurd (failed.mp fails) none⟩

end Eval

/-- If some candidate of a call takes the arguments, the candidates that reject them matter only
    where no guard of the others holds. Elsewhere the call ends as if they were not there, with the
    same output or the same failure. Where no guard holds, the call without them expands to nothing;
    with them, it fails if one of them rejects the arguments for their number or for a name, and the
    first such rejection is its reason. The states differ in their logs at most, so the exports are
    always the same. -/
theorem rejections_matter_only_where_guards_fail (n : Nat) (setting : Setting) (env : Environment)
    (ctx : Context) (nesting : Nat) (call : MixinCall) (s s₁ s₂ : Evaluation) (args : List Argument)
    (candidates : List Candidate)
    (evaluated : evaluateArguments env call.args setting { s with span := call.span } =
      (.ok args, s₁))
    (found : findCandidates env call.path setting s₁ = (.ok candidates, s₂))
    (taken : candidates.any (·.takes args) = true) :
    let fitting := candidates.filter (·.takes args)
    let whole := callMixin (blockWithin n) env ctx nesting call setting s
    let alone := callKeeping Candidate.takes (blockWithin n) env ctx nesting call setting s
    whole.2.unlogged = alone.2.unlogged ∧
    (guardsFail setting env args call.span s₂ fitting = false → whole.1 = alone.1) ∧
    (guardsFail setting env args call.span s₂ fitting = true →
      alone.1 = .ok {} ∧
      whole.1 = match (Candidate.rejections args candidates).find? (·.isArgumentError) with
        | some failure =>
          .error
            { cause := .argumentMismatch call.text failure.message
              span := some call.span
              trail := [call.text] }
        | none => .ok {}) := by
  intro fitting whole alone
  have wholeRuns := callKeeping_found (fun _ _ => true) (blockWithin n) env ctx nesting
    evaluated found
  rw [callKeeping_all, List.filter_true] at wholeRuns
  have aloneRuns := callKeeping_found Candidate.takes (blockWithin n) env ctx nesting
    evaluated found
  obtain ⟨states, outcomes, failing⟩ := resolveAmong_takes (blockWithin_ignoresLog n) env
    ctx nesting call taken setting s₂
  simp only [whole, alone, wholeRuns, aloneRuns]
  refine ⟨states, fun holds => ?_, fun fails => ?_⟩
  · rw [outcomes holds]
  · obtain ⟨nothing, blamed⟩ := failing fails
    rw [nothing, blamed, blame]
    refine ⟨rfl, ?_⟩
    cases (Candidate.rejections args candidates).find? (·.isArgumentError) <;> rfl

/-- `.m(@a) when (answer) { x: @a; }` and `.m(@a, @b) { }`, in the only frame. -/
def arityOverloads (answer : String) : Evaluation :=
  { frames := ⟨#[Frame.ofBlock (.written 0 [])
      [.mixin ⟨".m", [.positional "a"], some ⟨[[⟨false, .keyword answer, none⟩]]⟩, Span.none⟩
          [.declaration ⟨"x", .variable "a", false, Span.none⟩],
        .mixin ⟨".m", [.positional "a", .positional "b"], none, Span.none⟩ []] 0]⟩ }

/-- `.m(k);` -/
def arityCall : MixinCall :=
  ⟨[".m"], [⟨none, .keyword "k"⟩], false, Span.none⟩

def aritySearch (answer : String) : Except Failure (List Candidate) × Evaluation :=
  findCandidates ⟨[0], []⟩ arityCall.path {} (arityOverloads answer)

def arityCandidates (answer : String) : List Candidate :=
  (aritySearch answer).1.toOption.getD []

theorem aritySearch_isOk : (aritySearch "true").1.isOk = true ∧ (aritySearch "false").1.isOk = true := by
  decide +kernel

def arityWhole (answer : String) : Except Failure Output × Evaluation :=
  callMixin (blockWithin 1) ⟨[0], []⟩ {} 0 arityCall {} (arityOverloads answer)

def arityAlone (answer : String) : Except Failure Output × Evaluation :=
  callKeeping Candidate.takes (blockWithin 1) ⟨[0], []⟩ {} 0 arityCall {}
    (arityOverloads answer)

/-- The overload with two parameters is without effect where the guard of the other one holds, and is
    blamed where it does not. -/
theorem arityOverloads_matter_where_guard_fails :
    (arityWhole "true").1 = (arityAlone "true").1 ∧
    (arityAlone "false").1 = .ok {} ∧
    (arityWhole "false").1 = .error
      { cause := .argumentMismatch ".m(k)" "expected at least 2 argument(s), got 1"
        span := some Span.none
        trail := [".m(k)"] } := by
  have holding := rejections_matter_only_where_guards_fail 1 {} ⟨[0], []⟩ {} 0 arityCall
    (arityOverloads "true") (arityOverloads "true") (aritySearch "true").2 arityCall.args
    (arityCandidates "true") rfl (eq_ok_of_isOk aritySearch_isOk.1 []) (by decide +kernel)
  have failing := rejections_matter_only_where_guards_fail 1 {} ⟨[0], []⟩ {} 0 arityCall
    (arityOverloads "false") (arityOverloads "false") (aritySearch "false").2 arityCall.args
    (arityCandidates "false") rfl (eq_ok_of_isOk aritySearch_isOk.2 []) (by decide +kernel)
  have first : ((Candidate.rejections arityCall.args (arityCandidates "false")).find?
      (·.isArgumentError)).map (·.message) = some "expected at least 2 argument(s), got 1" := by
    decide +kernel
  obtain ⟨failure, isFirst, message⟩ := Option.map_eq_some_iff.mp first
  obtain ⟨nothing, blamed⟩ := failing.2.2 (by decide +kernel)
  rw [isFirst] at blamed
  refine ⟨holding.2.1 (by decide +kernel), nothing, blamed.trans ?_⟩
  have text : arityCall.text = ".m(k)" := by decide +kernel
  simp only [message, text]
  rfl

/-- The guard of the overload that takes the argument does not hold. The call fails for the other
    overload, and would not fail without it. -/
theorem arityOverload_is_blamed :
    (arityCandidates "false").any (·.takes arityCall.args) = true ∧
      (arityWhole "false").1.isOk = false ∧ (arityAlone "false").1.isOk = true := by
  decide +kernel

end StyleResolution
