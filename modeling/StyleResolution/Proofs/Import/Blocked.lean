import Mathlib.Logic.Relation
import StyleResolution.Proofs.Evaluation.Coincidence
import StyleResolution.Proofs.Import.Replacement

/-! # Blocked imports

A deferred import is blocked while its path names an undefined variable. The path is evaluated
before anything else happens, and the imports of a file that is opened are either queued or have
paths without variables. So an attempt that fails for an undefined variable has changed nothing, and
may be repeated later.

A pass that makes no progress therefore leaves the root as it was. What blocked its imports then
still does, and another pass would end in the same way: giving up is right.
-/

namespace StyleResolution

/-- Names may have been looked up between the two states, and evaluation may stand at another place:
    all frames have the rules they had, and nothing has happened to the importer. -/
structure Undisturbed (s s' : Evaluation) : Prop where
  size : s'.frames.size = s.frames.size
  frame : ∀ id, (s.frames.get id).Indexed (s'.frames.get id)
  importer : s'.importer = s.importer
  restored : s'.scopedPart = s.scopedPart

namespace Undisturbed

theorem refl (s : Evaluation) : Undisturbed s s :=
  ⟨rfl, fun _ => .refl _, rfl, rfl⟩

theorem trans (first : Undisturbed s t) (second : Undisturbed t u) : Undisturbed s u where
  size := second.size.trans first.size
  frame id := (first.frame id).trans (second.frame id)
  importer := second.importer.trans first.importer
  restored := second.restored.trans first.restored

instance : IsPreorder Evaluation Undisturbed where
  refl := refl
  trans _ _ _ := trans

theorem entryAt (h : Undisturbed s s') (id : FrameId) (position : Nat) :
    (s'.frames.get id).entryAt position = (s.frames.get id).entryAt position := by
  simp only [Frame.entryAt_eq, (h.frame id).entries]

end Undisturbed

theorem Quiet.undisturbed (quiet : Quiet s s') : Undisturbed s s' :=
  ⟨quiet.size, quiet.frame, quiet.importer, quiet.restored⟩

theorem Undisturbed.sameScope (h : Undisturbed s t) (env : Environment) :
    SameScope Eq True env env s t := by
  have restored := h.restored
  simp only [Evaluation.scopedPart, Scoped.mk.injEq] at restored
  constructor
  · exact .eq
  · exact List.forall₂_same.mpr fun id _ => .of_eq (h.frame id).names.symm
  · simp [Evaluation.scopeSize, ← Frame.length_entries, (h.frame _).entries]
  · simp [restored]
  · simp [restored]
  · simp [restored]

theorem SameScope.refl (env : Environment) (s : Evaluation) : SameScope Eq True env env s s :=
  (Undisturbed.refl s).sameScope env

def Import.BlockedIn (i : Import) (setting : Setting) (env : Environment) (s : Evaluation) : Prop :=
  ∃ f, (Eval.value env i.path setting s).1 = .error f ∧ f.isUndefinedVariable = true

def DeferredImport.StandsIn (d : DeferredImport) (root : FrameId) (s : Evaluation) (i : Import) :
    Prop :=
  ∃ site nesting,
    (s.frames.get root).entryAt d.location = some ⟨⟨.fileImport i, site⟩, nesting⟩

theorem Undisturbed.standsIn_iff (h : Undisturbed s s') {d : DeferredImport} :
    d.StandsIn root s' i ↔ d.StandsIn root s i := by
  simp only [DeferredImport.StandsIn, h.entryAt]

theorem Import.BlockedIn.congr {i : Import} (blocked : i.BlockedIn setting env s)
    (same : SameScope Eq True env env s t) : i.BlockedIn setting env t := by
  obtain ⟨f, failed, undefined⟩ := blocked
  have alike : Eval.Alike Eq True env env setting s t (Eval.value env i.path)
      (Eval.value env i.path) := Eval.value_alike i.path same
  have related := alike trivial
  rcases run : Eval.value env i.path setting s with ⟨g | a, s'⟩
  · rcases runToo : Eval.value env i.path setting t with ⟨h | b, t'⟩
    · rw [run, runToo] at related
      rw [run] at failed
      simp only [Except.error.injEq] at failed
      subst failed
      have cause : g.cause = h.cause := by
        simpa [Proviso.Relates, Proviso.Excuses] using related
      refine ⟨h, by rw [runToo], ?_⟩
      simpa only [Failure.isUndefinedVariable, cause] using undefined
    · rw [run, runToo] at related
      exact absurd trivial related.1
  · rw [run] at failed
    cases failed

namespace Eval

variable {α : Type} {setting : Setting} {s : Evaluation}

/-! ## Attempts that fail for an undefined variable -/

def OfDefined (cause : Cause) : Prop :=
  ∀ name, cause ≠ .undefinedVariable name

theorem OfDefined.isUndefinedVariable {f : Failure} (defined : OfDefined f.cause) :
    f.isUndefinedVariable = false := by
  unfold Failure.isUndefinedVariable
  cases cause : f.cause with
  | undefinedVariable name => exact absurd cause (defined name)
  | _ => rfl

theorem OfDefined.of_opening (opening : OfOpening cause) : OfDefined cause := by
  rintro name rfl
  exact opening

theorem replaceImport_fails {id : FrameId} {env : Environment} {i : Import}
    {failed : Failure → Evaluation → Prop}
    (path : Ends setting s (importPath env i) (fun _ _ => True) failed) (position : Nat)
    (site : Site) :
    Ends setting s (replaceImport id env position site i) (fun _ _ => True) fun f s' =>
      failed f s' ∨ OfDefined f.cause := by
  refine path.bind ?_ ?_
  · intro found t _
    have opening := ((openImport_failsOnly i found.2).noteOpening i found.2).locatedAt i.span
    refine Ends.bind (opening.ends setting t) ?_ ?_
    · intro opened t' _
      cases opened <;> trivial
    · intro f t' ofOpening
      exact .inr (.of_opening ofOpening)
  · intro f t blocked
    exact .inl blocked

/-- So it is for all that comes of an import, if expanding the imports of its file does not fail
    for an undefined variable either. -/
theorem spliceImport_fails {expandAt : Nat → Nat → Eval Nat}
    (expands : ∀ position count, FailsOnly OfDefined (expandAt position count)) {id : FrameId}
    {env : Environment} {i : Import} {failed : Failure → Evaluation → Prop}
    (path : Ends setting s (importPath env i) (fun _ _ => True) failed) (position : Nat)
    (site : Site) :
    Ends setting s (spliceImport expandAt id env position site i) (fun _ _ => True) fun f s' =>
      failed f s' ∨ OfDefined f.cause := by
  apply (replaceImport_fails path position site).seq
  intro replaced t _
  cases replaced with
  | settled count => trivial
  | opened count =>
    have expanded : FailsOnly OfDefined (whileImporting (expandAt position count)) :=
      (expands position count).between
    refine Ends.bind (expanded.ends setting t) ?_ ?_
    · intro stop t' _
      trivial
    · intro f t' defined
      exact .inr defined

theorem expandRange_failsOnly
    (expands : ∀ position count, FailsOnly OfDefined (expandAt position count)) (id : FrameId)
    (env : Environment) (position count : Nat) :
    FailsOnly OfDefined (expandRange expandAt id env true position count) := by
  induction count generalizing position with
  | zero => exact .pure _
  | succ count ih =>
    unfold expandRange
    have read : FailsOnly OfDefined (frame id) := FailsOnly.ofState.bind fun _ => .pure _
    apply read.bind
    intro f
    split
    · rename_i i site nesting _
      cases interpolated : i.isInterpolated with
      | true => exact (FailsOnly.emit _).bind fun _ => (FailsOnly.change _).bind fun _ => ih _
      | false =>
        have splicing : FailsOnly OfDefined (spliceImport expandAt id env position site i) := by
          apply FailsOnly.of_ends
          intro setting s
          have never := (importPath_resolved env interpolated).ends setting s
          exact (spliceImport_fails expands never position site).mono (fun _ _ h => h)
            fun _ _ h => h.resolve_left not_false
        exact splicing.bind fun _ => ih _
    · exact ih _

/-- Where imports with variables in their paths are queued, expanding never fails for an undefined
    one. -/
theorem expandWithin_failsOnly (id : FrameId) (env : Environment) (levels position count : Nat) :
    FailsOnly OfDefined (expandWithin id env true levels position count) := by
  induction levels generalizing position count with
  | zero => exact .failWith nofun
  | succ levels ih => exact expandRange_failsOnly ih id env position count

theorem importPath_blocked (env : Environment) (i : Import) :
    Ends setting s (importPath env i) (fun _ _ => True) fun f s' =>
      f.isUndefinedVariable = true → Undisturbed s s' ∧ i.BlockedIn setting env s := by
  have quiet := (value_quiet env i.path).ends setting { s with span := i.span }
  have same : SameScope Eq True env env { s with span := i.span } s :=
    { SameScope.refl env s with }
  have evaluated : Ends setting { s with span := i.span } (locatedAt i.span (value env i.path))
      (fun _ _ => True) fun f s' =>
        f.isUndefinedVariable = true → Undisturbed s s' ∧ i.BlockedIn setting env s := by
    apply Ends.mapFailure
    rw [Ends.iff_cases]
    constructor
    · intro path t _
      trivial
    · intro f t run undefined
      have undisturbed : Undisturbed s t := { (quiet.failure run).undisturbed with }
      exact ⟨undisturbed, Import.BlockedIn.congr ⟨f, by rw [run], undefined⟩ same⟩
  apply Ends.change
  apply evaluated.seq
  intro path t _
  cases path <;> trivial

/-- An attempt that fails for an undefined variable has changed nothing, and the variable is one of
    the path of the import. -/
theorem tryDeferred_blocked (root : FrameId) (d : DeferredImport) (site : Site) (i : Import) :
    Ends setting s (tryDeferred root d site i)
      (fun outcome s' => ∀ f, outcome = .error f → f.isUndefinedVariable = true →
        Undisturbed s s' ∧ i.BlockedIn setting d.scope s)
      fun _ _ => False := by
  apply Ends.ofSetting
  apply Ends.ofState
  apply Ends.between
  apply Ends.attempt
  have path : Ends setting { s with importer := { s.importer with baseDepth := d.depth } }
      (importPath d.scope i) _ _ := importPath_blocked d.scope i
  have expands := expandWithin_failsOnly root d.scope (setting.options.maxImportDepth + 1)
  refine (spliceImport_fails expands path d.location site).mono ?_ ?_
  · intro count t _ f outcome
    cases outcome
  · intro g t ended f outcome undefined
    cases outcome
    cases ended with
    | inr defined =>
      rw [defined.isUndefinedVariable] at undefined
      cases undefined
    | inl blocked =>
      obtain ⟨undisturbed, blocked⟩ := blocked undefined
      have importer := undisturbed.importer
      have restored := undisturbed.restored
      simp only [Evaluation.scopedPart, Scoped.mk.injEq] at restored
      constructor
      · constructor
        · exact undisturbed.size
        · exact undisturbed.frame
        · simp only [importer]
        · simp [Evaluation.scopedPart, restored]
      · apply blocked.congr
        exact { SameScope.refl d.scope s with }

/-! ## Passes without progress -/

/-- The state with an empty queue. -/
def emptied (s : Evaluation) : Evaluation :=
  { s with importer := { s.importer with deferred := [] } }

theorem takeDeferred_run : takeDeferred setting s = (.ok s.importer.deferred, emptied s) :=
  rfl

/-- Putting the imports that were queued before back into the queue undoes emptying it. -/
theorem undisturbed_of_emptied (h : Undisturbed (emptied s) t) (events : Array Event) :
    Undisturbed s { t with
      events
      importer := { t.importer with deferred := t.importer.deferred ++ s.importer.deferred } } := by
  have importer := h.importer
  have restored := h.restored
  simp only [Evaluation.scopedPart, Scoped.mk.injEq, emptied] at restored
  constructor
  · exact h.size
  · exact h.frame
  · simp [importer, emptied]
  · simp [Evaluation.scopedPart, restored]

def Pass.block (pass : Pass) (d : DeferredImport) (f : Failure) : Pass :=
  { pass with blocked := pass.blocked ++ [d], firstFailure := pass.firstFailure.or (some f) }

theorem replayPass_cons_blocked
    (found : (s.frames.get root).entryAt d.location = some ⟨⟨.fileImport i, site⟩, nesting⟩)
    (tried : tryDeferred root d site i setting (emptied s) = (.ok (.error f), t))
    (undefined : f.isUndefinedVariable = true) (rest : List DeferredImport) (pass : Pass) :
    ∃ t', Undisturbed s t' ∧ replayPass root (d :: rest) pass setting s =
      replayPass root rest (pass.block d f) setting t' := by
  have undisturbed := ((tryDeferred_blocked root d site i).result tried f rfl undefined).1
  have requeued := undisturbed_of_emptied undisturbed
    (t.events.push (.stillBlocked i.path f.cause))
  refine ⟨_, requeued, ?_⟩
  unfold emptied at tried
  rw [replayPass]
  simp only [bind_apply, frame, state, pure_apply, found, takeDeferred, tried, undefined, if_true]
  rfl

def AllBlocked (setting : Setting) (root : FrameId) (s : Evaluation) (queue : List DeferredImport) :
    Prop :=
  ∀ d ∈ queue, ∀ i, d.StandsIn root s i → i.BlockedIn setting d.scope s

/-- A pass that makes no progress has changed nothing, and all of its imports are blocked. If it
    has met with a failure, it is about one of them. -/
theorem replayPass_stuck (root : FrameId) (pending : List DeferredImport) (pass : Pass) :
    Ends setting s (replayPass root pending pass)
      (fun pass' s' => pass'.progressed = false →
        pass.progressed = false ∧ Undisturbed s s' ∧ AllBlocked setting root s' pending ∧
          ((∃ d ∈ pending, ∃ i, d.StandsIn root s' i) ∨ pass'.firstFailure = pass.firstFailure))
      fun f _ => f.isUndefinedVariable = false := by
  fun_induction replayPass root pending pass generalizing s with
  | case1 pass =>
    apply Ends.pure
    intro stuck
    exact ⟨stuck, .refl s, by simp [AllBlocked], .inr rfl⟩
  | case2 pass d rest expanded blocked gone =>
    apply Ends.ofState
    split
    · rename_i i site nesting found
      apply Ends.bind_of_ok takeDeferred_run
      apply Ends.bind_of_run
      · intro outcome t tried
        cases outcome with
        | ok inserted =>
          apply Ends.bind_of_ok takeDeferred_run
          apply Ends.change
          apply (expanded inserted).imp
          intro pass' s' ended stuck
          cases (ended stuck).1
        | error f =>
          dsimp only
          split
          · rename_i undefined
            have tries := (tryDeferred_blocked root d site i).result tried f rfl undefined
            have requeued := undisturbed_of_emptied tries.1
              (t.events.push (.stillBlocked i.path f.cause))
            apply Ends.change
            apply Ends.change
            apply (blocked f).imp
            intro pass' s' ended stuck
            obtain ⟨still, undisturbed, waiting, -⟩ := ended stuck
            have since := requeued.trans undisturbed
            have stands : d.StandsIn root s' i :=
              since.standsIn_iff.mpr ⟨site, nesting, found⟩
            have blockedIn : i.BlockedIn setting d.scope s' := by
              have before : SameScope Eq True d.scope d.scope (emptied s) s :=
                { SameScope.refl d.scope s with }
              exact (tries.2.congr before).congr (since.sameScope d.scope)
            refine ⟨still, since, List.forall_mem_cons.mpr ⟨?_, waiting⟩,
              .inl ⟨d, List.mem_cons_self, i, stands⟩⟩
            intro j standsToo
            obtain ⟨_, _, foundToo⟩ := since.standsIn_iff.mp standsToo
            rw [found] at foundToo
            cases foundToo
            exact blockedIn
          · rename_i defined
            exact Ends.fail (by simpa using defined)
      · intro f t failed
        exact ((tryDeferred_blocked root d site i).failure failed).elim
    · rename_i other
      apply Ends.change
      apply gone.imp
      intro pass' s' ended stuck
      obtain ⟨still, undisturbed, waiting, met⟩ := ended stuck
      have since : Undisturbed s s' := { undisturbed with }
      refine ⟨still, since, List.forall_mem_cons.mpr ⟨?_, waiting⟩, met.imp_left ?_⟩
      · intro i stands
        obtain ⟨site, nesting, found⟩ := since.standsIn_iff.mp stands
        exact absurd found (other i site nesting)
      · rintro ⟨e, member, stands⟩
        exact ⟨e, List.mem_cons_of_mem d member, stands⟩

/-- If a pass fails for an undefined variable, all imports that it found in the queue are blocked,
    and it has changed nothing but the queue. -/
theorem replayOnce_stuck (root : FrameId) :
    Ends setting s (replayOnce root) (fun _ _ => True) fun f t => f.isUndefinedVariable = true →
      Undisturbed (emptied s) t ∧ AllBlocked setting root t s.importer.deferred ∧
        ∃ d ∈ s.importer.deferred, ∃ i, d.StandsIn root t i := by
  apply Ends.bind_of_ok takeDeferred_run
  split
  · trivial
  · apply Ends.change
    refine (replayPass_stuck root s.importer.deferred {}).bind ?_ ?_
    · intro pass t ended
      split
      · rename_i f stuck failed
        apply Ends.fail
        intro undefined
        obtain ⟨-, undisturbed, blocked, met⟩ := ended stuck
        exact ⟨{ undisturbed with }, blocked, met.resolve_right (by simp [failed])⟩
      · trivial
    · intro f t defined undefined
      rw [defined] at undefined
      cases undefined

/-- The second state comes from the first one by a pass after which there is another one. -/
def PassedOver (setting : Setting) (root : FrameId) (s t : Evaluation) : Prop :=
  replayOnce root setting s = (.ok false, t)

theorem replayDeferred_fails (root : FrameId) (width : Nat) :
    Ends setting s (replayDeferred root width) (fun _ _ => True) fun f t => f.cause = .exhausted ∨
      ∃ u, Relation.ReflTransGen (PassedOver setting root) s u ∧
        replayOnce root setting u = (.error f, t) := by
  have chains : Repetition.Chains fun x : Eval Bool => ∀ s, Ends setting s x
      (fun last t => last = false → Relation.ReflTransGen (PassedOver setting root) s t)
      fun f t => ∃ u, Relation.ReflTransGen (PassedOver setting root) s u ∧
        replayOnce root setting u = (.error f, t) := by
    constructor
    · intro s
      exact .pure fun _ => .refl
    · intro x y first later s
      apply (first s).seq
      intro last t passed
      cases last with
      | true => exact .pure nofun
      | false =>
        refine (later t).mono ?_ ?_
        · intro last u more goesOn
          exact (passed rfl).trans (more goesOn)
        · intro f u failed
          obtain ⟨v, more, failed⟩ := failed
          exact ⟨v, (passed rfl).trans more, failed⟩
  apply Ends.ofSetting
  refine (chains.repeatPowersFrom (fun s => ?_) width 0 _ s).bind ?_ ?_
  · rw [Ends.iff_cases]
    constructor
    · rintro last t run rfl
      exact .single run
    · intro f t run
      exact ⟨s, .refl, run⟩
  · intro last t _
    cases last with
    | true => trivial
    | false => exact .inl rfl
  · intro f t failed
    exact .inr failed

end Eval

open Eval in
/-- Giving up on deferred imports: an attempt that fails for an undefined variable leaves the root
    and all other frames, the tables, depths and queue of the importer as they were, and so does the
    pass in which it is made. If replaying fails for an undefined variable, then after some passes
    there was one that made no progress: some of the imports in the queue still stand in the root,
    and the path of each of them fails for an undefined variable in the state that is left. -/
theorem replaying_gives_up_when_stuck (setting : Setting) (root : FrameId) :
    (∀ s t d site i f, tryDeferred root d site i setting s = (.ok (.error f), t) →
      f.isUndefinedVariable = true → Undisturbed s t) ∧
    (∀ s t d site i nesting f rest pass,
      (s.frames.get root).entryAt d.location = some ⟨⟨.fileImport i, site⟩, nesting⟩ →
      tryDeferred root d site i setting (emptied s) = (.ok (.error f), t) →
      f.isUndefinedVariable = true →
      ∃ t', Undisturbed s t' ∧
        replayPass root (d :: rest) pass setting s =
          replayPass root rest (pass.block d f) setting t') ∧
    ∀ width s f t, replayDeferred root width setting s = (.error f, t) →
      f.isUndefinedVariable = true →
      ∃ u, Relation.ReflTransGen (PassedOver setting root) s u ∧ Undisturbed (emptied u) t ∧
        (∃ d ∈ u.importer.deferred, ∃ i, d.StandsIn root t i) ∧
        ∀ d ∈ u.importer.deferred, ∀ i, d.StandsIn root t i →
          ∃ g, (value d.scope i.path setting t).1 = .error g ∧ g.isUndefinedVariable = true := by
  refine ⟨?_, ?_, ?_⟩
  · intro s t d site i f tried undefined
    exact ((tryDeferred_blocked root d site i).result tried f rfl undefined).1
  · intro s t d site i nesting f rest pass found tried undefined
    exact replayPass_cons_blocked found tried undefined rest pass
  · intro width s f t failed undefined
    obtain exhausted | ⟨u, passes, last⟩ := (replayDeferred_fails root width).failure failed
    · simp [Failure.isUndefinedVariable, exhausted] at undefined
    · obtain ⟨undisturbed, blocked, stands⟩ := (replayOnce_stuck root).failure last undefined
      exact ⟨u, passes, undisturbed, stands, blocked⟩

/-- The first import waits for a variable that nothing defines, the second one does not. -/
def undefinedImport : List Rule :=
  [.fileImport ⟨.variable "y", {}, none, Span.none⟩,
    .fileImport ⟨.variable "x", {}, none, Span.none⟩,
    .variable ⟨"x", .keyword "f", Span.none⟩]

def oneFile : Setting :=
  { loader := ({} : Loader).insert ⟨"f.less"⟩ "@z:h;" }

/-- The state in which the imports are replayed. -/
def undefinedImport.deferred : Evaluation :=
  (do
    let root ← Eval.addFrame (Frame.ofBlock (.written 0 []) undefinedImport 0)
    Eval.expandImports root { frames := [root] } true : Eval Unit) oneFile {} |>.2

def undefinedImport.first : DeferredImport :=
  ⟨0, { frames := [0] }, 0⟩

def failedUndefined {α : Type} : Except Failure α → Bool
  | .error f => f.isUndefinedVariable
  | .ok _ => false

theorem failedUndefined_run (x : Eval α) (setting : Setting) (s : Evaluation)
    (h : failedUndefined (x setting s).1 = true) :
    ∃ f t, x setting s = (.error f, t) ∧ f.isUndefinedVariable = true := by
  rcases run : x setting s with ⟨f | a, t⟩
  · rw [run] at h
    exact ⟨f, t, rfl, h⟩
  · rw [run] at h
    cases h

open Eval in
theorem undefinedImport_is_given_up :
    (∃ t, Undisturbed undefinedImport.deferred t ∧
      ∃ f, tryDeferred 0 undefinedImport.first (.written 0 [0]) ⟨.variable "y", {}, none, Span.none⟩
        oneFile undefinedImport.deferred = (.ok (.error f), t)) ∧
    ∃ f t u, replayDeferred 0 8 oneFile undefinedImport.deferred = (.error f, t) ∧
      Relation.ReflTransGen (PassedOver oneFile 0) undefinedImport.deferred u ∧
      ∃ d ∈ u.importer.deferred, ∃ i, d.StandsIn 0 t i := by
  obtain ⟨attempts, -, gives⟩ := replaying_gives_up_when_stuck oneFile 0
  constructor
  · obtain ⟨f, t, run, undefined⟩ := failedUndefined_run
      (spliceDeferred 0 undefinedImport.first (.written 0 [0]) ⟨.variable "y", {}, none, Span.none⟩)
      oneFile undefinedImport.deferred (by decide +kernel)
    have tried := tryDeferred_eq_attempt 0 undefinedImport.first (.written 0 [0])
      ⟨.variable "y", {}, none, Span.none⟩
    have blocked := congrFun (congrFun tried oneFile) undefinedImport.deferred
    simp only [attempt, run] at blocked
    exact ⟨t, attempts _ _ _ _ _ _ blocked undefined, f, blocked⟩
  · obtain ⟨f, t, failed, undefined⟩ :=
      failedUndefined_run (replayDeferred 0 8) oneFile undefinedImport.deferred (by decide +kernel)
    obtain ⟨u, passes, -, stands, -⟩ := gives _ _ _ _ failed undefined
    exact ⟨f, t, u, failed, passes, stands⟩

end StyleResolution
