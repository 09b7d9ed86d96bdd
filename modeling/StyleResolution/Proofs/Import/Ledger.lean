import StyleResolution.Compiler

/-! # A ledger of deferred imports

To say what becomes of each deferred import, the expansion of the root's imports is run once more
with a ledger beside its state. The ledger numbers the imports as they are queued and marks the
place of each among the rules of the root. A splice moves the marks as it moves the rules, whatever
the queues say, and takes note of the marks it removes.

`Tracked` computations also record moments: the rules of the root, the marks and all imports that
wait, in whichever queue they are. `Erases` says that a tracked computation does the same as a
plain one.
-/

namespace StyleResolution

open Eval

/-- An import as it was queued. -/
structure Queued where
  /-- How many imports were queued before it. -/
  number : Nat
  entry : Entry
  scope : Environment
  depth : Nat
  deriving Repr

/-- What became of the deferred imports so far. -/
structure Ledger where
  /-- The imports that were queued, oldest first. -/
  issued : List Queued := []
  /-- For each rule of the root, the queued import that it is, if it is one. -/
  marks : List (Option Queued) := []
  /-- The queued imports that a splice replaced. -/
  spliced : List Queued := []
  /-- What was taken off a queue and found no import in its place. -/
  dropped : List DeferredImport := []
  deriving Repr

namespace Ledger

/-- The ledger of a root with so many rules, before any import is queued. -/
def start (rules : Nat) : Ledger :=
  { marks := List.replicate rules none }

def enqueue (l : Ledger) (position : Nat) (entry : Entry) (scope : Environment) (depth : Nat) :
    Ledger :=
  let q : Queued := ⟨l.issued.length, entry, scope, depth⟩
  { l with issued := l.issued ++ [q], marks := l.marks.set position (some q) }

/-- Replaces the rule at a position by `count` rules. -/
def replace (l : Ledger) (position count : Nat) : Ledger :=
  { l with
    marks := l.marks.take position ++ List.replicate count none ++ l.marks.drop (position + 1)
    spliced := l.spliced ++ (l.marks[position]?).join.toList }

def drop (l : Ledger) (d : DeferredImport) : Ledger :=
  { l with dropped := l.dropped ++ [d] }

end Ledger

/-- A moment of the expansion of the root's imports. -/
structure Moment where
  /-- The rules of the root. -/
  rules : List Entry
  /-- All deferred imports, in whichever queue they wait. -/
  waiting : List DeferredImport
  ledger : Ledger
  deriving Repr

/-- What a tracked computation leads to. -/
structure Tracked.Run (α : Type) where
  outcome : Except Failure α
  state : Evaluation
  ledger : Ledger
  /-- Oldest first. -/
  moments : List Moment

/-- A computation beside which a ledger is kept. -/
def Tracked (α : Type) : Type :=
  Setting → Evaluation → Ledger → Tracked.Run α

namespace Tracked

open Eval (importLevels Replacement Pass)

variable {α β : Type}

instance : Monad Tracked where
  pure a := fun _ s l => ⟨.ok a, s, l, []⟩
  bind x f := fun setting s l =>
    match x setting s l with
    | ⟨.ok a, s', l', before⟩ =>
      let next := f a setting s' l'
      { next with moments := before ++ next.moments }
    | ⟨.error e, s', l', before⟩ => ⟨.error e, s', l', before⟩

theorem bind_apply (x : Tracked α) (f : α → Tracked β) (setting : Setting) (s : Evaluation)
    (l : Ledger) : (x >>= f) setting s l = match x setting s l with
      | ⟨.ok a, s', l', before⟩ =>
        let next := f a setting s' l'
        { next with moments := before ++ next.moments }
      | ⟨.error e, s', l', before⟩ => ⟨.error e, s', l', before⟩ := rfl

/-- A plain computation, which leaves the ledger alone. -/
def lift (x : Eval α) : Tracked α := fun setting s l =>
  ⟨(x setting s).1, (x setting s).2, l, []⟩

def record (f : Ledger → Ledger) : Tracked Unit := fun _ s l =>
  ⟨.ok (), s, f l, []⟩

/-- Records a moment. Beside the importer's queue, the imports of `aside` wait; it is given the
    number of rules that the root has now. -/
def note (root : FrameId) (aside : Nat → List DeferredImport) : Tracked Unit := fun _ s l =>
  let rules := (s.frames.get root).entries
  ⟨.ok (), s, l, [⟨rules, s.importer.deferred ++ aside rules.length, l⟩]⟩

theorem moments_note (root : FrameId) (aside : Nat → List DeferredImport) (next : Unit → Tracked α)
    (setting : Setting) (s : Evaluation) (l : Ledger) :
    ((note root aside >>= next) setting s l).moments =
      ⟨(s.frames.get root).entries,
        s.importer.deferred ++ aside (s.frames.get root).entries.length, l⟩ ::
        (next () setting s l).moments := rfl

def attempt (x : Tracked α) : Tracked (Except Failure α) := fun setting s l =>
  let run := x setting s l
  ⟨.ok run.outcome, run.state, run.ledger, run.moments⟩

def between (enter leave : Evaluation → Evaluation) (x : Tracked α) : Tracked α :=
  fun setting s l =>
    let run := x setting (enter s) l
    { run with state := leave run.state }

/-- Runs a computation for a block found at an import nesting. -/
def atBaseDepth (depth : Nat) (x : Tracked α) : Tracked α := do
  let outer := (← lift state).importer.baseDepth
  between (fun s => { s with importer := { s.importer with baseDepth := depth } })
    (fun s => { s with importer := { s.importer with baseDepth := outer } }) x

def whileImporting (x : Tracked α) : Tracked α :=
  between
    (fun s => { s with importer := { s.importer with openImports := s.importer.openImports + 1 } })
    (fun s => { s with importer := { s.importer with openImports := s.importer.openImports - 1 } })
    x

/-! ## The expansion of the root's imports, with a ledger -/

/-- Replaces the import at a position and expands the imports among the new rules. -/
def spliceImport (expandAt : Nat → Nat → Tracked Nat) (root : FrameId) (env : Environment)
    (position : Nat) (site : Site) (i : Import) : Tracked Nat := do
  match ← lift (replaceImport root env position site i) with
  | .settled count =>
    record (·.replace position count)
    pure count
  | .opened count =>
    record (·.replace position count)
    let stop ← whileImporting (expandAt position count)
    pure (stop - position)

/-- Expands the imports among `count` rules from a position on and queues those with variables in
    their path. -/
def expandRange (aside : Nat → List DeferredImport) (expandAt : Nat → Nat → Tracked Nat)
    (root : FrameId) (env : Environment) : Nat → Nat → Tracked Nat
  | position, 0 => do
    note root aside
    pure position
  | position, count + 1 => do
    note root aside
    match (← lift (frame root)).entryAt position with
    | some ⟨⟨.fileImport i, site⟩, nesting⟩ =>
      if i.isInterpolated then
        lift (emit (.deferring i.path))
        let depth := (← lift state).importer.nesting
        lift (changeImporter fun importer => importer.defer ⟨position, env, importer.nesting⟩)
        record (·.enqueue position ⟨⟨.fileImport i, site⟩, nesting⟩ env depth)
        expandRange aside expandAt root env (position + 1) count
      else
        let inserted ← spliceImport expandAt root env position site i
        expandRange aside expandAt root env (position + inserted) count
    | _ => expandRange aside expandAt root env (position + 1) count

/-- Expands the imports among `count` rules from a position on, with files nested less than
    `levels` deep. -/
def expandWithin (aside : Nat → List DeferredImport) (root : FrameId) (env : Environment) :
    Nat → Nat → Nat → Tracked Nat
  | 0, _, _ => lift (failWith .exhausted)
  | levels + 1, position, count =>
    expandRange aside (expandWithin aside root env levels) root env position count

/-- The first pass over the root. -/
def expandImports (root : FrameId) (env : Environment) : Tracked Unit := do
  let f ← lift (frame root)
  let levels ← lift importLevels
  atBaseDepth f.base do
    let _ ← expandWithin (fun _ => []) root env levels 0 f.size
    pure ()

/-- The outcome of trying a deferred import. While it is spliced, the other imports stand where the
    splice has moved them so far. -/
def tryDeferred (root : FrameId) (others : List DeferredImport) (d : DeferredImport) (site : Site)
    (i : Import) : Tracked (Except Failure Nat) := do
  let levels ← lift importLevels
  let before := (← lift (frame root)).size
  let aside := fun (size : Nat) => DeferredImport.shiftAll d.location ((size : Int) - before) others
  atBaseDepth d.depth (attempt
    (spliceImport (expandWithin aside root d.scope levels) root d.scope d.location site i))

def replayPass (root : FrameId) (pending : List DeferredImport) (pass : Pass) : Tracked Pass := do
  note root fun _ => pending ++ pass.blocked
  match pending with
  | [] => pure pass
  | d :: rest =>
    match (← lift (frame root)).entryAt d.location with
    | some ⟨⟨.fileImport i, site⟩, _⟩ =>
      let earlier ← lift takeDeferred
      match ← tryDeferred root (rest ++ pass.blocked ++ earlier) d site i with
      | .ok inserted =>
        let shift := DeferredImport.shiftAll d.location ((inserted : Int) - 1)
        let added ← lift takeDeferred
        lift (deferAll (shift earlier ++ added))
        replayPass root (shift rest)
          { pass with blocked := shift pass.blocked, progressed := true }
      | .error failure =>
        if failure.isUndefinedVariable then
          lift (emit (.stillBlocked i.path failure.cause))
          lift (deferAll earlier)
          replayPass root rest
            { pass with
              blocked := pass.blocked ++ [d]
              firstFailure := pass.firstFailure.or (some failure) }
        else
          lift (fail failure)
    | _ =>
      lift (emit (.importGone d.location))
      record (·.drop d)
      replayPass root rest pass
termination_by pending.length
decreasing_by all_goals simp [DeferredImport.shiftAll]

def replayOnce (root : FrameId) : Tracked Bool := do
  note root fun _ => []
  let pending ← lift takeDeferred
  if pending.isEmpty then
    pure true
  else
    lift (emit (.replaying pending.length))
    let pass ← replayPass root pending {}
    match pass.progressed, pass.firstFailure with
    | false, some failure => lift (fail failure)
    | _, _ =>
      lift (deferAll pass.blocked)
      pure false

def replayDeferred (root : FrameId) (width : Nat) : Tracked Unit := do
  let levels ← lift importLevels
  if ← Repetition.repeatPowers width (levels + 2) (replayOnce root) then pure ()
  else lift (failWith .exhausted)

def openSheet (sheet : Stylesheet) : Tracked Environment := do
  lift (Compiler.registerSheet sheet)
  let root ← lift (addFrame (Frame.ofBlock (.written 0 []) sheet.rules 0))
  let env : Environment := { frames := [root] }
  let rules := Compiler.ruleBound (← lift setting).loader sheet
  record fun _ => Ledger.start sheet.rules.length
  expandImports root env
  replayDeferred root (2 * rules + 2)
  pure env

/-! ## Erasing the ledger -/

/-- The tracked computation does what the plain one does. -/
def Erases (t : Tracked α) (x : Eval α) : Prop :=
  ∀ setting s l, ((t setting s l).outcome, (t setting s l).state) = x setting s

/-- The computation has a result and leaves the state alone. -/
def Silent (t : Tracked α) : Prop :=
  ∀ setting s l, ∃ a, ((t setting s l).outcome, (t setting s l).state) = (.ok a, s)

theorem note_silent (root : FrameId) (aside : Nat → List DeferredImport) :
    Silent (note root aside) :=
  fun _ _ _ => ⟨(), rfl⟩

theorem record_silent (f : Ledger → Ledger) : Silent (record f) :=
  fun _ _ _ => ⟨(), rfl⟩

theorem state_silent : Silent (lift state) :=
  fun _ s _ => ⟨s, rfl⟩

theorem frame_silent (id : FrameId) : Silent (lift (frame id)) :=
  fun _ s _ => ⟨s.frames.get id, rfl⟩

namespace Erases

theorem pure (a : α) : Erases (Pure.pure a) (Pure.pure a) :=
  fun _ _ _ => rfl

theorem lift (x : Eval α) : Erases (Tracked.lift x) x :=
  fun _ _ _ => rfl

theorem bind {t : Tracked β} {x : Eval β} {next : β → Tracked α} {then_ : β → Eval α}
    (first : Erases t x) (second : ∀ b, Erases (next b) (then_ b)) :
    Erases (t >>= next) (x >>= then_) := by
  intro setting s l
  have same := first setting s l
  rw [Tracked.bind_apply, Eval.bind_apply, ← same]
  rcases t setting s l with ⟨e | b, s', l', before⟩
  · rfl
  · exact second b setting s' l'

/-- What leaves the state alone is left out of the plain computation. -/
theorem skip (silent : Silent t) (second : ∀ b, Erases (next b) x) : Erases (t >>= next) x := by
  intro setting s l
  obtain ⟨b, same⟩ := silent setting s l
  rw [Tracked.bind_apply]
  rcases run : t setting s l with ⟨outcome, s', l', before⟩
  rw [run] at same
  cases same
  exact second b setting s' l'

theorem attempt (h : Erases t x) : Erases (Tracked.attempt t) (Eval.attempt x) := by
  intro setting s l
  simp only [Tracked.attempt, Eval.attempt, ← h setting s l]

theorem between (h : Erases t x) :
    Erases (Tracked.between enter leave t) (Eval.between enter leave x) := by
  intro setting s l
  simp only [Tracked.between, Eval.between, ← h setting (enter s) l]

theorem atBaseDepth (depth : Nat) (h : Erases t x) :
    Erases (Tracked.atBaseDepth depth t) (Eval.atBaseDepth depth x) :=
  bind (lift _) fun _ => between h

theorem whileImporting (h : Erases t x) :
    Erases (Tracked.whileImporting t) (Eval.whileImporting x) :=
  between h

theorem repeatUpTo (h : Erases t x) (n : Nat) :
    Erases (Repetition.repeatUpTo t n) (Repetition.repeatUpTo x n) := by
  induction n with
  | zero => exact pure _
  | succ n ih =>
    refine bind h fun last => ?_
    split
    · exact pure _
    · exact ih

theorem repeatPower (h : Erases t x) (w n : Nat) :
    Erases (Repetition.repeatPower w t n) (Repetition.repeatPower w x n) := by
  induction n with
  | zero => exact h
  | succ n ih => exact repeatUpTo ih w

theorem repeatPowersFrom (h : Erases t x) (w start n : Nat) :
    Erases (Repetition.repeatPowersFrom w t start n) (Repetition.repeatPowersFrom w x start n) := by
  induction n generalizing start with
  | zero => exact pure _
  | succ n ih =>
    refine bind (repeatPower h w start) fun last => ?_
    split
    · exact pure _
    · exact ih _

theorem spliceImport {expandAt : Nat → Nat → Tracked Nat} {expandAt' : Nat → Nat → Eval Nat}
    (h : ∀ position count, Erases (expandAt position count) (expandAt' position count))
    (root : FrameId) (env : Environment) (position : Nat) (site : Site) (i : Import) :
    Erases (Tracked.spliceImport expandAt root env position site i)
      (Eval.spliceImport expandAt' root env position site i) := by
  refine bind (lift _) fun replaced => ?_
  cases replaced with
  | settled count => exact skip (record_silent _) fun _ => pure _
  | opened count =>
    exact skip (record_silent _) fun _ => bind (whileImporting (h _ _)) fun _ => pure _

theorem expandRange (aside : Nat → List DeferredImport) {expandAt : Nat → Nat → Tracked Nat}
    {expandAt' : Nat → Nat → Eval Nat}
    (h : ∀ position count, Erases (expandAt position count) (expandAt' position count))
    (root : FrameId) (env : Environment) (position count : Nat) :
    Erases (Tracked.expandRange aside expandAt root env position count)
      (Eval.expandRange expandAt' root env true position count) := by
  induction count generalizing position with
  | zero => exact skip (note_silent _ _) fun _ => pure _
  | succ count ih =>
    refine skip (note_silent _ _) fun _ => bind (lift _) fun f => ?_
    cases f.entryAt position with
    | none => exact ih _
    | some e =>
      obtain ⟨⟨rule, site⟩, nesting⟩ := e
      cases rule with
      | fileImport i =>
        simp only [Bool.true_and]
        split
        · exact bind (lift _) fun _ => skip state_silent fun _ => bind (lift _) fun _ =>
            skip (record_silent _) fun _ => ih _
        · exact bind (spliceImport h root env position site i) fun _ => ih _
      | _ => exact ih _

theorem expandWithin (aside : Nat → List DeferredImport) (root : FrameId) (env : Environment)
    (levels position count : Nat) :
    Erases (Tracked.expandWithin aside root env levels position count)
      (Eval.expandWithin root env true levels position count) := by
  induction levels generalizing position count with
  | zero => exact lift _
  | succ levels ih => exact expandRange aside ih root env position count

theorem expandImports (root : FrameId) (env : Environment) :
    Erases (Tracked.expandImports root env) (Eval.expandImports root env true) :=
  bind (lift _) fun _ => bind (lift _) fun _ => atBaseDepth _ <|
    bind (expandWithin _ root env _ _ _) fun _ => pure _

theorem tryDeferred (root : FrameId) (others : List DeferredImport) (d : DeferredImport)
    (site : Site) (i : Import) :
    Erases (Tracked.tryDeferred root others d site i) (Eval.tryDeferred root d site i) :=
  bind (lift _) fun _ => skip (frame_silent root) fun _ => atBaseDepth _ <|
    attempt (spliceImport (expandWithin _ root d.scope _) root d.scope d.location site i)

theorem replayPass (root : FrameId) (pending : List DeferredImport) (pass : Pass) :
    Erases (Tracked.replayPass root pending pass) (Eval.replayPass root pending pass) := by
  fun_induction Eval.replayPass root pending pass with
  | case1 pass =>
    unfold Tracked.replayPass
    exact skip (note_silent _ _) fun _ => pure _
  | case2 pass d rest expanded blocked gone =>
    unfold Tracked.replayPass
    refine skip (note_silent _ _) fun _ => bind (lift _) fun f => ?_
    have lost : Erases
        (do Tracked.lift (emit (.importGone d.location)); record (·.drop d)
            Tracked.replayPass root rest pass)
        (do Eval.emit (.importGone d.location); Eval.replayPass root rest pass) :=
      bind (lift _) fun _ => skip (record_silent _) fun _ => gone
    cases f.entryAt d.location with
    | none => exact lost
    | some e =>
      obtain ⟨⟨rule, site⟩, nesting⟩ := e
      cases rule with
      | fileImport i =>
        refine bind (lift _) fun earlier => bind (tryDeferred root _ d _ _) fun outcome => ?_
        cases outcome with
        | ok inserted =>
          exact bind (lift _) fun _ => bind (lift _) fun _ => expanded inserted
        | error failure =>
          dsimp only
          split
          · exact bind (lift _) fun _ => bind (lift _) fun _ => blocked failure
          · exact lift _
      | _ => exact lost

theorem replayOnce (root : FrameId) :
    Erases (Tracked.replayOnce root) (Eval.replayOnce root) := by
  refine skip (note_silent _ _) fun _ => bind (lift _) fun pending => ?_
  split
  · exact pure _
  · refine bind (lift _) fun _ => bind (replayPass root pending {}) fun pass => ?_
    have ended : Erases (do Tracked.lift (deferAll pass.blocked); Pure.pure false)
        (do deferAll pass.blocked; Pure.pure false) :=
      bind (lift _) fun _ => pure _
    cases pass.progressed with
    | true => exact ended
    | false =>
      cases pass.firstFailure with
      | none => exact ended
      | some failure => exact lift _

theorem replayDeferred (root : FrameId) (width : Nat) :
    Erases (Tracked.replayDeferred root width) (Eval.replayDeferred root width) := by
  refine bind (lift _) fun levels => bind (repeatPowersFrom (replayOnce root) width 0 _) fun last => ?_
  split
  · exact pure _
  · exact lift _

theorem openSheet (sheet : Stylesheet) :
    Erases (Tracked.openSheet sheet) (Compiler.openSheet sheet) :=
  bind (lift _) fun _ => bind (lift _) fun root => bind (lift _) fun _ =>
    skip (record_silent _) fun _ => bind (expandImports root _) fun _ =>
      bind (replayDeferred root _) fun _ => pure _

end Erases

end Tracked

end StyleResolution
