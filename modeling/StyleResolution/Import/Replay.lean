import StyleResolution.Evaluation.Repetition
import StyleResolution.Import.Expansion

/-!
# Replaying deferred imports

The deferred imports of the root are tried in passes. An import whose variables are still
undefined is blocked and queued again, as long as some other import of the same pass was expanded:
it may have brought the definitions. A pass without progress fails with the first error.

An expanded import can only defer imports that are nested deeper than itself, so the passes come
to an end.
-/

namespace StyleResolution.Eval

/-- Empties the queue of deferred imports. -/
def takeDeferred : Eval (List DeferredImport) := fun _ s =>
  (.ok s.importer.deferred, { s with importer := { s.importer with deferred := [] } })

/-- Puts imports at the end of the queue. -/
def deferAll (queue : List DeferredImport) : Eval Unit :=
  changeImporter fun i => { i with deferred := i.deferred ++ queue }

/-- What a pass has seen so far. -/
structure Pass where
  /-- Imports whose variables are still undefined. -/
  blocked : List DeferredImport := []
  firstFailure : Option Failure := none
  /-- Whether some import was expanded. -/
  progressed : Bool := false
  deriving Repr

/-- The outcome of trying a deferred import, with the imports that were queued before put aside. -/
def tryDeferred (root : FrameId) (d : DeferredImport) (site : Site) (i : Import) :
    Eval (Except Failure Nat) := do
  let levels ← importLevels
  atBaseDepth d.depth (attempt
    (spliceImport (expandWithin root d.scope true levels) root d.scope d.location site i))

def replayPass (root : FrameId) (pending : List DeferredImport) (pass : Pass) : Eval Pass :=
  match pending with
  | [] => pure pass
  | d :: rest => do
    match (← frame root).entryAt d.location with
    | some ⟨⟨.fileImport i, site⟩, _⟩ =>
      let earlier ← takeDeferred
      match ← tryDeferred root d site i with
      | .ok inserted =>
        let shift := DeferredImport.shiftAll d.location ((inserted : Int) - 1)
        let added ← takeDeferred
        deferAll (shift earlier ++ added)
        replayPass root (shift rest)
          { pass with blocked := shift pass.blocked, progressed := true }
      | .error failure =>
        if failure.isUndefinedVariable then
          emit (.stillBlocked i.path failure.cause)
          deferAll earlier
          replayPass root rest
            { pass with
              blocked := pass.blocked ++ [d]
              firstFailure := pass.firstFailure.or (some failure) }
        else
          fail failure
    | _ =>
      emit (.importGone d.location)
      replayPass root rest pass
termination_by pending.length
decreasing_by all_goals simp [DeferredImport.shiftAll]

/-- One pass over the queue. Answers whether the queue was empty. -/
def replayOnce (root : FrameId) : Eval Bool := do
  let pending ← takeDeferred
  if pending.isEmpty then
    pure true
  else
    emit (.replaying pending.length)
    let pass ← replayPass root pending {}
    match pass.progressed, pass.firstFailure with
    | false, some failure => fail failure
    | _, _ =>
      deferAll pass.blocked
      pure false

/-- Expands the deferred imports of the root until none is left. The number of passes is bounded by
    powers of `width`, one for each level of import nesting. -/
def replayDeferred (root : FrameId) (width : Nat) : Eval Unit := do
  let levels ← importLevels
  if ← Repetition.repeatPowers width (levels + 2) (replayOnce root) then pure ()
  else failWith .exhausted

end StyleResolution.Eval
