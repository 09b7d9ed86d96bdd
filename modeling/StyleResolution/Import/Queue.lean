import StyleResolution.Scope.Environment

/-!
# Deferred imports

An import whose path depends on variables waits until the other imports of the root are expanded.
It is remembered by its position among the rules of the root frame, so every splice in front of it
moves it.
-/

namespace StyleResolution

/-- An import that waits for the variables in its path. -/
structure DeferredImport where
  /-- The position of the import among the rules of the root frame. -/
  location : Nat
  /-- The environment its path is evaluated in. -/
  scope : Environment
  /-- The import nesting it was found at. -/
  depth : Nat
  deriving Repr, DecidableEq

namespace DeferredImport

/-- The largest location that can be represented. -/
def maxLocation : Nat :=
  Nat.pow 2 64 - 1

/-- A location moved by `delta`, kept between zero and the largest one. -/
def moved (location : Nat) (delta : Int) : Nat :=
  min ((location : Int) + delta).toNat maxLocation

/-- Moves the import if it stands behind a splice at `position` that changed the number of rules
    by `delta`. -/
def shift (position : Nat) (delta : Int) (d : DeferredImport) : DeferredImport :=
  if position < d.location then { d with location := moved d.location delta } else d

/-- Moves all imports that stand behind a splice. -/
def shiftAll (position : Nat) (delta : Int) (queue : List DeferredImport) : List DeferredImport :=
  queue.map (shift position delta)

end DeferredImport

end StyleResolution
