/-!
# Repeating a step

A step that says whether it is the last one is repeated until it is, but not without a bound. The
bounds are powers: `repeatPowers w n` makes up to `w ^ 0 + w ^ 1 + ... + w ^ (n - 1)` steps. The
powers are never computed, so a huge bound costs nothing where few steps are made.
-/

namespace StyleResolution.Repetition

variable {m : Type → Type} [Monad m]

/-- Repeats a step until it answers `true`, at most `n` times. Answers whether it did. -/
def repeatUpTo (step : m Bool) : Nat → m Bool
  | 0 => pure false
  | n + 1 => do
    if ← step then pure true else repeatUpTo step n

/-- Repeats a step until it answers `true`, at most `w ^ n` times. -/
def repeatPower (w : Nat) (step : m Bool) : Nat → m Bool
  | 0 => step
  | n + 1 => repeatUpTo (repeatPower w step n) w

/-- Repeats a step until it answers `true`, for one power of `w` after the other, from
    `w ^ start` on and `n` powers in all. -/
def repeatPowersFrom (w : Nat) (step : m Bool) : Nat → Nat → m Bool
  | _, 0 => pure false
  | start, n + 1 => do
    if ← repeatPower w step start then pure true
    else repeatPowersFrom w step (start + 1) n

/-- Repeats a step until it answers `true`, at most `w ^ 0 + ... + w ^ (n - 1)` times. -/
def repeatPowers (w n : Nat) (step : m Bool) : m Bool :=
  repeatPowersFrom w step 0 n

end StyleResolution.Repetition
