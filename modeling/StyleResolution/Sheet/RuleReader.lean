import StyleResolution.Text.Reader

/-!
# Readers of rules

Inside a rule there are points of no return: once the brace of a block is open, its rules have to
be read, and an error there is the error of the whole sheet. So a reader of rules has a third
outcome beside a result and no match: the text is broken at a certain place.
-/

namespace StyleResolution

/-- What reading a rule leads to. -/
inductive Outcome (α : Type) where
  | found (result : α) (rest : List Char)
  /-- The text does not start with such a rule; another kind may be tried. -/
  | mismatch
  /-- The text cannot be read at all, and this is where. -/
  | broken (place : List Char)
  deriving Repr

/-- Reads a result off the front of a text, or finds the text broken. -/
def RuleReader (α : Type) : Type :=
  List Char → Outcome α

namespace RuleReader

variable {α β : Type}

def run (p : RuleReader α) (s : List Char) : Outcome α :=
  p s

instance : Monad RuleReader where
  pure a := fun s => .found a s
  bind p f := fun s =>
    match p s with
    | .found a rest => f a rest
    | .mismatch => .mismatch
    | .broken place => .broken place

instance : Alternative RuleReader where
  failure := fun _ => .mismatch
  orElse p q := fun s =>
    match p s with
    | .found a rest => .found a rest
    | .mismatch => q () s
    | .broken place => .broken place

/-- A plain reader, which never finds the text broken. -/
def lift (p : Reader α) : RuleReader α := fun s =>
  match p s with
  | some (a, rest) => .found a rest
  | none => .mismatch

instance : MonadLift Reader RuleReader where
  monadLift := lift

/-- The result of `p`, or nothing where it does not match. -/
def opt (p : RuleReader α) : RuleReader (Option α) := fun s =>
  match p s with
  | .found a rest => .found (some a) rest
  | .mismatch => .found none s
  | .broken place => .broken place

end RuleReader

end StyleResolution
