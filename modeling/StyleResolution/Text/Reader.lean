import StyleResolution.Text.Blank

/-!
# Readers

A reader takes a prefix of the text and answers with a result and the rest, or does not match.
A choice tries its alternatives on the same text, so a reader that does not match costs nothing.

Repetition ends because every round has to leave a shorter rest: `many` stops as soon as its
reader does not match or takes nothing.
-/

namespace StyleResolution

/-- Reads a result off the front of a text and returns the rest; `none` if the text does not
    start with what the reader accepts. -/
def Reader (α : Type) : Type :=
  List Char → Option (α × List Char)

namespace Reader

variable {α β : Type}

def run (p : Reader α) (s : List Char) : Option (α × List Char) :=
  p s

instance : Monad Reader where
  pure a := fun s => some (a, s)
  bind p f := fun s =>
    match p s with
    | none => none
    | some (a, rest) => f a rest

instance : Alternative Reader where
  failure := fun _ => none
  orElse p q := fun s =>
    match p s with
    | none => q () s
    | some found => some found

@[simp] theorem pure_apply (a : α) (s : List Char) : (pure a : Reader α) s = some (a, s) := rfl

theorem bind_apply (p : Reader α) (f : α → Reader β) (s : List Char) :
    (p >>= f) s = match p s with
      | none => none
      | some (a, rest) => f a rest := rfl

theorem orElse_apply (p q : Reader α) (s : List Char) :
    (p <|> q) s = match p s with
      | none => q s
      | some found => some found := rfl

/-- One character with the property `p`. -/
def satisfy (p : Char → Bool) : Reader Char
  | [] => none
  | c :: rest => if p c then some (c, rest) else none

/-- Exactly the character `c`. -/
def char (c : Char) : Reader Char :=
  satisfy (· == c)

/-- Exactly the characters of `word`. -/
def word : List Char → Reader Unit
  | [], s => some ((), s)
  | _ :: _, [] => none
  | w :: ws, c :: rest => if w == c then word ws rest else none

/-- Exactly the text `text`. -/
def tag (text : String) : Reader Unit :=
  word text.toList

/-- Exactly the characters of `word`, upper or lower case. -/
def wordAnyCase : List Char → Reader Unit
  | [], s => some ((), s)
  | _ :: _, [] => none
  | w :: ws, c :: rest => if w.toLower == c.toLower then wordAnyCase ws rest else none

/-- The longest run of characters with the property `p`, possibly empty. -/
def takeWhile (p : Char → Bool) : Reader (List Char) :=
  fun s => some (s.takeWhile p, s.dropWhile p)

/-- The longest run of characters with the property `p`, at least one. -/
def takeWhile1 (p : Char → Bool) : Reader (List Char) :=
  fun s =>
    match s.takeWhile p with
    | [] => none
    | c :: cs => some (c :: cs, s.dropWhile p)

/-- Layout characters, possibly none. -/
def blanks : Reader (List Char) :=
  takeWhile Text.isBlank

/-- Layout characters, at least one. -/
def blanks1 : Reader (List Char) :=
  takeWhile1 Text.isBlank

/-- The result of `p`, or nothing where it does not match. -/
def opt (p : Reader α) : Reader (Option α) :=
  fun s =>
    match p s with
    | none => some (none, s)
    | some (a, rest) => some (some a, rest)

/-- As many results of `p` as there are, one after the other. -/
def many (p : Reader α) (s : List Char) : Option (List α × List Char) :=
  match p s with
  | none => some ([], s)
  | some (a, rest) =>
    if rest.length < s.length then
      match many p rest with
      | none => none
      | some (as, rest') => some (a :: as, rest')
    else
      some ([], s)
termination_by s.length

/-- One or more items with `separator` between neighbours. A separator that no item follows is
    left in the rest. -/
def sepBy1 (separator : Reader β) (item : Reader α) : Reader (List α) := do
  let first ← item
  let others ← (many (do let _ ← separator; item) : Reader (List α))
  pure (first :: others)

/-- Items with `separator` between neighbours, possibly none. -/
def sepBy (separator : Reader β) (item : Reader α) : Reader (List α) :=
  sepBy1 separator item <|> pure []

/-- A separator character with layout on either side. -/
def spaced (c : Char) : Reader Unit := do
  let _ ← blanks
  let _ ← char c
  let _ ← blanks

end Reader

end StyleResolution
