import StyleResolution.Decimal.Numeral
import StyleResolution.Selector
import StyleResolution.Text.Name

/-!
# The grammar of selectors

A compound selector is a run of simple selectors without blanks. A selector is a sequence of
compounds joined by blanks or by `>`, `+`, `~`; it may start with a combinator, for nesting.
-/

namespace StyleResolution.Selector

/-- Characters up to the parenthesis that closes `depth + 1` open ones. -/
def takeBalanced (depth : Nat) : Reader (List Char)
  | [] => none
  | c :: rest =>
    if c == '(' then
      match takeBalanced (depth + 1) rest with
      | none => none
      | some (body, rest') => some (c :: body, rest')
    else if c == ')' then
      match depth with
      | 0 => some ([c], rest)
      | depth + 1 =>
        match takeBalanced depth rest with
        | none => none
        | some (body, rest') => some (c :: body, rest')
    else
      match takeBalanced depth rest with
      | none => none
      | some (body, rest') => some (c :: body, rest')

/-- The arguments of a pseudo-class with balanced parentheses, as written. -/
def readPseudoArgs : Reader (List Char) := do
  let c ← Reader.char '('
  let body ← takeBalanced 0
  pure (c :: body)

/-- `:hover`, `::before`, `:nth-child(2n)` -/
def readPseudo : Reader (List Char) := do
  let c ← Reader.char ':'
  let second ← Reader.opt (Reader.char ':')
  let name ← Text.readIdent
  let args ← Reader.opt readPseudoArgs
  pure (c :: second.toList ++ name ++ args.getD [])

/-- Whether `c` may start the operator of an attribute test. -/
def isAttributeOperator (c : Char) : Bool :=
  ['~', '|', '^', '$', '*', '='].contains c

/-- The parts of an attribute test: the name up to the operator, the operator up to `=`, and the
    operand after it. Without a `=` the test is for presence only. -/
def attributeOf (content : List Char) : Simple :=
  let name := String.ofList (Text.trim (content.takeWhile (!isAttributeOperator ·)))
  let tail := content.dropWhile (!isAttributeOperator ·)
  match tail.dropWhile (· != '=') with
  | [] => .attribute name none none
  | c :: value =>
    .attribute name (some (String.ofList (tail.takeWhile (· != '=') ++ [c])))
      (some (String.ofList (Text.trim value)))

/-- `[name]`, `[name=value]`, `[name^="value"]` -/
def readAttribute : Reader Simple := do
  let _ ← Reader.char '['
  let content ← Reader.takeWhile (· != ']')
  let _ ← Reader.char ']'
  pure (attributeOf content)

def readPercentage : Reader (List Char) := do
  let numeral ← Decimal.Numeral.read
  let c ← Reader.char '%'
  pure (numeral.chars ++ [c])

/-- What a reader takes, as a literal simple selector. -/
def literal (p : Reader (List Char)) : Reader Simple := do
  let cs ← p
  pure (.literal (String.ofList cs))

def readSimple : Reader Simple :=
  (do let _ ← Reader.char '&'; pure .wildcard) <|>
  literal Text.readMarked <|>
  literal readPseudo <|>
  (do let _ ← Reader.char '*'; pure (.literal "*")) <|>
  readAttribute <|>
  literal readPercentage <|>
  literal Text.readIdent

/-- Simple selectors without blanks between them; the first one takes `combinator`. -/
def readCompound (combinator : Combinator) : Reader (List Element) := do
  let first ← readSimple
  let others ← (Reader.many readSimple : Reader (List Simple))
  pure (⟨combinator, first⟩ :: others.map (⟨.attached, ·⟩))

/-- `>`, `+` or `~` -/
def readCombinator : Reader Combinator :=
  (do let _ ← Reader.char '>'; pure .child) <|>
  (do let _ ← Reader.char '+'; pure .adjacent) <|>
  (do let _ ← Reader.char '~'; pure .sibling)

/-- A further compound: after a combinator, or after at least one blank. A combinator that no
    compound follows ends the selector. -/
def readNext : Reader (List Element) := fun s =>
  let rest := s.dropWhile Text.isBlank
  match readCombinator rest with
  | some (combinator, after) => readCompound combinator (after.dropWhile Text.isBlank)
  | none => if rest.length < s.length then readCompound .descendant rest else none

def read : Reader Selector := do
  let leading ← Reader.opt (do let c ← readCombinator; let _ ← Reader.blanks; pure c)
  let first ← readCompound (leading.getD .attached)
  let others ← (Reader.many readNext : Reader (List (List Element)))
  pure ⟨first ++ others.flatten⟩

/-- Selectors separated by commas. -/
def readList : Reader (List Selector) :=
  Reader.sepBy1 (Reader.spaced ',') read

end StyleResolution.Selector
