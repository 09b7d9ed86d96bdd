import StyleResolution.Rule
import StyleResolution.Value.Reading

/-!
# The grammar of mixins: parameters, arguments, paths and guards

Parameters and arguments are separated by commas, unless a semicolon stands at the top level of
the parenthesis: then semicolons separate, and commas build comma lists inside one argument. So
`(1, 2, 3)` has three arguments, `(1, 2; 3)` has two and `(1, 2;)` has one.
-/

namespace StyleResolution.Mixin

/-- Whether `c` opens a bracket. -/
def isOpening (c : Char) : Bool :=
  c == '(' || c == '[' || c == '{'

/-- Whether `c` closes a bracket. -/
def isClosing (c : Char) : Bool :=
  c == ')' || c == ']' || c == '}'

/-- Where a scan of a bracketed list stands. -/
inductive ScanState where
  /-- Outside strings, inside this many brackets. -/
  | plain (depth : Nat)
  /-- In a string with this quote. -/
  | inString (depth : Nat) (quote : Char)
  /-- In a string, after a backslash. -/
  | escaped (depth : Nat) (quote : Char)
  deriving Repr, DecidableEq

/-- Whether a semicolon comes before the bracket that closes the list. -/
def findsSemicolon : ScanState → List Char → Bool
  | _, [] => false
  | .escaped depth quote, _ :: rest => findsSemicolon (.inString depth quote) rest
  | .inString depth quote, c :: rest =>
    if c == '\\' then findsSemicolon (.escaped depth quote) rest
    else if c == quote then findsSemicolon (.plain depth) rest
    else findsSemicolon (.inString depth quote) rest
  | .plain depth, c :: rest =>
    if c == '"' || c == '\'' then findsSemicolon (.inString depth c) rest
    else if isOpening c then findsSemicolon (.plain (depth + 1)) rest
    else if isClosing c then
      match depth with
      | 0 => false
      | depth + 1 => findsSemicolon (.plain depth) rest
    else if c == ';' && depth == 0 then true
    else findsSemicolon (.plain depth) rest

/-- Whether the list that starts here, just after its parenthesis, uses semicolons. -/
def usesSemicolons (s : List Char) : Bool :=
  findsSemicolon (.plain 0) s

/-- One item's value: a comma list where semicolons separate, else a space list. -/
def readItem (semicolons : Bool) : Reader Value :=
  if semicolons then Value.readValue else Value.readSpaceList

/-- The items of a list whose separator is known, with the closing parenthesis. -/
def readItems {α : Type} (item : Bool → Reader α) (semicolons : Bool) : Reader (List α) := do
  let separator := if semicolons then ';' else ','
  let items ← Reader.sepBy1 (Reader.spaced separator) (item semicolons)
  let _ ← Reader.blanks
  let _ ← Reader.opt (Reader.char separator)
  let _ ← Reader.blanks
  let _ ← Reader.char ')'
  pure items

/-- A parenthesised list with a trailing separator allowed. -/
def readParenthesized {α : Type} (item : Bool → Reader α) : Reader (List α) := fun s =>
  match Reader.char '(' s with
  | none => none
  | some (_, inner) =>
    match inner.dropWhile Text.isBlank with
    | ')' :: rest => some ([], rest)
    | start => readItems item (usesSemicolons inner) start

/-- `@name` -/
def readAtName : Reader String := do
  let _ ← Reader.char '@'
  let name ← Text.readName
  pure (String.ofList name)

/-- `@name:` -/
def readAtNameColon : Reader String := do
  let name ← readAtName
  let _ ← Reader.spaced ':'
  pure name

def readParam (semicolons : Bool) : Reader Param :=
  (do let _ ← Reader.tag "..."; pure (.variadic none)) <|>
  (do let name ← readAtName; let _ ← Reader.tag "..."; pure (.variadic (some name))) <|>
  (do let name ← readAtNameColon; let v ← readItem semicolons; pure (.named name v)) <|>
  (do let name ← readAtName; pure (.positional name)) <|>
  (do let v ← readItem semicolons; pure (.pattern v))

/-- `(@a; @b: 2; @rest...)` -/
def readParams : Reader (List Param) :=
  readParenthesized readParam

def readArgument (semicolons : Bool) : Reader Argument := do
  let name ← Reader.opt readAtNameColon
  let v ← readItem semicolons
  pure ⟨name, v⟩

/-- `(1px, @size: 2)` -/
def readArguments : Reader (List Argument) :=
  readParenthesized readArgument

/-- One segment of a call's path. -/
def readSegment : Reader String := do
  let name ← Text.readMarked
  pure (String.ofList name)

/-- What may stand between two segments of a path: blanks and at most one `>`. -/
def readPathGap : Reader Unit := do
  let _ ← Reader.blanks
  let _ ← Reader.opt (Reader.char '>')
  let _ ← Reader.blanks

/-- `.m`, `#ns > .m`, `#ns.m`, `#ns .m` -/
def readPath : Reader (List String) := do
  let first ← readSegment
  let others ← (Reader.many (do let _ ← readPathGap; readSegment) : Reader (List String))
  pure (first :: others)

/-- A comparison operator; both spellings of the inclusive ones are accepted. -/
def readComparison : Reader Comparison :=
  (do let _ ← Reader.tag ">="; pure .greaterEqual) <|>
  (do let _ ← Reader.tag "=>"; pure .greaterEqual) <|>
  (do let _ ← Reader.tag "<="; pure .lessEqual) <|>
  (do let _ ← Reader.tag "=<"; pure .lessEqual) <|>
  (do let _ ← Reader.char '='; pure .equal) <|>
  (do let _ ← Reader.char '<'; pure .less) <|>
  (do let _ ← Reader.char '>'; pure .greater)

/-- The comparison of a condition with its right-hand side. -/
def readCompared : Reader (Comparison × Value) := do
  let _ ← Reader.blanks
  let op ← readComparison
  let _ ← Reader.blanks
  let rhs ← Value.readExpression
  pure (op, rhs)

/-- `[not] (lhs [op rhs])` -/
def readCondition : Reader Condition := do
  let negated ← Reader.opt (do let _ ← Reader.tag "not"; Reader.blanks)
  let _ ← Reader.char '('
  let _ ← Reader.blanks
  let lhs ← Value.readExpression
  let comparison ← Reader.opt readCompared
  let _ ← Reader.blanks
  let _ ← Reader.char ')'
  pure ⟨negated.isSome, lhs, comparison⟩

/-- A word with blanks on both sides. -/
def readJoint (text : String) : Reader Unit := do
  let _ ← Reader.blanks1
  let _ ← Reader.tag text
  let _ ← Reader.blanks1

/-- Conditions joined by `and`. -/
def readConditions : Reader (List Condition) :=
  Reader.sepBy1 (readJoint "and") readCondition

/-- `when (a) and (b), (c)`: groups separated by commas or `or`. -/
def readGuard : Reader Guard := do
  let _ ← Reader.tag "when"
  let _ ← Reader.blanks1
  let groups ← Reader.sepBy1 (Reader.spaced ',' <|> readJoint "or") readConditions
  pure ⟨groups⟩

end StyleResolution.Mixin
