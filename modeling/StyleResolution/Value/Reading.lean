import StyleResolution.Decimal.Numeral
import StyleResolution.Text.Name
import StyleResolution.Value

/-!
# The grammar of values

Loosest binding first: a value is a comma list of space lists; a space list holds expressions; an
expression joins terms by `+` and `-`; a term joins factors by `*` and `/`; a factor is a
parenthesis, a string, a url, a variable, a colour, a dimension, a negation, a call or a keyword.

A sign after a blank that is attached to its operand starts a new list item: `1px -2px` is a list
and `1px - 2px` is a subtraction.

Parentheses and call arguments hold space lists, so the grammar is recursive. `factor` takes the
reader of the bracketed lists as its argument, and `spaceListAt n` closes the circle for brackets
nested less than `n` deep. A text cannot nest brackets deeper than it is long, so the readers
without a bound use the length of their text.
-/

namespace StyleResolution.Value

/-- `10`, `-1.5em`, `50%` -/
def readDimension : Reader Value := do
  let numeral ← Decimal.Numeral.read
  let unit ← Reader.opt ((do let c ← Reader.char '%'; pure [c]) <|> Reader.takeWhile1 Char.isAlpha)
  pure (.dimension ⟨numeral.toFloat, String.ofList (unit.getD [])⟩)

/-- Whether `c` is a hexadecimal digit. -/
def isHexDigit (c : Char) : Bool :=
  c.isDigit || ('a' ≤ c && c ≤ 'f') || ('A' ≤ c && c ≤ 'F')

/-- Whether these are the digits of a colour: three, four, six or eight. -/
def isColorDigits (ds : List Char) : Bool :=
  [3, 4, 6, 8].contains ds.length && ds.all isHexDigit

/-- `#rgb`, `#rgba`, `#rrggbb`, `#rrggbbaa` -/
def readColor : Reader Value := do
  let _ ← Reader.char '#'
  let ds ← Text.readName
  if isColorDigits ds then pure (.color (String.ofList ('#' :: ds))) else failure

/-- The text up to the closing quote, which stays in the rest. A backslash protects the character
    after it. -/
def readStringBody (quote : Char) : Reader (List Char)
  | [] => none
  | [c] => if c == quote then some ([], [c]) else none
  | c :: d :: rest =>
    if c == '\\' then
      match readStringBody quote rest with
      | none => none
      | some (body, rest') => some (c :: d :: body, rest')
    else if c == quote then
      some ([], c :: d :: rest)
    else
      match readStringBody quote (d :: rest) with
      | none => none
      | some (body, rest') => some (c :: body, rest')

/-- A string in double or single quotes; a tilde in front makes it an escaped string. -/
def readQuoted : Reader Value := do
  let escaped ← Reader.opt (Reader.char '~')
  let quote ← Reader.satisfy (fun c => c == '"' || c == '\'')
  let body ← readStringBody quote
  let _ ← Reader.char quote
  pure (.quoted (String.ofList body) (if escaped.isSome then none else some quote))

/-- `@name` or `@@name` -/
def readVariable : Reader Value :=
  (do
    let _ ← Reader.tag "@@"
    let name ← Text.readName
    pure (.indirect (String.ofList name))) <|>
  (do
    let _ ← Reader.char '@'
    let name ← Text.readName
    pure (.variable (String.ofList name)))

def readKeyword : Reader Value := do
  let name ← Text.readIdent
  pure (.keyword (String.ofList name))

/-- The bare text of a url, up to a white character or the closing parenthesis. -/
def readUrlText : Reader Value := do
  let raw ← Reader.takeWhile1 (fun c => c != ')' && !Text.isWhite c)
  pure (.keyword (String.ofList raw))

/-- A url around a string, a variable or bare text. -/
def readUrl : Reader Value := do
  let _ ← Reader.wordAnyCase "url(".toList
  let _ ← Reader.blanks
  let inner ← readQuoted <|> readVariable <|> readUrlText
  let _ ← Reader.blanks
  let _ ← Reader.char ')'
  pure (.url inner)

/-- A parenthesis around what `inner` reads. -/
def readParen (inner : Reader Value) : Reader Value := do
  let _ ← Reader.char '('
  let _ ← Reader.blanks
  let v ← inner
  let _ ← Reader.blanks
  let _ ← Reader.char ')'
  pure (.paren v)

/-- A minus sign in front of a variable or a parenthesis, as a product with `-1`. -/
def readNegation (inner : Reader Value) : Reader Value := do
  let _ ← Reader.char '-'
  let operand ← readVariable <|> readParen inner
  pure (.operation .multiply (.number (-1.0)) operand)

/-- A function call with arguments separated by commas. -/
def readCall (inner : Reader Value) : Reader Value := do
  let name ← Text.readIdent
  let _ ← Reader.char '('
  let _ ← Reader.blanks
  let args ← Reader.sepBy (Reader.spaced ',') inner
  let _ ← Reader.blanks
  let _ ← Reader.char ')'
  pure (.call (String.ofList name) args)

/-- A factor whose brackets hold what `inner` reads. -/
def factor (inner : Reader Value) : Reader Value :=
  readParen inner <|> readQuoted <|> readUrl <|> readVariable <|> readColor <|> readDimension <|>
    readNegation inner <|> readCall inner <|> readKeyword

def operatorOf : Char → Option Operator
  | '+' => some .add
  | '-' => some .subtract
  | '*' => some .multiply
  | '/' => some .divide
  | _ => none

def startsAttached : List Char → Bool
  | [] => false
  | c :: _ => !Text.isWhite c

/-- An operator out of `symbols` between two operands. After a blank, a sign attached to what
    follows is not an operator. -/
def readOperator (symbols : List Char) : Reader Operator := fun s =>
  match s.takeWhile Text.isBlank, s.dropWhile Text.isBlank with
  | _, [] => none
  | space, c :: after =>
    if !symbols.contains c then none
    else if !space.isEmpty && startsAttached after && (c == '-' || c == '+') then none
    else
      match operatorOf c with
      | none => none
      | some op => some (op, after.dropWhile Text.isBlank)

def readOperation (symbols : List Char) (operand : Reader Value) : Reader (Operator × Value) := do
  let op ← readOperator symbols
  let rhs ← operand
  pure (op, rhs)

/-- Operands joined by operators out of `symbols`, grouped to the left. -/
def readOperations (symbols : List Char) (operand : Reader Value) : Reader Value := do
  let first ← operand
  let others ← (Reader.many (readOperation symbols operand) : Reader (List (Operator × Value)))
  pure (others.foldl (fun lhs (op, rhs) => .operation op lhs rhs) first)

/-- A term whose brackets hold what `inner` reads. -/
def term (inner : Reader Value) : Reader Value :=
  readOperations ['*', '/'] (factor inner)

/-- An expression whose brackets hold what `inner` reads. -/
def expression (inner : Reader Value) : Reader Value :=
  readOperations ['+', '-'] (term inner)

/-- A space list whose brackets hold what `inner` reads. -/
def spaceListOf (inner : Reader Value) : Reader Value := do
  let first ← expression inner
  let others ←
    (Reader.many (do let _ ← Reader.blanks; expression inner) : Reader (List Value))
  pure (collapse .space (first :: others))

/-- A space list with brackets nested less than `n` deep. -/
def spaceListAt : Nat → Reader Value
  | 0 => failure
  | n + 1 => fun s => spaceListOf (spaceListAt n) s

/-- A comma list of what `item` reads. -/
def commaListOf (item : Reader Value) : Reader Value := do
  let values ← Reader.sepBy1 (Reader.spaced ',') item
  pure (collapse .comma values)

def readFactor : Reader Value := fun s =>
  factor (spaceListAt s.length) s

def readExpression : Reader Value := fun s =>
  expression (spaceListAt s.length) s

/-- Expressions separated by blanks. -/
def readSpaceList : Reader Value := fun s =>
  spaceListOf (spaceListAt s.length) s

def readValue : Reader Value :=
  commaListOf readSpaceList

/-- Whether a declaration's value may end here. -/
def atValueEnd (s : List Char) : Bool :=
  match Text.trimStart s with
  | [] => true
  | c :: _ => c == ';' || c == '}' || c == '!'

/-- The text without a final `!important`, if it has one. -/
def dropImportant (cs : List Char) : Option (List Char) :=
  let mark := "!important".toList
  let n := cs.length - mark.length
  if cs.drop n == mark then some (cs.take n) else none

/-- Any text up to the end of the declaration, kept as it is. -/
def readVerbatim : Reader Value := fun s =>
  let raw := Text.trimEnd (s.takeWhile (fun c => c != ';' && c != '}'))
  let (taken, used) :=
    match dropImportant raw with
    | some stripped => (Text.trimEnd stripped, stripped.length)
    | none => (raw, raw.length)
  if taken.isEmpty || taken.contains '{' then none
  else some (.keyword (String.ofList taken), s.drop used)

/-- The value of a declaration. What the grammar of values cannot read up to the end of the
    declaration is kept as it is. -/
def readDeclarationValue : Reader Value := fun s =>
  match readValue s with
  | some (v, rest) => if atValueEnd rest then some (v, rest) else readVerbatim s
  | none => readVerbatim s

/-- Whether `!important` follows. -/
def readImportant : Reader Bool := do
  let mark ← Reader.opt (do let _ ← Reader.blanks; Reader.tag "!important")
  pure mark.isSome

end StyleResolution.Value
