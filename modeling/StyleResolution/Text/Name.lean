import StyleResolution.Text.Reader

/-!
# Names and identifiers

A name is any run of letters, digits, dashes, underscores and characters beyond ASCII. An
identifier is a name that starts, after optional dashes, with something other than a digit.
-/

namespace StyleResolution.Text

/-- Whether `c` lies beyond ASCII. -/
def isBeyondAscii (c : Char) : Bool :=
  128 ≤ c.toNat

/-- Whether `c` may stand in a name. -/
def isNameChar (c : Char) : Bool :=
  c.isAlphanum || c == '-' || c == '_' || isBeyondAscii c

/-- Whether an identifier may start with `c`, apart from dashes. -/
def isIdentStart (c : Char) : Bool :=
  c.isAlpha || c == '_' || isBeyondAscii c

/-- A run of name characters, as after `@`, `.` or `#`. -/
def readName : Reader (List Char) :=
  Reader.takeWhile1 isNameChar

/-- An identifier: `red`, `-webkit-box`, `--x`. -/
def readIdent : Reader (List Char) := do
  let dashes ← Reader.takeWhile (· == '-')
  let first ← Reader.satisfy isIdentStart
  let others ← Reader.takeWhile isNameChar
  pure (dashes ++ first :: others)

/-- A class or an id with its mark: `.name`, `#name`. -/
def readMarked : Reader (List Char) := do
  let mark ← Reader.satisfy (fun c => c == '.' || c == '#')
  let name ← readName
  pure (mark :: name)

end StyleResolution.Text
