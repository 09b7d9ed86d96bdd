import StyleResolution.Value.Reading

/-!
# The grammar of media queries

A query list separates queries by commas; a query separates its tokens by blanks; a token is a
feature in parentheses, a variable or a word.
-/

namespace StyleResolution.MediaQuery

def readFeatureValue : Reader Value := do
  let _ ← Reader.spaced ':'
  Value.readSpaceList

def feature (name : List Char) : Option Value → Value
  | some v => .paren (.spaceList [.keyword (String.ofList (name ++ [':'])), v])
  | none => .paren (.keyword (String.ofList name))

/-- `(max-width: 768px)`, `(color)` -/
def readFeature : Reader Value := do
  let _ ← Reader.char '('
  let _ ← Reader.blanks
  let name ← Text.readIdent
  let v ← Reader.opt readFeatureValue
  let _ ← Reader.blanks
  let _ ← Reader.char ')'
  pure (feature name v)

def readToken : Reader Value :=
  readFeature <|> Value.readVariable <|> Value.readKeyword

def readQuery : Reader Value := do
  let tokens ← Reader.sepBy1 Reader.blanks1 readToken
  pure (Value.collapse .space tokens)

/-- `screen and (min-width: 768px), print` -/
def readList : Reader Value := do
  let queries ← Reader.sepBy1 (Reader.spaced ',') readQuery
  pure (Value.collapse .comma queries)

end StyleResolution.MediaQuery
