/-!
# Blanking comments

Comments are replaced by spaces before a sheet is read, character by character and with newlines
kept, so that every position in the blanked text is a position in the source. Strings are left
alone, and so is the body of a url up to its closing parenthesis.
-/

namespace StyleResolution.Comment

/-- What the next character belongs to. -/
inductive Mode where
  | plain
  /-- A string with this quote. -/
  | inString (quote : Char)
  | inUrl
  /-- A comment up to the end of the line. -/
  | inLine
  /-- A comment up to its closing mark. -/
  | inBlock
  deriving Repr, DecidableEq

def blanked (c : Char) : Char :=
  if c == '\n' then '\n' else ' '

/-- Whether a url starts here. -/
def startsUrl : List Char → Bool
  | a :: b :: c :: d :: _ =>
    a.toLower == 'u' && b.toLower == 'r' && c.toLower == 'l' && d == '('
  | _ => false

def afterPlain (c : Char) (rest : List Char) : Mode :=
  if startsUrl (c :: rest) then .inUrl
  else if c == '"' || c == '\'' then .inString c
  else .plain

/-- Blanks the comments of a text that is entered in the given mode. -/
def blankFrom : Mode → List Char → List Char
  | _, [] => []
  | .plain, '/' :: '*' :: rest => ' ' :: ' ' :: blankFrom .inBlock rest
  | .plain, '/' :: '/' :: rest => ' ' :: ' ' :: blankFrom .inLine rest
  | .plain, c :: rest => c :: blankFrom (afterPlain c rest) rest
  | .inString quote, '\\' :: c :: rest => '\\' :: c :: blankFrom (.inString quote) rest
  | .inString quote, c :: rest =>
    c :: blankFrom (if c == quote then .plain else .inString quote) rest
  | .inUrl, c :: rest => c :: blankFrom (if c == ')' then .plain else .inUrl) rest
  | .inLine, c :: rest => blanked c :: blankFrom (if c == '\n' then .plain else .inLine) rest
  | .inBlock, '*' :: '/' :: rest => ' ' :: ' ' :: blankFrom .plain rest
  | .inBlock, c :: rest => blanked c :: blankFrom .inBlock rest

/-- The text with its comments blanked. -/
def blank (source : List Char) : List Char :=
  blankFrom .plain source

end StyleResolution.Comment
