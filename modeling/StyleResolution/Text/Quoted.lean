import StyleResolution.Text.Join
import StyleResolution.Text.Printable

/-!
# Quoted texts

Paths in messages are written in double quotes. Quotes, backslashes and the usual control
characters are written with a backslash, other characters that do not print by their code.
-/

namespace StyleResolution.Text

/-- A character inside a quoted text. -/
def quotedChar (c : Char) : List Char :=
  if c == '\x00' then ['\\', '0']
  else if c == '\t' then ['\\', 't']
  else if c == '\n' then ['\\', 'n']
  else if c == '\r' then ['\\', 'r']
  else if c == '"' || c == '\'' || c == '\\' then ['\\', c]
  else if isPrintable c then [c]
  else ['\\', 'u', '{'] ++ Nat.toDigits 16 c.toNat ++ ['}']

def quoted (text : String) : String :=
  String.ofList ('"' :: text.toList.flatMap quotedChar ++ ['"'])

def quotedList (texts : List String) : String :=
  "[" ++ join ", " (texts.map quoted) ++ "]"

end StyleResolution.Text
