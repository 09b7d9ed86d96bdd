/-!
# Blank characters

Two notions of blank text are in use. The grammar skips the four layout characters only
(`isBlank`). Trimming, and the question whether a sign is attached to its operand, use the wider
Unicode property `White_Space` (`isWhite`). Every layout character is white.
-/

namespace StyleResolution.Text

/-- Whether `c` has the Unicode property `White_Space`. -/
def isWhite (c : Char) : Bool :=
  let n := c.toNat
  (0x09 ≤ n && n ≤ 0x0D) || n == 0x20 || n == 0x85 || n == 0xA0 || n == 0x1680 ||
    (0x2000 ≤ n && n ≤ 0x200A) || n == 0x2028 || n == 0x2029 || n == 0x202F || n == 0x205F ||
    n == 0x3000

/-- Whether `c` is one of the layout characters that may stand between two tokens. -/
def isBlank (c : Char) : Bool :=
  c == ' ' || c == '\t' || c == '\r' || c == '\n'

/-- The text without its leading white characters. -/
def trimStart (cs : List Char) : List Char :=
  cs.dropWhile isWhite

/-- The text without its trailing white characters. -/
def trimEnd (cs : List Char) : List Char :=
  (cs.reverse.dropWhile isWhite).reverse

/-- The text without white characters at either end. -/
def trim (cs : List Char) : List Char :=
  trimEnd (trimStart cs)

/-- A trimmed text is a suffix of the text. -/
theorem trimStart_suffix (cs : List Char) : trimStart cs <:+ cs :=
  List.dropWhile_suffix isWhite

end StyleResolution.Text
