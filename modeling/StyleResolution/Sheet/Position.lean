import StyleResolution.Rule

/-!
# Positions

A place in a text is given by the rest of the text from there on. The lengths of the two texts give
its offset in bytes, and the offsets at which lines start give its line: it is the last one that
starts at or before the offset. The column counts characters, of which one may take several bytes.
Of both numbers a position keeps 32 bits.
-/

namespace StyleResolution.Position

/-- The number of bytes of a text in UTF-8. -/
def byteLength : List Char → Nat
  | [] => 0
  | c :: cs => c.utf8Size + byteLength cs

/-- The offsets just after the newlines of a text that starts at the given offset. -/
def afterNewlines : Nat → List Char → List Nat
  | _, [] => []
  | offset, c :: cs =>
    let next := offset + c.utf8Size
    if c == '\n' then next :: afterNewlines next cs else afterNewlines next cs

def lineStarts (text : List Char) : Array Nat :=
  (0 :: afterNewlines 0 text).toArray

/-- The first index from `low` on, and below `high`, whose entry exceeds the offset, or `high`; the
    entries are in ascending order, so a binary search finds it. -/
def search (starts : Array Nat) (offset low high : Nat) : Nat :=
  if low < high then
    let mid := (low + high) / 2
    if starts.getD mid 0 ≤ offset then search starts offset (mid + 1) high
    else search starts offset low mid
  else low
termination_by high - low

/-- The number of entries that do not exceed the offset. -/
def partitionPoint (starts : Array Nat) (offset : Nat) : Nat :=
  search starts offset 0 starts.size

/-- The text without its first `n` bytes, if a character ends there. -/
def dropBytes : Nat → List Char → Option (List Char)
  | 0, cs => some cs
  | _ + 1, [] => none
  | n + 1, c :: cs => if c.utf8Size ≤ n + 1 then dropBytes (n + 1 - c.utf8Size) cs else none

/-- The first `n` bytes of the text, if a character ends there. -/
def takeBytes : Nat → List Char → Option (List Char)
  | 0, _ => some []
  | _ + 1, [] => none
  | n + 1, c :: cs =>
    if c.utf8Size ≤ n + 1 then (takeBytes (n + 1 - c.utf8Size) cs).map (c :: ·) else none

/-- The text between two offsets, if they are in order and characters end there. -/
def slice (text : List Char) (start stop : Nat) : Option (List Char) :=
  if start ≤ stop then (dropBytes start text).bind (takeBytes (stop - start)) else none

/-- The low 32 bits of a number. -/
def word (n : Nat) : Nat :=
  (UInt32.ofNat n).toNat

/-- The position at which the rest of the text starts. -/
def spanOf (file : Nat) (text rest : List Char) : Span :=
  let starts := lineStarts text
  let offset := byteLength text - byteLength rest
  let line := partitionPoint starts offset
  let start := starts.getD (line - 1) 0
  let column := (slice text start offset).elim 0 List.length
  ⟨file, word line, word (word column + 1)⟩

end StyleResolution.Position
