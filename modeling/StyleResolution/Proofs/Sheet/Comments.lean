import Mathlib.Data.List.Forall2
import StyleResolution.Proofs.Sheet.Origin

/-! # What blanking does to a text

A text is laid out in comments, literals and other characters. Blanking keeps the literals and the
other characters, and of the comments the newlines; every other character of a comment becomes a
space. So no character moves, no newline comes or goes, and there is nothing left to blank.
-/

namespace StyleResolution.Comment

/-- A stretch of a text. -/
inductive Piece where
  | comment (cs : List Char)
  /-- A string or a url. -/
  | literal (cs : List Char)
  | other (c : Char)
  deriving Repr, DecidableEq

namespace Piece

def text : Piece → List Char
  | .comment cs | .literal cs => cs
  | .other c => [c]

def kept : Piece → List Char
  | .comment cs => cs.map blanked
  | .literal cs => cs
  | .other c => [c]

end Piece

/-- A block comment up to and with its closing mark, if there is one, and the text after it. -/
def splitBlock : List Char → List Char × List Char
  | [] => ([], [])
  | '*' :: '/' :: rest => (['*', '/'], rest)
  | c :: rest => (c :: (splitBlock rest).1, (splitBlock rest).2)

def splitString (quote : Char) : List Char → List Char × List Char
  | [] => ([], [])
  | '\\' :: c :: rest => ('\\' :: c :: (splitString quote rest).1, (splitString quote rest).2)
  | c :: rest =>
    if c == quote then ([c], rest) else (c :: (splitString quote rest).1, (splitString quote rest).2)

/-- A url up to and with its closing parenthesis, if there is one, and the text after it. -/
def splitUrl : List Char → List Char × List Char
  | [] => ([], [])
  | c :: rest => if c == ')' then ([c], rest) else (c :: (splitUrl rest).1, (splitUrl rest).2)

/-- The literal at the front of a text. -/
def readLiteral : Reader (List Char)
  | [] => none
  | c :: rest =>
    if startsUrl (c :: rest) then some (c :: (splitUrl rest).1, (splitUrl rest).2)
    else if c == '"' || c == '\'' then some (c :: (splitString c rest).1, (splitString c rest).2)
    else none

/-- The pieces of a text, with the given notion of literals. Comments do not start in a literal,
    nor literals in a comment. -/
def piecesBy (literal : Reader (List Char)) : Nat → List Char → List Piece
  | 0, _ => []
  | _, [] => []
  | n + 1, '/' :: '*' :: rest =>
    .comment ('/' :: '*' :: (splitBlock rest).1) :: piecesBy literal n (splitBlock rest).2
  | n + 1, '/' :: '/' :: rest =>
    .comment ('/' :: '/' :: rest.takeWhile (· != '\n')) ::
      piecesBy literal n (rest.dropWhile (· != '\n'))
  | n + 1, c :: rest =>
    match literal (c :: rest) with
    | some (cs, after) => .literal cs :: piecesBy literal n after
    | none => .other c :: piecesBy literal n rest

def pieces (s : List Char) : List Piece :=
  piecesBy readLiteral s.length s

/-! ## Comments become spaces -/

theorem startsUrl_eq_false (other : c.toLower ≠ 'u') (rest : List Char) :
    startsUrl (c :: rest) = false := by
  unfold startsUrl
  split <;> simp_all

theorem afterPlain_blanked (c : Char) (rest : List Char) : afterPlain (blanked c) rest = .plain := by
  by_cases newline : c = '\n'
  · simp [afterPlain, blanked, newline, startsUrl_eq_false]
  · simp [afterPlain, blanked, newline, startsUrl_eq_false]

theorem blankFrom_plain_blanked (c : Char) (rest : List Char) :
    blankFrom .plain (blanked c :: rest) = blanked c :: blankFrom .plain rest := by
  have other : blanked c ≠ '/' := by
    unfold blanked
    split <;> decide
  rw [blankFrom, afterPlain_blanked]
  · exact fun _ isSlash => absurd isSlash other
  · exact fun _ isSlash => absurd isSlash other

theorem blankFrom_inBlock (s : List Char) :
    blankFrom .inBlock s = (splitBlock s).1.map blanked ++ blankFrom .plain (splitBlock s).2 := by
  fun_induction splitBlock s <;> simp_all [blankFrom, blanked]

theorem blankFrom_inLine (s : List Char) :
    blankFrom .inLine s = (s.takeWhile (· != '\n')).map blanked ++
      blankFrom .plain (s.dropWhile (· != '\n')) := by
  induction s with
  | nil => rfl
  | cons c rest ih =>
    by_cases newline : c = '\n'
    · subst newline
      simpa [blankFrom, blanked] using (blankFrom_plain_blanked '\n' rest).symm
    · simp [blankFrom, newline, ih]

theorem blankFrom_inString (quote : Char) (s : List Char) :
    blankFrom (.inString quote) s =
      (splitString quote s).1 ++ blankFrom .plain (splitString quote s).2 := by
  fun_induction splitString quote s <;> simp_all [blankFrom]

theorem blankFrom_inUrl (s : List Char) :
    blankFrom .inUrl s = (splitUrl s).1 ++ blankFrom .plain (splitUrl s).2 := by
  fun_induction splitUrl s <;> simp_all [blankFrom]

theorem splitBlock_append (s : List Char) : (splitBlock s).1 ++ (splitBlock s).2 = s := by
  fun_induction splitBlock s <;> simp_all

theorem splitString_append (quote : Char) (s : List Char) :
    (splitString quote s).1 ++ (splitString quote s).2 = s := by
  fun_induction splitString quote s <;> simp_all

theorem splitUrl_append (s : List Char) : (splitUrl s).1 ++ (splitUrl s).2 = s := by
  fun_induction splitUrl s <;> simp_all

theorem blankFrom_of_readLiteral (h : readLiteral (c :: rest) = some (cs, after)) :
    c :: rest = cs ++ after ∧ after.length ≤ rest.length ∧
      c :: blankFrom (afterPlain c rest) rest = cs ++ blankFrom .plain after := by
  simp only [readLiteral] at h
  unfold afterPlain
  split at h
  · cases h
    have all := splitUrl_append rest
    have lengths := congrArg List.length all
    rw [List.length_append] at lengths
    exact ⟨by rw [List.cons_append, all], by omega, by simp_all [blankFrom_inUrl]⟩
  · split at h <;> cases h
    have all := splitString_append c rest
    have lengths := congrArg List.length all
    rw [List.length_append] at lengths
    exact ⟨by rw [List.cons_append, all], by omega, by simp_all [blankFrom_inString]⟩

theorem afterPlain_of_readLiteral (h : readLiteral (c :: rest) = none) :
    afterPlain c rest = .plain := by
  simp only [readLiteral] at h
  unfold afterPlain
  split at h <;> simp_all

theorem piecesBy_spec (fits : s.length ≤ n) : s = (piecesBy readLiteral n s).flatMap Piece.text ∧
      blankFrom .plain s = (piecesBy readLiteral n s).flatMap Piece.kept := by
  fun_induction piecesBy readLiteral n s with
  | case1 s => simp_all [blankFrom]
  | case2 => simp [blankFrom]
  | case3 n rest ih =>
    have shorter := congrArg List.length (splitBlock_append rest)
    simp only [List.length_append, List.length_cons] at shorter fits
    obtain ⟨same, blanks⟩ := ih (by omega)
    constructor
    · simp [Piece.text, ← same, splitBlock_append]
    · simp [Piece.kept, ← blanks, blankFrom, blankFrom_inBlock, blanked]
  | case4 n rest ih =>
    have shorter := (List.dropWhile_suffix (l := rest) (· != '\n')).length_le
    simp only [List.length_cons] at fits
    obtain ⟨same, blanks⟩ := ih (by omega)
    constructor
    · simp [Piece.text, ← same]
    · simp [Piece.kept, ← blanks, blankFrom, blankFrom_inLine, blanked]
  | case5 n c rest notBlock notLine cs after read ih =>
    obtain ⟨all, shorter, kept⟩ := blankFrom_of_readLiteral read
    simp only [List.length_cons] at fits
    obtain ⟨same, blanks⟩ := ih (by omega)
    constructor
    · simp [Piece.text, ← same, all]
    · rw [blankFrom, kept, blanks]
      · simp [Piece.kept]
      · exact notBlock
      · exact notLine
  | case6 n c rest notBlock notLine none ih =>
    simp only [List.length_cons] at fits
    obtain ⟨same, blanks⟩ := ih (by omega)
    constructor
    · simp [Piece.text, ← same]
    · rw [blankFrom, afterPlain_of_readLiteral none, blanks]
      · simp [Piece.kept]
      · exact notBlock
      · exact notLine

theorem pieces_spec (s : List Char) :
    s = (pieces s).flatMap Piece.text ∧ blank s = (pieces s).flatMap Piece.kept :=
  piecesBy_spec (Nat.le_refl _)

/-! ## Nothing moves -/

theorem forall₂_blankFrom (mode : Mode) (s : List Char) :
    List.Forall₂ (fun c d => d = c ∨ d = blanked c) s (blankFrom mode s) := by
  fun_induction blankFrom mode s <;> simp_all [blanked]

theorem newline_iff (h : d = c ∨ d = blanked c) : (d == '\n') = (c == '\n') := by
  cases h with
  | inl same => rw [same]
  | inr gone =>
    rw [gone, blanked]
    split <;> simp_all

theorem newlines_blank (s : List Char) : (blank s).map (· == '\n') = s.map (· == '\n') := by
  have pointwise := forall₂_blankFrom .plain s
  unfold blank
  generalize blankFrom .plain s = t at pointwise
  induction pointwise with
  | nil => rfl
  | cons h _ ih => simp only [List.map_cons, newline_iff h, ih]

/-- The mode in which the blanked text is scanned. -/
def Mode.settled : Mode → Mode
  | .inLine | .inBlock => .plain
  | mode => mode

theorem eq_of_visible (h : d = c ∨ d = blanked c) (visible : Text.isBlank d = false) : d = c := by
  cases h with
  | inl same => exact same
  | inr gone =>
    rw [gone, blanked] at visible
    split at visible <;> simp [Text.isBlank] at visible

theorem isBlank_of_toLower (h : c.toLower = d) (visible : Text.isBlank d = false) :
    Text.isBlank c = false := by
  cases blank : Text.isBlank c with
  | false => rfl
  | true =>
    have same : c.toLower = c := by
      simp only [Text.isBlank, Bool.or_eq_true, beq_iff_eq] at blank
      rcases blank with ((rfl | rfl) | rfl) | rfl <;> rfl
    rw [← h, same, blank] at visible
    cases visible

theorem exists_of_startsUrl (url : startsUrl (c :: rest) = true) :
    c.toLower = 'u' ∧ ∃ second third tail, rest = second :: third :: '(' :: tail ∧
      second.toLower = 'r' ∧ third.toLower = 'l' := by
  unfold startsUrl at url
  split at url
  · rename_i isText
    cases isText
    simp only [Bool.and_eq_true, beq_iff_eq] at url
    obtain ⟨⟨⟨u, r⟩, l⟩, rfl⟩ := url
    exact ⟨u, _, _, _, rfl, r, l⟩
  · cases url

theorem startsUrl_of_forall₂ (h : List.Forall₂ (fun c d => d = c ∨ d = blanked c) rest rest')
    (url : startsUrl (c :: rest') = true) : startsUrl (c :: rest) = true := by
  obtain ⟨u, second, third, tail, rfl, r, l⟩ := exists_of_startsUrl url
  cases h with
  | cons h₁ h =>
    cases h with
    | cons h₂ h =>
      cases h with
      | cons h₃ h =>
        rw [← eq_of_visible h₁ (isBlank_of_toLower r rfl),
          ← eq_of_visible h₂ (isBlank_of_toLower l rfl), ← eq_of_visible h₃ rfl]
        simp [startsUrl, u, r, l]

theorem startsUrl_inUrl (url : startsUrl (c :: rest) = true) :
    startsUrl (c :: blankFrom .inUrl rest) = true := by
  obtain ⟨u, second, third, tail, rfl, r, l⟩ := exists_of_startsUrl url
  have second' : second ≠ ')' := by rintro rfl; cases r
  have third' : third ≠ ')' := by rintro rfl; cases l
  simp [blankFrom, startsUrl, u, r, l, second', third']

theorem startsUrl_blankFrom :
    startsUrl (c :: blankFrom (afterPlain c rest) rest) = startsUrl (c :: rest) := by
  cases url : startsUrl (c :: rest) with
  | true =>
    have mode : afterPlain c rest = .inUrl := by simp [afterPlain, url]
    rw [mode, startsUrl_inUrl url]
  | false =>
    by_contra other
    have := startsUrl_of_forall₂ (forall₂_blankFrom _ rest) (by simpa using other)
    simp [url] at this

theorem blankFrom_settled (mode : Mode) (s : List Char) :
    blankFrom mode.settled (blankFrom mode s) = blankFrom mode s := by
  fun_induction blankFrom mode s with
  | case1 mode => cases mode <;> rfl
  | case2 rest ih | case3 rest ih | case9 rest ih =>
    have spaces := blankFrom_plain_blanked ' '
    simp only [Mode.settled, blanked, Char.reduceBEq, Bool.false_eq_true, if_false] at spaces ih ⊢
    rw [spaces, spaces, ih]
  | case4 c rest notBlock notLine ih =>
    have pointwise := forall₂_blankFrom (afterPlain c rest) rest
    have same : afterPlain c (blankFrom (afterPlain c rest) rest) = afterPlain c rest := by
      rw [afterPlain, startsUrl_blankFrom, ← afterPlain]
    have settled : (afterPlain c rest).settled = afterPlain c rest := by
      unfold afterPlain
      split
      · rfl
      · split <;> rfl
    -- A mark that follows the character now followed it before.
    have mark : ∀ {d after}, Text.isBlank d = false →
        blankFrom (afterPlain c rest) rest = d :: after → ∃ tail, rest = d :: tail := by
      intro d after visible isNext
      rw [isNext] at pointwise
      cases pointwise with
      | cons h _ => exact ⟨_, by rw [eq_of_visible h visible]⟩
    rw [settled] at ih
    rw [Mode.settled, blankFrom, same, ih]
    · intro after slash star
      obtain ⟨tail, isNext⟩ := mark rfl star
      exact notBlock tail slash isNext
    · intro after slash star
      obtain ⟨tail, isNext⟩ := mark rfl star
      exact notLine tail slash isNext
    · simp
    · simp
  | case5 quote c rest ih => simpa [Mode.settled, blankFrom] using ih
  | case6 quote c rest notEscape ih =>
    cases rest with
    | nil => simp [Mode.settled, blankFrom]
    | cons d tail =>
      change blankFrom (.inString quote) (c :: _) = _
      rw [blankFrom]
      · split at ih <;> simp_all [Mode.settled]
      · exact fun _ _ escape _ => notEscape d tail escape rfl
  | case7 c rest ih =>
    simp only [Mode.settled, blankFrom]
    split at ih <;> simp_all [Mode.settled]
  | case8 c rest ih =>
    rw [Mode.settled, blankFrom_plain_blanked]
    split at ih <;> simp_all [Mode.settled]
  | case10 c rest notEnd ih =>
    rw [Mode.settled, blankFrom_plain_blanked]
    simpa [Mode.settled] using ih

end StyleResolution.Comment
