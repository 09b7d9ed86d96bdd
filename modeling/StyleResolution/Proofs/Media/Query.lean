import StyleResolution.Text.Blank

/-! # Media queries as they are read

The text of a media query list is read without its values: commas separate the alternatives, and the
word `and` separates the parts of an alternative, except inside brackets and strings. Parts may hold
or not, and the list holds if all parts of one alternative do.

Where two lists are written one after the other with `and` between them, only the last alternative of
the first one and the first alternative of the second one are put together.
-/

namespace StyleResolution.MediaQuery

inductive Token where
  | comma
  | word (text : List Char)
  deriving Repr, DecidableEq

def Token.isComma : Token → Bool
  | .comma => true
  | .word _ => false

/-- Whether the token is the word `and`, in any case. -/
def Token.isAnd : Token → Bool
  | .comma => false
  | .word text => text.map Char.toLower == ['a', 'n', 'd']

/-! ## Tokens -/

/-- Where a character of a text stands. -/
structure Nesting where
  /-- The number of brackets that are open. -/
  depth : Nat := 0
  /-- The quote of the string that is open. -/
  quote : Option Char := none
  /-- Whether a backslash stands in front. -/
  escaped : Bool := false
  deriving Repr, DecidableEq

/-- Where the next character stands. -/
def Nesting.step (n : Nesting) (c : Char) : Nesting :=
  if n.escaped then { n with escaped := false }
  else if c == '\\' then { n with escaped := true }
  else
    match n.quote with
    | some q => { n with quote := if c == q then none else some q }
    | none =>
      if c == '"' || c == '\'' then { n with quote := some c }
      else if c == '(' || c == '[' then { n with depth := n.depth + 1 }
      else if c == ')' || c == ']' then { n with depth := n.depth - 1 }
      else n

/-- How far a text has been read. -/
structure Scan where
  /-- The tokens before the word that is being read. -/
  before : List Token := []
  word : List Char := []
  nesting : Nesting := {}
  deriving Repr, DecidableEq

namespace Scan

/-- All tokens, if the text ends here. -/
def tokens (s : Scan) : List Token :=
  if s.word.isEmpty then s.before else s.before ++ [.word s.word]

def step (s : Scan) (c : Char) : Scan :=
  if s.nesting = {} ∧ c = ',' then { before := s.tokens ++ [.comma] }
  else if s.nesting = {} ∧ Text.isBlank c = true then { before := s.tokens }
  else { s with word := s.word ++ [c], nesting := s.nesting.step c }

def ofText (text : String) : Scan :=
  text.toList.foldl step {}

def behind (s : Scan) (more : List Token) : Scan :=
  { s with before := more ++ s.before }

theorem tokens_behind (s : Scan) (more : List Token) :
    (s.behind more).tokens = more ++ s.tokens := by
  unfold tokens behind
  dsimp only
  split
  · rfl
  · exact List.append_assoc ..

theorem step_behind (s : Scan) (more : List Token) (c : Char) :
    (s.behind more).step c = (s.step c).behind more := by
  have nesting : (s.behind more).nesting = s.nesting := rfl
  unfold step
  rw [tokens_behind, nesting]
  by_cases isComma : s.nesting = {} ∧ c = ','
  · rw [if_pos isComma, if_pos isComma, List.append_assoc]
    rfl
  · rw [if_neg isComma, if_neg isComma]
    by_cases isBlank : s.nesting = {} ∧ Text.isBlank c = true
    · rw [if_pos isBlank, if_pos isBlank]
      rfl
    · rw [if_neg isBlank, if_neg isBlank]
      rfl

theorem foldl_step_behind (s : Scan) (more : List Token) (cs : List Char) :
    cs.foldl step (s.behind more) = (cs.foldl step s).behind more := by
  induction cs generalizing s with
  | nil => rfl
  | cons c cs ih => rw [List.foldl_cons, List.foldl_cons, step_behind, ih]

end Scan

def Closed (text : String) : Prop :=
  (Scan.ofText text).nesting = {}

instance (text : String) : Decidable (Closed text) :=
  inferInstanceAs (Decidable (_ = _))

def tokens (text : String) : List Token :=
  (Scan.ofText text).tokens

/-- The word between the parts of an alternative, as it is written. -/
def Token.and : Token :=
  .word ['a', 'n', 'd']

theorem ofText_and (closed : Closed first) (second : String) :
    Scan.ofText (first ++ " and " ++ second) =
      (Scan.ofText second).behind (tokens first ++ [.and]) := by
  have characters : " and ".toList = [' ', 'a', 'n', 'd', ' '] := by decide
  have between : " and ".toList.foldl Scan.step (Scan.ofText first) =
      Scan.behind {} (tokens first ++ [.and]) := by
    unfold Closed at closed
    unfold tokens
    generalize Scan.ofText first = scan at closed
    obtain ⟨before, word, nesting⟩ := scan
    cases closed
    rw [characters]
    simp [Scan.step, Scan.behind, Scan.tokens, Nesting.step, Text.isBlank, Token.and]
  unfold Scan.ofText at between ⊢
  rw [String.toList_append, String.toList_append, List.foldl_append, List.foldl_append, between,
    Scan.foldl_step_behind]

theorem tokens_and (closed : Closed first) (second : String) :
    tokens (first ++ " and " ++ second) = tokens first ++ Token.and :: tokens second := by
  rw [tokens, ofText_and closed, Scan.tokens_behind, List.append_assoc]
  rfl

theorem Closed.and (closed : Closed first) (closed' : Closed second) :
    Closed (first ++ " and " ++ second) := by
  unfold Closed
  rw [ofText_and closed]
  exact closed'

/-! ## Alternatives -/

/-- The lists one after the other, where the last list of the first ones and the first list of the
    others are put together. -/
def seam {α : Type} (lists others : List (List α)) : List (List α) :=
  lists.dropLast ++ (lists.getLastD [] ++ others.headD []) :: others.tail

section Seam

variable {α : Type} {p : α → Bool}

theorem seam_cons (some : lists ≠ []) (first : List α) (others : List (List α)) :
    seam (first :: lists) others = first :: seam lists others := by
  cases lists with
  | nil => exact absurd rfl some
  | cons second lists => rfl

theorem seam_singleton (only first : List α) (others : List (List α)) :
    seam [only] (first :: others) = (only ++ first) :: others :=
  rfl

theorem modifyHead_seam (a : α) (some : lists ≠ []) (others : List (List α)) :
    (seam lists others).modifyHead (a :: ·) = seam (lists.modifyHead (a :: ·)) others := by
  match lists with
  | [] => exact absurd rfl some
  | [only] => rfl
  | first :: second :: lists => rfl

theorem splitOnP_append (as bs : List α) :
    (as ++ bs).splitOnP p = seam (as.splitOnP p) (bs.splitOnP p) := by
  induction as with
  | nil =>
    cases split : bs.splitOnP p with
    | nil => exact absurd split (List.splitOnP_ne_nil p bs)
    | cons first others =>
      rw [List.nil_append, split]
      rfl
  | cons a as ih =>
    rw [List.cons_append, List.splitOnP_cons_eq_if_modifyHead, ih,
      List.splitOnP_cons_eq_if_modifyHead]
    have some := List.splitOnP_ne_nil p as
    split
    · exact (seam_cons some [] _).symm
    · exact modifyHead_seam a some _

theorem splitOnP_append_cons (separates : p a = true) (as bs : List α) :
    (as ++ a :: bs).splitOnP p = as.splitOnP p ++ bs.splitOnP p := by
  rw [splitOnP_append, List.splitOnP_cons_eq_if_modifyHead, if_pos separates]
  generalize split : as.splitOnP p = lists
  have some : lists ≠ [] := split ▸ List.splitOnP_ne_nil p as
  rw [seam, List.headD_cons, List.append_nil, List.tail_cons, List.append_cons]
  congr 1
  rw [List.getLastD_eq_getLast?, List.getLast?_eq_some_getLast some]
  exact List.dropLast_concat_getLast some

end Seam

/-- A part of an alternative: the tokens between one `and` and the next. -/
abbrev Part := List Token

def alternatives (text : String) : List (List Part) :=
  ((tokens text).splitOnP Token.isComma).map (·.splitOnP Token.isAnd)

theorem alternatives_ne_nil (text : String) : alternatives text ≠ [] := by
  simp [alternatives, List.splitOnP_ne_nil]

/-- Only two alternatives are put together by an `and` between query lists. -/
theorem alternatives_and (closed : Closed first) (second : String) :
    alternatives (first ++ " and " ++ second) = seam (alternatives first) (alternatives second) := by
  unfold alternatives
  rw [tokens_and closed, splitOnP_append, List.splitOnP_cons_eq_if_modifyHead,
    if_neg (by decide)]
  generalize split : (tokens first).splitOnP Token.isComma = lists
  generalize split' : (tokens second).splitOnP Token.isComma = others
  have some : lists ≠ [] := split ▸ List.splitOnP_ne_nil _ _
  have some' : others ≠ [] := split' ▸ List.splitOnP_ne_nil _ _
  clear split split'
  cases others with
  | nil => exact absurd rfl some'
  | cons other others =>
    induction lists with
    | nil => exact absurd rfl some
    | cons list lists ih =>
      cases lists with
      | nil =>
        rw [List.modifyHead_cons, seam_singleton, List.map_cons, List.map_singleton,
          List.map_cons, seam_singleton, splitOnP_append_cons (by decide)]
      | cons second lists =>
        rw [seam_cons (by simp), List.map_cons, ih (by simp), List.map_cons (l := second :: _),
          seam_cons (by simp)]

/-! ## Meaning -/

/-- Whether a query list holds where its parts hold or not as `σ` says. -/
def holds (σ : Part → Bool) (lists : List (List Part)) : Bool :=
  lists.any (·.all σ)

theorem holds_iff : holds σ lists = true ↔ ∃ list ∈ lists, ∀ part ∈ list, σ part = true := by
  simp [holds]

theorem holds_seam (some : lists ≠ []) (some' : others ≠ []) (h : holds σ lists = true)
    (h' : holds σ others = true) : holds σ (seam lists others) = true := by
  obtain ⟨other, others, rfl⟩ := List.exists_cons_of_ne_nil some'
  induction lists with
  | nil => exact absurd rfl some
  | cons list lists ih =>
    cases lists with
    | nil =>
      rw [seam_singleton]
      simp only [holds, List.any_cons, List.all_append, List.any_nil, Bool.or_false,
        Bool.or_eq_true] at h h' ⊢
      simpa [h] using h'
    | cons second lists =>
      rw [seam_cons (by simp)]
      simp only [holds, List.any_cons, Bool.or_eq_true] at h ⊢
      rcases h with first | later
      · exact .inl first
      · exact .inr (ih (by simp) (by simpa [holds] using later))

/-- One query list implies another one, whatever the parts mean, if and only if each of its
    alternatives has all parts of some alternative of the other. -/
theorem forall_holds_iff : (∀ σ, holds σ lists = true → holds σ others = true) ↔
      ∀ list ∈ lists, ∃ other ∈ others, other ⊆ list := by
  constructor
  · intro implies list member
    -- the parts of the alternative hold, and no others
    have own : holds (fun part => decide (part ∈ list)) lists = true :=
      holds_iff.mpr ⟨list, member, by simp⟩
    obtain ⟨other, among, all⟩ := holds_iff.mp (implies _ own)
    exact ⟨other, among, fun part inside => of_decide_eq_true (all part inside)⟩
  · intro covered σ h
    obtain ⟨list, member, all⟩ := holds_iff.mp h
    obtain ⟨other, among, included⟩ := covered list member
    exact holds_iff.mpr ⟨other, among, fun part inside => all part (included inside)⟩

end StyleResolution.MediaQuery
