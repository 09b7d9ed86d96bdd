import StyleResolution.Proofs.Sheet.Size

/-! # Where a rule was read

Every rule that is read from a text, at whatever depth, was read at some place of that text and
carries the position of that place. So a rule can be moved to other frames and still be told to
come from its file. The selectors of every ruleset are a result of the reader of selectors. A text
that cannot be read is rejected at a place of the text, too.
-/

namespace StyleResolution

open Text

/-! ## The rules inside a rule -/

mutual

def Rule.parts : Rule → List Rule
  | .ruleset selectors rules span => .ruleset selectors rules span :: Rule.partsOf rules
  | .mixin head rules => .mixin head rules :: Rule.partsOf rules
  | .media features rules span => .media features rules span :: Rule.partsOf rules
  | .atBlock name prelude rules span => .atBlock name prelude rules span :: Rule.partsOf rules
  | .declaration d => [.declaration d]
  | .variable d => [.variable d]
  | .call c => [.call c]
  | .fileImport i => [.fileImport i]
  | .atStatement name prelude span => [.atStatement name prelude span]

def Rule.partsOf : List Rule → List Rule
  | [] => []
  | r :: rs => r.parts ++ Rule.partsOf rs

end

namespace Rule

theorem mem_partsOf : p ∈ partsOf rules ↔ ∃ r ∈ rules, p ∈ r.parts := by
  induction rules with
  | nil => simp [partsOf]
  | cons r rs ih => simp [partsOf, ih]

theorem mem_parts_self (r : Rule) : r ∈ r.parts := by
  cases r <;> simp [parts]

theorem mem_partsOf_of_mem (member : r ∈ rules) : r ∈ partsOf rules :=
  mem_partsOf.mpr ⟨r, member, r.mem_parts_self⟩

/-- The rules, at whatever depth, carry positions in the file. -/
def AllIn (file : Nat) (rules : List Rule) : Prop :=
  ∀ r ∈ partsOf rules, r.span.file = file

/-- The rule carries a position in the file, and its selectors were read. -/
structure ReadIn (file : Nat) (r : Rule) : Prop where
  file : r.span.file = file
  selectors : ∀ selectors, r.selectors? = some selectors →
    ∃ s rest, Selector.readList s = some (selectors, rest)

theorem parts_eq (r : Rule) : r.parts = r :: r.inside?.elim [] partsOf := by
  cases r <;> simp [parts, inside?]

end Rule

namespace Sheet

open RuleReader (Triple)

/-- The rule was read at `start`, which is not blank. -/
structure StartsAt (spanOf : List Char → Span) (start : List Char) (r : Rule) : Prop where
  first : ∃ c tail, start = c :: tail ∧ isBlank c = false
  read : ∃ n rest, readRule spanOf (readBlock (rulesAt spanOf n)) start = .found r rest

/-- The rules, at whatever depth, were read at places of the text. -/
def Placed (spanOf : List Char → Span) (text : List Char) (rules : List Rule) : Prop :=
  ∀ r ∈ Rule.partsOf rules, ∃ start, start <:+ text ∧ StartsAt spanOf start r

/-- Why the text is rejected at a place. -/
inductive Rejects (spanOf : List Char → Span) : List Char → Prop where
  /-- No rule starts there, or none that takes anything. -/
  | rule {n : Nat} {c : Char} {tail : List Char} (blank : isBlank c = false)
      (none : ∀ r rest, readRule spanOf (readBlock (rulesAt spanOf n)) (c :: tail) = .found r rest →
        tail.length < rest.length) : Rejects spanOf (c :: tail)
  /-- An import has an option that is not known. -/
  | options {place : List Char} (broken : readImportOptions place = .broken place) :
      Rejects spanOf place
  /-- The text ends inside a block. -/
  | unclosed : Rejects spanOf []
  /-- A brace closes no block. -/
  | unopened {tail : List Char} : Rejects spanOf ('}' :: tail)

variable {spanOf : List Char → Span} {text : List Char}

def RejectedAt (spanOf : List Char → Span) (text place : List Char) : Prop :=
  place <:+ text ∧ Rejects spanOf place

/-- A sequence of rules ends at a closing brace or at the end of the text. -/
def AtEnd (rest : List Char) : Prop :=
  rest = [] ∨ ∃ tail, rest = '}' :: tail

def ReadsRules (spanOf : List Char → Span) (text : List Char) (rules : RuleReader (List Rule)) :
    Prop :=
  Triple (· <:+ text) rules (fun rs rest => (rest <:+ text ∧ AtEnd rest) ∧ Placed spanOf text rs)
    (RejectedAt spanOf text)

def ReadsBlock (spanOf : List Char → Span) (text : List Char) (block : RuleReader (List Rule)) :
    Prop :=
  Triple (· <:+ text) block (fun rs rest => rest <:+ text ∧ Placed spanOf text rs)
    (RejectedAt spanOf text)

theorem readBlock_reads (h : ReadsRules spanOf text rules) :
    ReadsBlock spanOf text (readBlock rules) := by
  intro s given
  unfold readBlock
  split
  · rename_i inner
    have own := h inner ((List.suffix_cons ..).trans given)
    cases read : rules inner with
    | mismatch => simp
    | broken place => simpa using own.2 place read
    | found rs rest =>
      obtain ⟨⟨left, ended⟩, placed⟩ := own.1 rs rest read
      cases ended with
      | inl none =>
        subst none
        simpa [RejectedAt] using Rejects.unclosed
      | inr closed =>
        obtain ⟨tail, rfl⟩ := closed
        simpa using ⟨(List.suffix_cons ..).trans left, placed⟩
  · simp

theorem placed_cons : Placed spanOf text (r :: rs) ↔
      (∃ start, start <:+ text ∧ StartsAt spanOf start r) ∧
        (∀ rules, r.inside? = some rules → Placed spanOf text rules) ∧ Placed spanOf text rs := by
  unfold Placed
  rw [Rule.partsOf, Rule.parts_eq]
  cases r.inside? <;> simp [or_imp, forall_and]

theorem readRule_reads (h : ReadsBlock spanOf text (readBlock (rulesAt spanOf n)))
    (given : start <:+ text) (first : ∃ c tail, start = c :: tail ∧ isBlank c = false) :
    (∀ r rest, readRule spanOf (readBlock (rulesAt spanOf n)) start = .found r rest →
      rest <:+ text ∧ (∃ start, start <:+ text ∧ StartsAt spanOf start r) ∧
        ∀ rules, r.inside? = some rules → Placed spanOf text rules) ∧
    ∀ place, readRule spanOf (readBlock (rulesAt spanOf n)) start = .broken place →
      RejectedAt spanOf text place := by
  constructor
  · intro r rest found
    have step := readRule_found found
    have inside : ∀ rules, r.inside? = some rules → rest <:+ text ∧ Placed spanOf text rules := by
      intro rules braces
      obtain ⟨s', later, block⟩ := step.inside rules braces
      exact (h s' (later.trans given)).1 rules rest block
    refine ⟨?_, ⟨start, given, first, n, rest, found⟩, fun rules braces => (inside rules braces).2⟩
    cases braces : r.inside? with
    | none => exact (step.rest braces).1.trans given
    | some rules => exact (inside rules braces).1
  · intro place broken
    cases readRule_broken broken with
    | inl block =>
      obtain ⟨s', later, block⟩ := block
      exact (h s' (later.trans given)).2 place block
    | inr options => exact ⟨options.1.trans given, .options options.2⟩

theorem skip_blanks {s : List Char} (some : s.dropWhile isBlank ≠ []) :
    ∃ c tail, s.dropWhile isBlank = c :: tail ∧ isBlank c = false := by
  have first := List.head?_dropWhile_not isBlank s
  cases start : s.dropWhile isBlank with
  | nil => exact absurd start some
  | cons c tail => exact ⟨c, tail, rfl, by simpa [start] using first⟩

theorem readRules_reads (h : ReadsBlock spanOf text (readBlock (rulesAt spanOf n))) :
    ReadsRules spanOf text (readRules (readRule spanOf (readBlock (rulesAt spanOf n)))) := by
  intro s given
  fun_induction readRules (readRule spanOf (readBlock (rulesAt spanOf n))) s with
  | case1 s ended => simp [AtEnd, Placed, Rule.partsOf]
  | case2 s rest ended =>
    have here := (List.dropWhile_suffix isBlank).trans given
    rw [ended] at here
    simpa [AtEnd, Placed, Rule.partsOf] using here
  | case3 s rest ended shorter ih =>
    have here := (List.dropWhile_suffix isBlank).trans given
    rw [ended] at here
    exact ih ((List.suffix_cons ..).trans here)
  | case4 s some _ _ none =>
    have here := (List.dropWhile_suffix isBlank).trans given
    obtain ⟨c, tail, start, blank⟩ := skip_blanks some
    rw [start] at here none ⊢
    have rejected : Rejects spanOf (c :: tail) := .rule (n := n) blank (by simp [none])
    simpa [RejectedAt] using ⟨here, rejected⟩
  | case5 s place some _ _ broken =>
    have own := readRule_reads h ((List.dropWhile_suffix _).trans given) (skip_blanks some)
    simpa using own.2 place broken
  | case6 s r mid shorter rs rest read some _ _ found ih =>
    have own := readRule_reads h ((List.dropWhile_suffix _).trans given) (skip_blanks some)
    obtain ⟨left, placed, inside⟩ := own.1 r mid found
    have others := (ih left).1 rs rest read
    simpa using ⟨others.1, placed_cons.mpr ⟨placed, inside, others.2⟩⟩
  | case7 => simp
  | case8 s r mid shorter place broken some _ _ found ih =>
    have own := readRule_reads h ((List.dropWhile_suffix _).trans given) (skip_blanks some)
    simpa using (ih (own.1 r mid found).1).2 place broken
  | case9 s r rest longer some _ _ found =>
    have here := (List.dropWhile_suffix isBlank).trans given
    have skipped := (List.dropWhile_suffix (l := s) isBlank).length_le
    obtain ⟨c, tail, start, blank⟩ := skip_blanks some
    rw [start] at here found skipped ⊢
    have rejected : Rejects spanOf (c :: tail) := by
      refine .rule (n := n) blank fun r' rest' again => ?_
      rw [found] at again
      cases again
      simp only [List.length_cons] at skipped
      omega
    simpa [RejectedAt] using ⟨here, rejected⟩

theorem readRules_ne_mismatch (rule : RuleReader Rule) (s : List Char) :
    readRules rule s ≠ .mismatch := by
  fun_induction readRules rule s <;> simp_all

theorem rulesAt_reads (n : Nat) : ReadsRules spanOf text (rulesAt spanOf n) := by
  induction n with
  | zero => intro s given; simp [rulesAt, failure]
  | succ n ih => exact readRules_reads (readBlock_reads ih)

/-! ## Whole sheets -/

theorem readText_ok (h : readText file source = .ok rules) :
    Placed (Position.spanOf file (Comment.blank source)) (Comment.blank source) rules := by
  unfold readText at h
  dsimp only at h
  split at h
  · rename_i read
    split at h <;> cases h
    exact ((rulesAt_reads _ _ List.suffix_rfl).1 _ _ read).2
  · cases h
  · cases h

theorem readText_error {file : Nat} {source : List Char} {failure : Failure}
    (h : readText file source = .error failure) :
    ∃ place, RejectedAt (Position.spanOf file (Comment.blank source)) (Comment.blank source) place ∧
      failure = syntaxFailure (Position.spanOf file (Comment.blank source)) place := by
  unfold readText at h
  dsimp only at h
  have reads : ReadsRules (Position.spanOf file (Comment.blank source)) (Comment.blank source)
    (rulesAt (Position.spanOf file (Comment.blank source)) ((Comment.blank source).length + 1)) :=
    rulesAt_reads _
  have reads := reads _ List.suffix_rfl
  split at h
  · rename_i rules rest read
    obtain ⟨⟨left, ended⟩, _⟩ := reads.1 rules rest read
    split at h <;> cases h
    rename_i visible
    cases ended with
    | inl none => simp [none, trim, trimStart, trimEnd] at visible
    | inr brace =>
      obtain ⟨tail, rfl⟩ := brace
      exact ⟨_, ⟨left, .unopened⟩, rfl⟩
  · rename_i none
    exact absurd none (readRules_ne_mismatch _ _)
  · rename_i place broken
    cases h
    exact ⟨place, reads.2 place broken, rfl⟩

end Sheet

theorem Stylesheet.read_error {source : String} {file : Nat} {path : Option Path} {f : Failure}
    (h : Stylesheet.read source file path = .error f) :
    let text := Comment.blank source.toList
    ∃ place, Sheet.RejectedAt (Position.spanOf file text) text place ∧
      f = Sheet.syntaxFailure (Position.spanOf file text) place := by
  unfold Stylesheet.read at h
  split at h <;> cases h
  rename_i read
  exact Sheet.readText_error read

theorem Stylesheet.readIn_of_read {source : String} {file : Nat} {path : Option Path}
    {sheet : Stylesheet} (h : Stylesheet.read source file path = .ok sheet) :
    ∀ r ∈ Rule.partsOf sheet.rules, r.ReadIn file := by
  intro r member
  unfold Stylesheet.read at h
  split at h <;> cases h
  rename_i read
  obtain ⟨start, _, here⟩ := Sheet.readText_ok read r member
  obtain ⟨n, rest, found⟩ := here.read
  have step := Sheet.readRule_found found
  exact ⟨by rw [step.span]; rfl, step.selectors⟩

theorem Stylesheet.allIn_of_read {source : String} {file : Nat} {path : Option Path}
    {sheet : Stylesheet} (h : Stylesheet.read source file path = .ok sheet) :
    Rule.AllIn file sheet.rules :=
  fun r member => (readIn_of_read h r member).file

end StyleResolution
