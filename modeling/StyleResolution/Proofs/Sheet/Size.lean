import StyleResolution.Proofs.Sheet.Steps

/-! # A sheet has no more rules than characters

Every rule takes at least one character of its own: a block takes its braces, and a sequence of
rules only goes on where the rule before has taken something. So the number of rules at all depths
is bounded by the length of the text.
-/

namespace StyleResolution

theorem Rule.size_eq (r : Rule) : r.size = 1 + r.inside?.elim 0 Rule.sizes := by
  cases r <;> simp [Rule.size, Rule.inside?]

namespace Comment

theorem length_blankFrom (mode : Mode) (s : List Char) : (blankFrom mode s).length = s.length := by
  fun_induction blankFrom mode s <;> simp_all

end Comment

namespace Sheet

/-- A block takes its braces and one character for each rule in it. -/
def BlockFits (block : RuleReader (List Rule)) : Prop :=
  ∀ s rules rest, block s = .found rules rest → Rule.sizes rules + 2 + rest.length ≤ s.length

/-- The rule is a single one, or takes one character for each rule in it. -/
def RuleFits (rule : RuleReader Rule) : Prop :=
  ∀ s r rest, rule s = .found r rest → r.size = 1 ∨ r.size + rest.length ≤ s.length

/-- A sequence of rules takes one character for each rule in it. -/
def RulesFit (rules : RuleReader (List Rule)) : Prop :=
  ∀ s rs rest, rules s = .found rs rest → Rule.sizes rs + rest.length ≤ s.length

theorem readBlock_fits (fit : RulesFit rules) : BlockFits (readBlock rules) := by
  intro s rs rest h
  unfold readBlock at h
  split at h
  · rename_i inner
    split at h <;> cases h
    rename_i found
    have inside := fit _ _ _ found
    simp only [List.length_cons] at inside ⊢
    omega
  · cases h

theorem readRule_fits (fits : BlockFits block) (spanOf : List Char → Span) :
    RuleFits (readRule spanOf block) := by
  intro s r rest h
  rw [Rule.size_eq]
  cases inside : r.inside? with
  | none => exact .inl rfl
  | some rules =>
    obtain ⟨s', given, found⟩ := (readRule_found h).inside rules inside
    have := fits _ _ _ found
    have := given.length_le
    simp only [Option.elim_some]
    omega

theorem readRules_fit (fits : RuleFits rule) : RulesFit (readRules rule) := by
  intro s rs rest h
  have skipped := (List.dropWhile_suffix (l := s) Text.isBlank).length_le
  fun_induction readRules rule s generalizing rs with
  | case1 s ended =>
    cases h
    simp [Rule.sizes]
  | case2 s rest' ended =>
    cases h
    rw [ended] at skipped
    simpa [Rule.sizes] using skipped
  | case3 s rest' ended shorter ih =>
    have := ih rs h (List.dropWhile_suffix Text.isBlank).length_le
    omega
  | case4 | case5 | case7 | case8 | case9 => cases h
  | case6 s r mid shorter others after read _ _ _ found ih =>
    cases h
    have fromMid := ih others read (List.dropWhile_suffix Text.isBlank).length_le
    simp only [Rule.sizes]
    rcases fits _ _ _ found with single | takes
    · omega
    · omega

theorem rulesAt_fit (spanOf : List Char → Span) (n : Nat) : RulesFit (rulesAt spanOf n) := by
  induction n with
  | zero =>
    intro s rs rest h
    cases h
  | succ n ih => exact readRules_fit (readRule_fits (readBlock_fits ih) spanOf)

end Sheet

theorem Stylesheet.sizes_le_of_read {source : String} {file : Nat} {path : Option Path}
    {sheet : Stylesheet} (h : Stylesheet.read source file path = .ok sheet) :
    Rule.sizes sheet.rules ≤ source.length := by
  unfold Stylesheet.read Sheet.readText at h
  dsimp only at h
  split at h <;> cases h
  rename_i rules ended
  split at ended
  · rename_i read
    split at ended <;> cases ended
    have fit := Sheet.rulesAt_fit _ _ _ _ _ read
    rw [Comment.blank, Comment.length_blankFrom] at fit
    have := String.length_toList (s := source)
    simp only at fit ⊢
    omega
  · cases ended
  · cases ended

end StyleResolution
