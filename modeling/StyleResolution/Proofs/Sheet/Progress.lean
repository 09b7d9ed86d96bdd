import StyleResolution.Proofs.Sheet.Origin
import StyleResolution.Proofs.Text.Agreement

/-! # Reading makes progress

Every reader takes a part off the front of its text, and all that are repeated or come back to
themselves take something. So no repetition has to be cut short because nothing is taken, and no
nesting because it is too deep: the equations of the grammar hold as they stand, and nothing else
satisfies them.
-/

namespace StyleResolution

namespace Agree

variable {α β : Type} {p q : RuleReader α}

theorem lifted {q : Reader α} [q.Shrinks] {f g : α → RuleReader β}
    (next : ∀ a, Agree n (f a) (g a)) :
    Agree n ((liftM q : RuleReader α) >>= f) ((liftM q : RuleReader α) >>= g) := by
  intro s short
  change (RuleReader.lift q >>= f) s = (RuleReader.lift q >>= g) s
  rw [RuleReader.bind_apply, RuleReader.bind_apply, RuleReader.lift]
  cases read : q s with
  | none => rfl
  | some found => exact next _ _ (Nat.lt_of_le_of_lt (Reader.Shrinks.length_le read) short)

theorem andThen {f : α → RuleReader β} (h : Agree n p q) : Agree n (p >>= f) (q >>= f) := by
  intro s short
  rw [RuleReader.bind_apply, RuleReader.bind_apply, h s short]

theorem otherwise {p' q' : RuleReader α} (first : Agree n p q) (second : Agree n p' q') :
    Agree n (p <|> p') (q <|> q') := by
  intro s short
  rw [RuleReader.orElse_apply, RuleReader.orElse_apply, first s short, second s short]

end Agree

namespace Sheet

variable {spanOf : List Char → Span}

/-- Any number of rules, with blocks nested as deep as the text has them. -/
def readBody (spanOf : List Char → Span) : RuleReader (List Rule) :=
  Agree.limit (rulesAt spanOf)

/-- Rules up to a closing brace or the end of the text, where `others` goes on after a rule or a
    semicolon. -/
def rulesThen (rule : RuleReader Rule) (others : RuleReader (List Rule)) :
    RuleReader (List Rule) := fun s =>
  match s.dropWhile Text.isBlank with
  | [] => .found [] []
  | '}' :: rest => .found [] ('}' :: rest)
  | ';' :: rest => others rest
  | start =>
    match rule start with
    | .mismatch => .broken start
    | .broken place => .broken place
    | .found r mid =>
      match others mid with
      | .found rs rest => .found (r :: rs) rest
      | .mismatch => .mismatch
      | .broken place => .broken place

/-! ## What is left -/

def Leaves (p : RuleReader α) : Prop :=
  ∀ s a rest, p s = .found a rest → rest <:+ s

/-- What the reader leaves is a shorter suffix. -/
def Takes (p : RuleReader α) : Prop :=
  ∀ s a rest, p s = .found a rest → Below s rest

theorem readBody_leaves : Leaves (readBody spanOf) :=
  fun s rules rest found => ((rulesAt_reads _ s List.suffix_rfl).1 rules rest found).1.1

theorem readBlock_takes (leaves : Leaves rules) : Takes (readBlock rules) := by
  intro s rs rest found
  unfold readBlock at found
  split at found
  · split at found <;> cases found
    rename_i read
    exact Reader.less_of_cons List.suffix_rfl ((List.suffix_cons ..).trans (leaves _ _ _ read))
  · cases found

theorem below_of_step (step : Step block span s r rest) (takes : Takes block) : Below s rest := by
  cases braces : r.inside? with
  | none => exact step.rest braces
  | some rules =>
    obtain ⟨s', later, found⟩ := step.inside rules braces
    have left := takes _ _ _ found
    exact ⟨left.1.trans later, Nat.lt_of_lt_of_le left.2 later.length_le⟩

theorem readRule_takes (takes : Takes block) : Takes (readRule spanOf block) :=
  fun _ _ _ found => below_of_step (readRule_found found) takes

theorem takes_of_triple (takes : Takes block)
    (triple : ∀ s, RuleReader.Triple (· <:+ s) p (Step block span s) (Stop block s)) : Takes p :=
  fun s r rest found => below_of_step ((triple s s List.suffix_rfl).1 r rest found) takes

/-! ## The equations of the grammar -/

/-- Only the rule where a rule starts matters, and what goes on after it or further behind. -/
theorem rulesThen_congr {others others' : RuleReader (List Rule)}
    (one : rule (s.dropWhile Text.isBlank) = rule' (s.dropWhile Text.isBlank))
    (more : ∀ mid, (mid.length < s.length ∨ ∃ r, rule' (s.dropWhile Text.isBlank) = .found r mid) →
      others mid = others' mid) :
    rulesThen rule others s = rulesThen rule' others' s := by
  have skipped := (List.dropWhile_suffix (l := s) Text.isBlank).length_le
  unfold rulesThen
  split
  · rfl
  · rfl
  · rename_i start
    rw [start, List.length_cons] at skipped
    exact more _ (.inl (Nat.lt_of_succ_le skipped))
  · rw [one]
    split
    · rfl
    · rfl
    · rename_i found
      rw [more _ (.inr ⟨_, found⟩)]

theorem readRules_guarded (rule : RuleReader Rule) (s : List Char) :
    readRules rule s = rulesThen rule (fun mid => if mid.length < s.length then readRules rule mid
      else .broken (s.dropWhile Text.isBlank)) s := by
  fun_cases readRules rule s <;> simp only [rulesThen, *, if_true, if_false]

theorem Takes.less (takes : Takes rule) {s : List Char}
    (h : mid.length < s.length ∨ ∃ r, rule (s.dropWhile Text.isBlank) = .found r mid) :
    mid.length < s.length := by
  rcases h with less | ⟨r, found⟩
  · exact less
  · exact Nat.lt_of_lt_of_le (takes _ _ _ found).2 (List.dropWhile_suffix _).length_le

theorem readRules_eq (takes : Takes rule) : readRules rule = rulesThen rule (readRules rule) := by
  funext s
  rw [readRules_guarded]
  exact rulesThen_congr rfl fun mid reached => if_pos (takes.less reached)

theorem readBlock_agree (h : Agree n rules rules') :
    Agree (n + 1) (readBlock rules) (readBlock rules') := by
  intro s short
  unfold readBlock
  split
  · rw [h _ (by simpa using short)]
  · rfl

theorem readRule_agree (h : Agree n block block') :
    Agree n (readRule spanOf block) (readRule spanOf block') := by
  intro s short
  unfold readRule
  dsimp only
  split
  · refine (Agree.otherwise .rfl (.otherwise .rfl (.otherwise ?_ ?_))) _ short
    · exact .lifted fun _ => .lifted fun _ => .lifted fun _ => .lifted fun _ => .andThen h
    · exact .lifted fun _ => .lifted fun _ => .lifted fun _ => .otherwise (.andThen h) .rfl
  · refine (Agree.otherwise ?_ (.otherwise ?_ .rfl)) _ short
    · exact .lifted fun _ => .lifted fun _ => .lifted fun _ => .lifted fun _ => .lifted fun _ =>
        .andThen h
    · exact .lifted fun _ => .lifted fun _ => .andThen h

theorem readRules_agree {rule rule' : RuleReader Rule} (h : Agree n rule rule') :
    Agree n (readRules rule) (readRules rule') := by
  intro s short
  induction hn : s.length using Nat.strongRecOn generalizing s with
  | ind length ih =>
    subst hn
    rw [readRules_guarded rule, readRules_guarded rule']
    refine rulesThen_congr (h _ ?_) fun mid reached => ?_
    · exact Nat.lt_of_le_of_lt (List.dropWhile_suffix _).length_le short
    · exact ite_congr rfl (fun shorter => ih _ shorter mid (Nat.lt_trans shorter short) rfl)
        fun _ => rfl

theorem readBody_eq :
    readBody spanOf = rulesThen (readRule spanOf (readBlock (readBody spanOf))) (readBody spanOf) := by
  have solution : readBody spanOf = readRules (readRule spanOf (readBlock (readBody spanOf))) :=
    Agree.limit_eq (G := fun _ => True)
      (F := fun rules => readRules (readRule spanOf (readBlock rules)))
      (fun _ _ _ _ h => readRules_agree (readRule_agree (readBlock_agree h))) (fun _ => rfl) trivial
  have takes : Takes (readRule spanOf (readBlock (readBody spanOf))) :=
    readRule_takes (readBlock_takes readBody_leaves)
  have steps := readRules_eq takes
  rwa [← solution] at steps

theorem eq_readBody {rules : RuleReader (List Rule)}
    (solves : rules = rulesThen (readRule spanOf (readBlock rules)) rules) :
    rules = readBody spanOf := by
  refine Agree.eq_of_solves (G := Leaves)
    (F := fun rules => rulesThen (readRule spanOf (readBlock rules)) rules)
    (fun n p q leaves h s short => ?_) readBody_leaves readBody_eq solves
  refine rulesThen_congr (readRule_agree (readBlock_agree h) _ ?_) fun mid reached => h mid ?_
  · exact Nat.lt_of_le_of_lt (List.dropWhile_suffix _).length_le short
  · exact Nat.lt_of_lt_of_le ((readRule_takes (readBlock_takes leaves)).less reached)
      (Nat.le_of_lt_succ short)

end Sheet

/-! ## Positions aside -/

mutual

/-- The rule without its positions. -/
def Rule.unplaced : Rule → Rule
  | .declaration d => .declaration { d with span := Span.none }
  | .variable d => .variable { d with span := Span.none }
  | .ruleset selectors rules _ => .ruleset selectors (Rule.allUnplaced rules) Span.none
  | .mixin head rules => .mixin { head with span := Span.none } (Rule.allUnplaced rules)
  | .call c => .call { c with span := Span.none }
  | .fileImport i => .fileImport { i with span := Span.none }
  | .media features rules _ => .media features (Rule.allUnplaced rules) Span.none
  | .atStatement name prelude _ => .atStatement name prelude Span.none
  | .atBlock name prelude rules _ => .atBlock name prelude (Rule.allUnplaced rules) Span.none

def Rule.allUnplaced : List Rule → List Rule
  | [] => []
  | r :: rules => r.unplaced :: Rule.allUnplaced rules

end

def Outcome.map (f : α → α) : Outcome α → Outcome α
  | .found a rest => .found (f a) rest
  | .mismatch => .mismatch
  | .broken place => .broken place

/-- The second reader does what the first does, but for the results. -/
def RuleReader.Maps (f : α → α) (p q : RuleReader α) : Prop :=
  ∀ s, (p s).map f = q s

namespace RuleReader.Maps

variable {α β : Type} {f : α → α} {p p' q q' : RuleReader α} {next next' : β → RuleReader α}

theorem pure (a : α) : Maps f (Pure.pure a : RuleReader α) (Pure.pure (f a)) :=
  fun _ => rfl

theorem andThen {g : β → β} {first first' : RuleReader β} (one : Maps g first first')
    (others : ∀ b, Maps f (next b) (next' (g b))) : Maps f (first >>= next) (first' >>= next') := by
  intro s
  rw [bind_apply, bind_apply, ← one s]
  cases first s with
  | found b rest => exact others b rest
  | mismatch | broken => rfl

theorem bind {first : RuleReader β} (others : ∀ b, Maps f (next b) (next' b)) :
    Maps f (first >>= next) (first >>= next') :=
  andThen (g := id) (fun s => by cases first s <;> rfl) others

theorem orElse (one : Maps f p q) (other : Maps f p' q') : Maps f (p <|> p') (q <|> q') := by
  intro s
  rw [orElse_apply, orElse_apply, ← one s]
  cases p s with
  | mismatch => exact other s
  | found | broken => rfl

end RuleReader.Maps

theorem RuleReader.lift_bind {α β : Type} (p : Reader β) (next : β → Reader α) :
    lift (p >>= next) = lift p >>= fun b => lift (next b) := by
  funext s
  simp only [lift, bind_apply, Reader.bind_apply]
  cases p s <;> rfl

namespace Sheet

open RuleReader (Maps)

theorem readRule_unplaced (inner : Maps Rule.allUnplaced block block') (spanOf : List Char → Span) :
    Maps Rule.unplaced (readRule spanOf block) (readRule (fun _ => Span.none) block') := by
  intro s
  unfold readRule
  dsimp only
  split
  · refine (Maps.orElse ?_ (.orElse ?_ (.orElse ?_ ?_))) _
    · simp only [readVariable, RuleReader.lift_bind]
      exact .bind fun _ => .bind fun _ => .bind fun _ => .bind fun _ => .bind fun _ => .bind fun _ =>
        .pure _
    · exact .bind fun _ => .bind fun _ => .bind fun _ => .bind fun _ => .bind fun _ => .bind fun _ =>
        .bind fun _ => .pure _
    · exact .bind fun _ => .bind fun _ => .bind fun _ => .bind fun _ => .andThen inner fun _ => .pure _
    · exact .bind fun _ => .bind fun _ => .bind fun _ => .orElse (.andThen inner fun _ => .pure _)
        (.bind fun _ => .pure _)
  · refine (Maps.orElse ?_ (.orElse ?_ (.orElse ?_ ?_))) _
    · exact .bind fun _ => .bind fun _ => .bind fun _ => .bind fun _ => .bind fun _ =>
        .andThen inner fun _ => .pure _
    · exact .bind fun _ => .bind fun _ => .andThen inner fun _ => .pure _
    · simp only [readCall, RuleReader.lift_bind]
      exact .bind fun _ => .bind fun _ => .bind fun _ => .bind fun _ => .pure _
    · simp only [readDeclaration, RuleReader.lift_bind]
      exact .bind fun _ => .bind fun _ => .bind fun _ => .bind fun _ => .bind fun _ => .pure _

theorem readBlock_unplaced (inner : Maps Rule.allUnplaced rules rules') :
    Maps Rule.allUnplaced (readBlock rules) (readBlock rules') := by
  intro s
  unfold readBlock
  split
  · rename_i text
    rw [← inner text]
    cases rules text with
    | mismatch | broken => rfl
    | found rs rest =>
      rcases rest with _ | ⟨c, rest⟩
      · rfl
      · by_cases brace : c = '}' <;> simp [Outcome.map, brace]
  · rfl

theorem rulesThen_unplaced {others others' : RuleReader (List Rule)}
    (one : Maps Rule.unplaced rule rule') (more : Maps Rule.allUnplaced others others') :
    Maps Rule.allUnplaced (rulesThen rule others) (rulesThen rule' others') := by
  intro s
  unfold rulesThen
  split
  · rfl
  · rfl
  · exact more _
  · rw [← one]
    cases rule (s.dropWhile Text.isBlank) with
    | mismatch | broken => rfl
    | found r mid =>
      dsimp only [Outcome.map]
      rw [← more mid]
      cases others mid <;> rfl

/-- Which rules are read does not depend on where they stand. -/
theorem readBody_unplaced (spanOf : List Char → Span) :
    Maps Rule.allUnplaced (readBody spanOf) (readBody fun _ => Span.none) := by
  let unplaced : RuleReader (List Rule) := fun s => (readBody spanOf s).map Rule.allUnplaced
  have itself : Maps Rule.allUnplaced (readBody spanOf) unplaced := fun _ => rfl
  have solves : unplaced = rulesThen (readRule (fun _ => Span.none) (readBlock unplaced)) unplaced := by
    funext s
    rw [← rulesThen_unplaced (readRule_unplaced (readBlock_unplaced itself) spanOf) itself s,
      ← readBody_eq]
  exact fun s => congrFun (eq_readBody solves) s

end Sheet

/-! ## All readers -/

open Reader Value in
/-- The readers of the grammar and what is repeated in them. -/
def Sheet.readers (semicolons : Bool) (combinator : Combinator) (span : Span) :
    List ((α : Type) × Reader α) :=
  [⟨_, Decimal.Numeral.read⟩, ⟨_, readDimension⟩, ⟨_, readColor⟩, ⟨_, readQuoted⟩,
    ⟨_, Value.readVariable⟩, ⟨_, readKeyword⟩, ⟨_, readUrl⟩, ⟨_, readParen readSpaceList⟩,
    ⟨_, readNegation readSpaceList⟩, ⟨_, Value.readCall readSpaceList⟩, ⟨_, readFactor⟩,
    ⟨_, readOperation ['*', '/'] readFactor⟩, ⟨_, term readSpaceList⟩,
    ⟨_, readOperation ['+', '-'] (term readSpaceList)⟩, ⟨_, readExpression⟩,
    ⟨_, do let _ ← blanks; readExpression⟩, ⟨_, readSpaceList⟩,
    ⟨_, do let _ ← spaced ','; readSpaceList⟩, ⟨_, readValue⟩, ⟨_, readVerbatim⟩,
    ⟨_, readDeclarationValue⟩, ⟨_, Selector.readPseudo⟩, ⟨_, Selector.readAttribute⟩,
    ⟨_, Selector.readSimple⟩, ⟨_, Selector.readCompound combinator⟩, ⟨_, Selector.readCombinator⟩,
    ⟨_, Selector.readNext⟩, ⟨_, Selector.read⟩, ⟨_, do let _ ← spaced ','; Selector.read⟩,
    ⟨_, Selector.readList⟩, ⟨_, MediaQuery.readFeature⟩, ⟨_, MediaQuery.readToken⟩,
    ⟨_, do let _ ← blanks1; MediaQuery.readToken⟩, ⟨_, MediaQuery.readQuery⟩,
    ⟨_, do let _ ← spaced ','; MediaQuery.readQuery⟩, ⟨_, MediaQuery.readList⟩,
    ⟨_, Mixin.readItem semicolons⟩, ⟨_, Mixin.readParam semicolons⟩, ⟨_, Mixin.readParams⟩,
    ⟨_, Mixin.readArgument semicolons⟩, ⟨_, Mixin.readArguments⟩, ⟨_, Mixin.readSegment⟩,
    ⟨_, do let _ ← Mixin.readPathGap; Mixin.readSegment⟩, ⟨_, Mixin.readPath⟩,
    ⟨_, Mixin.readComparison⟩, ⟨_, Mixin.readCondition⟩, ⟨_, Mixin.readConditions⟩,
    ⟨_, Mixin.readGuard⟩, ⟨_, readOptionNames⟩, ⟨_, Sheet.readVariable span⟩,
    ⟨_, Sheet.readCall span⟩, ⟨_, readDeclaration span⟩]

def Sheet.ruleReaders (spanOf : List Char → Span) (span : Span) : List (RuleReader Rule) :=
  let block := readBlock (readBody spanOf)
  [readImport span, readMedia block span, readAtRule block span, readMixin block span,
    readRuleset block span, readRule spanOf block]

theorem Sheet.consumes_of_mem_readers :
    ∀ p ∈ readers semicolons combinator span, Reader.Consumes p.2 := by
  unfold readers
  simp only [List.forall_mem_cons, List.not_mem_nil, false_imp_iff, implies_true, and_true]
  repeat' apply And.intro
  all_goals infer_instance

theorem Sheet.takes_of_mem_ruleReaders : ∀ p ∈ ruleReaders spanOf span, Takes p := by
  have block : Takes (readBlock (readBody spanOf)) := readBlock_takes readBody_leaves
  unfold ruleReaders
  simp only [List.forall_mem_cons, List.not_mem_nil, false_imp_iff, implies_true, and_true]
  exact ⟨takes_of_triple block fun _ => readImport_triple,
    takes_of_triple block fun _ => readMedia_triple,
    takes_of_triple block fun _ => readAtRule_triple,
    takes_of_triple block fun _ => readMixin_triple,
    takes_of_triple block fun _ => readRuleset_triple, readRule_takes block⟩

theorem Stylesheet.read_cases (source : String) (file : Nat) (path : Option Path) :
    let text := Comment.blank source.toList
    (∃ rules rest, Sheet.readBody (Position.spanOf file text) text = .found rules rest ∧
      Stylesheet.read source file path = .ok ⟨path, rules⟩) ∨
    ∃ place, place <:+ text ∧ Stylesheet.read source file path =
      .error (Sheet.syntaxFailure (Position.spanOf file text) place) := by
  unfold Stylesheet.read
  cases read : Sheet.readText file source.toList with
  | error failure =>
    obtain ⟨place, rejected, rfl⟩ := Sheet.readText_error read
    exact .inr ⟨place, rejected.1, rfl⟩
  | ok rules =>
    unfold Sheet.readText at read
    dsimp only at read
    split at read
    · split at read <;> cases read
      exact .inl ⟨rules, _, ‹_›, rfl⟩
    · cases read
    · cases read

/-- Every reader leaves a suffix, a shorter one unless it looks for a mark or an end or reads any number
    of rules. So whatever is repeated ends by itself, the equations of the grammar have one solution, and
    every text is read or rejected for its syntax. -/
theorem reading_makes_progress :
    (∀ semicolons combinator span, ∀ p ∈ Sheet.readers semicolons combinator span, ∀ s,
      (∀ a rest, p.2 s = some (a, rest) → rest <:+ s ∧ rest.length < s.length) ∧
      ∃ as rest, Reader.Repeats p.2 s as rest ∧ Reader.many p.2 s = some (as, rest)) ∧
    (∀ spanOf span, ∀ p ∈ Sheet.ruleReaders spanOf span, ∀ s r rest, p s = .found r rest →
      rest <:+ s ∧ rest.length < s.length) ∧
    (∀ s important rest, Value.readImportant s = some (important, rest) → rest <:+ s) ∧
    (∀ s ended rest, Sheet.readStatementEnd s = some (ended, rest) → rest <:+ s) ∧
    (∀ spanOf s rules rest, Sheet.readBody spanOf s = .found rules rest → rest <:+ s) ∧
    (∀ p, p = Value.spaceListOf p ↔ p = Value.readSpaceList) ∧
    Value.readExpression = Value.expression Value.readSpaceList ∧
    Value.readFactor = Value.factor Value.readSpaceList ∧
    (∀ spanOf rules, rules = Sheet.rulesThen (Sheet.readRule spanOf (Sheet.readBlock rules)) rules ↔
      rules = Sheet.readBody spanOf) ∧
    ∀ source file path, let text := Comment.blank source.toList
      (∃ rules rest, Sheet.readBody (Position.spanOf file text) text = .found rules rest ∧
        Stylesheet.read source file path = .ok ⟨path, rules⟩) ∨
      ∃ place, place <:+ text ∧ Stylesheet.read source file path =
        .error { cause := .invalidSyntax (Sheet.rejection place),
                 span := some (Position.spanOf file text (Text.trimStart place)) } := by
  refine ⟨fun semicolons combinator span p member s => ?_, fun spanOf span p member =>
    Sheet.takes_of_mem_ruleReaders p member, fun _ _ _ => Reader.Shrinks.suffix,
    fun _ _ _ => Reader.Shrinks.suffix, fun spanOf => Sheet.readBody_leaves, fun p =>
      ⟨Value.eq_readSpaceList, ?_⟩,
    Value.readExpression_eq, Value.readFactor_eq, fun spanOf rules => ⟨Sheet.eq_readBody, ?_⟩,
    Stylesheet.read_cases⟩
  · have := Sheet.consumes_of_mem_readers p member
    obtain ⟨as, rest, repeats⟩ := Reader.exists_repeats (p := p.2) s
    exact ⟨fun a rest => Reader.Consumes.less, as, rest, repeats, repeats.many⟩
  · rintro rfl
    exact Value.readSpaceList_eq
  · rintro rfl
    exact Sheet.readBody_eq

end StyleResolution
