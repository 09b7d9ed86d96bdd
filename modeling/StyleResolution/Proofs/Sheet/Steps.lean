import StyleResolution.Proofs.Text.Shrinking
import StyleResolution.Sheet.Reading

/-! # What reading one rule comes to

A reader of rules is described by three properties: of the texts it is given, of what it finds and
leaves, and of the places at which it finds a text broken. For one rule this says that it carries
the position at which it starts, that the rules in its braces are what the reader of blocks finds
further on, and that a text is broken inside such a block or at the options of an import.
-/

namespace StyleResolution

/-- The position at which a rule starts. -/
def Rule.span : Rule → Span
  | .declaration d => d.span
  | .variable d => d.span
  | .mixin head _ => head.span
  | .call c => c.span
  | .fileImport i => i.span
  | .ruleset _ _ span | .media _ _ span | .atStatement _ _ span | .atBlock _ _ _ span => span

def Rule.selectors? : Rule → Option (List Selector)
  | .ruleset selectors _ _ => some selectors
  | _ => none

def Rule.inside? : Rule → Option (List Rule)
  | .ruleset _ rules _ | .mixin _ rules | .media _ rules _ | .atBlock _ _ rules _ => some rules
  | _ => none

namespace Reader

variable {α β : Type} {P : α → Prop}

def Results (p : Reader α) (P : α → Prop) : Prop :=
  ∀ s a rest, p s = some (a, rest) → P a

theorem Results.pure (h : P a) : Results (Pure.pure a) P := by
  intro s b rest found
  cases found
  exact h

theorem Results.bind {p : Reader β} {f : β → Reader α} (h : ∀ b, (f b).Results P) :
    (p >>= f).Results P := by
  intro s a rest found
  rw [bind_apply] at found
  split at found
  · cases found
  · exact h _ _ _ _ found

theorem Results.andThen {Q : β → Prop} {p : Reader β} {f : β → Reader α} (first : p.Results Q)
    (h : ∀ b, Q b → (f b).Results P) : (p >>= f).Results P := by
  intro s a rest found
  rw [bind_apply] at found
  split at found
  · cases found
  · rename_i b mid read
    exact h b (first _ _ _ read) _ _ _ found

theorem Results.many (h : p.Results P) : Results (Reader.many p) fun as => ∀ a ∈ as, P a := by
  intro s as rest found
  fun_induction Reader.many p s generalizing as rest with
  | case1 | case4 =>
    cases found
    simp
  | case2 => cases found
  | case3 s a mid read shorter others after found' ih =>
    cases found
    intro b member
    cases List.mem_cons.mp member with
    | inl own =>
      rw [own]
      exact h _ _ _ read
    | inr later => exact ih others _ found' b later

theorem Results.sepBy1 {separator : Reader β} {item : Reader α} (h : item.Results P) :
    (Reader.sepBy1 separator item).Results fun as => as ≠ [] ∧ ∀ a ∈ as, P a :=
  h.andThen fun first own => (Results.many (Results.bind fun _ => h)).andThen fun others later =>
    .pure ⟨List.cons_ne_nil first others, List.forall_mem_cons.mpr ⟨own, later⟩⟩

end Reader

def Below (text rest : List Char) : Prop :=
  rest <:+ text ∧ rest.length < text.length

theorem Below.of_suffix (h : Below text mid) (left : rest <:+ mid) : Below text rest :=
  ⟨left.trans h.1, Nat.lt_of_le_of_lt left.length_le h.2⟩

namespace RuleReader

variable {α β : Type} {text : List Char} {P B : List Char → Prop} {Q : α → List Char → Prop}

/-- Given a text with `P`, the reader finds a result and leaves a rest that are in `Q`, or does not
    match, or finds the text broken at a place with `B`. -/
def Triple (P : List Char → Prop) (p : RuleReader α) (Q : α → List Char → Prop)
    (B : List Char → Prop) : Prop :=
  ∀ s, P s →
    (∀ a rest, p s = .found a rest → Q a rest) ∧ ∀ place, p s = .broken place → B place

theorem bind_apply (p : RuleReader β) (f : β → RuleReader α) (s : List Char) :
    (p >>= f) s = match p s with
      | .found b rest => f b rest
      | .mismatch => .mismatch
      | .broken place => .broken place := rfl

theorem orElse_apply (p q : RuleReader α) (s : List Char) :
    (p <|> q) s = match p s with
      | .found a rest => .found a rest
      | .mismatch => q s
      | .broken place => .broken place := rfl

namespace Triple

theorem pure (h : ∀ s, P s → Q a s) : Triple P (Pure.pure a : RuleReader α) Q B := by
  intro s given
  constructor
  · intro b rest found
    cases found
    exact h s given
  · intro place broken
    cases broken

theorem bind {p : RuleReader β} {f : β → RuleReader α} {R : β → List Char → Prop}
    (first : Triple P p R B) (h : ∀ b, Triple (R b) (f b) Q B) : Triple P (p >>= f) Q B := by
  intro s given
  have first := first s given
  rw [bind_apply]
  cases read : p s with
  | found b mid => exact h b mid (first.1 b mid read)
  | mismatch => simp
  | broken place => simpa using first.2 place read

theorem orElse (first : Triple P p Q B) (second : Triple P q Q B) : Triple P (p <|> q) Q B := by
  intro s given
  have first := first s given
  rw [orElse_apply]
  cases read : p s with
  | found a rest => simpa [read] using first
  | mismatch => exact second s given
  | broken place => simpa [read] using first

theorem lift (h : ∀ s a rest, P s → p s = some (a, rest) → Q a rest) :
    Triple P (RuleReader.lift p) Q B := by
  intro s given
  unfold RuleReader.lift
  cases read : p s with
  | none => simp
  | some found => simpa using h s _ _ given read

theorem opt (h : Triple (Below text) p (fun _ => Below text) B) :
    Triple (Below text) (RuleReader.opt p) (fun _ => Below text) B := by
  intro s given
  have own := h s given
  unfold RuleReader.opt
  cases read : p s with
  | found a rest => simpa using own.1 a rest read
  | mismatch => simpa using given
  | broken place => simpa using own.2 place read

section

variable {p : Reader β} {f : β → RuleReader α} (h : ∀ b, Triple (Below text) (f b) Q B)

include h

theorem start [p.Consumes] : Triple (· <:+ text) ((liftM p : RuleReader β) >>= f) Q B :=
  bind (lift fun _ _ _ given read => Reader.Consumes.within given read) h

theorem past [p.Shrinks] : Triple (Below text) ((liftM p : RuleReader β) >>= f) Q B :=
  bind (lift fun _ _ _ given read => given.of_suffix (Reader.Shrinks.suffix read)) h

end

end Triple

end RuleReader

namespace Sheet

open RuleReader (Triple)

instance : Reader.Shrinks readStatementEnd where
  suffix {s u rest} h := by
    have skipped := List.dropWhile_suffix (l := s) Text.isBlank
    unfold readStatementEnd at h
    split at h <;> cases h <;> rename_i start <;> rw [start] at skipped
    · exact skipped
    · exact (List.suffix_cons ..).trans skipped
    · exact skipped

instance : Reader.Consumes readOptionNames := by unfold readOptionNames; infer_instance
instance : Reader.Consumes readImportMedia := by unfold readImportMedia; infer_instance
instance : Reader.Consumes readMixinGuard := by unfold readMixinGuard; infer_instance
instance : Reader.Consumes readCallArguments := by unfold readCallArguments; infer_instance
instance (span : Span) : Reader.Consumes (readVariable span) := by
  unfold readVariable
  infer_instance
instance (span : Span) : Reader.Consumes (readCall span) := by unfold readCall; infer_instance
instance (span : Span) : Reader.Consumes (readDeclaration span) := by
  unfold readDeclaration
  infer_instance

instance : Reader.Consumes (Reader.tag "@import") := Reader.consumes_tag (by decide)
instance : Reader.Consumes (Reader.tag "@media") := Reader.consumes_tag (by decide)

/-! ## Rules without braces -/

/-- The rule is written at the position and has neither selectors nor braces. -/
structure Plain (span : Span) (r : Rule) : Prop where
  span : r.span = span
  selectors : r.selectors? = none
  inside : r.inside? = none

theorem readVariable_plain (span : Span) : (readVariable span).Results (Plain span) :=
  .bind fun _ => .bind fun _ => .bind fun _ => .bind fun _ => .bind fun _ => .bind fun _ =>
    .pure ⟨rfl, rfl, rfl⟩

theorem readCall_plain (span : Span) : (readCall span).Results (Plain span) :=
  .bind fun _ => .bind fun _ => .bind fun _ => .bind fun _ => .pure ⟨rfl, rfl, rfl⟩

theorem readDeclaration_plain (span : Span) : (readDeclaration span).Results (Plain span) :=
  .bind fun _ => .bind fun _ => .bind fun _ => .bind fun _ => .bind fun _ => .pure ⟨rfl, rfl, rfl⟩

/-! ## Any rule -/

variable {block : RuleReader (List Rule)} {s : List Char} {span : Span}

/-- Reading at `s`, where the position is `span`, finds the rule and leaves the rest. -/
structure Step (block : RuleReader (List Rule)) (span : Span) (s : List Char) (r : Rule)
    (rest : List Char) : Prop where
  span : r.span = span
  selectors : ∀ selectors, r.selectors? = some selectors →
    ∃ s rest, Selector.readList s = some (selectors, rest)
  inside : ∀ rules, r.inside? = some rules → ∃ s', s' <:+ s ∧ block s' = .found rules rest
  rest : r.inside? = none → Below s rest

/-- Reading at `s` finds the text broken at the place: in a block, or at the options of imports. -/
def Stop (block : RuleReader (List Rule)) (s place : List Char) : Prop :=
  (∃ s', s' <:+ s ∧ block s' = .broken place) ∨
    place <:+ s ∧ readImportOptions place = .broken place

theorem Plain.step (plain : Plain span r) (left : Below s rest) : Step block span s r rest :=
  ⟨plain.span, by simp [plain.selectors], by simp [plain.inside], fun _ => left⟩

theorem Plain.triple {p : Reader Rule} [p.Consumes] (plain : p.Results (Plain span)) :
    Triple (· <:+ s) (RuleReader.lift p) (Step block span s) (Stop block s) :=
  .lift fun _ _ _ given read => (plain _ _ _ read).step (Reader.Consumes.within given read)

theorem block_triple {rule : List Rule → Rule}
    (h : ∀ rules rest s', s' <:+ s → block s' = .found rules rest →
      Step block span s (rule rules) rest) :
    Triple (Below s) (do let rules ← block; pure (rule rules)) (Step block span s)
      (Stop block s) :=
  Triple.bind (R := fun rules rest => ∃ s', s' <:+ s ∧ block s' = .found rules rest)
    (fun s' given =>
      ⟨fun _ _ found => ⟨s', given.1, found⟩, fun _ broken => .inl ⟨s', given.1, broken⟩⟩)
    fun rules => .pure fun rest read => by
      obtain ⟨s', given, found⟩ := read
      exact h rules rest s' given found

theorem Step.braced {r : Rule} {rules : List Rule} {rest s' : List Char} (here : r.span = span)
    (none : r.selectors? = none) (some : r.inside? = some rules) (given : s' <:+ s)
    (found : block s' = .found rules rest) : Step block span s r rest where
  span := here
  selectors := by simp [none]
  inside others same := by
    rw [some, Option.some_inj] at same
    exact ⟨s', given, same ▸ found⟩
  rest empty := by simp [some] at empty

theorem readMedia_triple :
    Triple (· <:+ s) (readMedia block span) (Step block span s) (Stop block s) :=
  .start fun _ => .past fun _ => .past fun _ => .past fun _ =>
    block_triple fun _ _ _ => .braced rfl rfl rfl

theorem readMixin_triple :
    Triple (· <:+ s) (readMixin block span) (Step block span s) (Stop block s) :=
  .start fun _ => .past fun _ => .past fun _ => .past fun _ => .past fun _ =>
    block_triple fun _ _ _ => .braced rfl rfl rfl

theorem readAtRule_triple :
    Triple (· <:+ s) (readAtRule block span) (Step block span s) (Stop block s) :=
  .start fun _ => .past fun _ => .past fun _ => .orElse
    (block_triple fun _ _ _ => .braced rfl rfl rfl)
    (.past fun _ => .pure fun _ left => Plain.step ⟨rfl, rfl, rfl⟩ left)

theorem readRuleset_triple :
    Triple (· <:+ s) (readRuleset block span) (Step block span s) (Stop block s) :=
  Triple.bind (R := fun selectors rest =>
      Below s rest ∧ ∃ s' rest, Selector.readList s' = some (selectors, rest))
    (.lift (p := Selector.readList) fun s' _ rest given read =>
      ⟨Reader.Consumes.within given read, s', rest, read⟩)
    fun selectors s' given =>
      have body : Triple (Below s) (do
          let _ ← (Reader.blanks : Reader (List Char))
          let rules ← block
          pure (Rule.ruleset selectors rules span)) (Step block span s) (Stop block s) :=
        .past fun _ => block_triple fun rules rest s'' later found =>
          ⟨rfl, fun others same => by cases same; exact given.2,
            fun others same => by cases same; exact ⟨s'', later, found⟩, fun none => by cases none⟩
      body s' given.1

theorem readImportOptions_triple :
    Triple (Below s) readImportOptions (fun _ => Below s) (Stop block s) := by
  intro s' given
  cases outcome : readImportOptions s' with
  | mismatch => simp
  | found options rest =>
    unfold readImportOptions at outcome
    split at outcome
    · cases outcome
    · rename_i read
      split at outcome <;> cases outcome
      simpa using given.of_suffix (Reader.Shrinks.suffix read)
  | broken place =>
    have here : place = s' := by
      unfold readImportOptions at outcome
      split at outcome
      · cases outcome
      · split at outcome <;> cases outcome
        rfl
    subst here
    simpa using .inr ⟨given.1, outcome⟩

theorem readImport_triple :
    Triple (· <:+ s) (readImport span) (Step block span s) (Stop block s) :=
  .start fun _ => .past fun _ => .bind (.opt readImportOptions_triple) fun _ => .past fun _ =>
    .past fun _ => .past fun _ => .past fun _ =>
      .pure fun _ left => Plain.step ⟨rfl, rfl, rfl⟩ left

theorem readRule_triple (spanOf : List Char → Span) :
    Triple (· = s) (readRule spanOf block) (Step block (spanOf s) s) (Stop block s) := by
  intro s' same
  subst same
  unfold readRule
  dsimp only
  split
  · exact (Triple.orElse (Plain.triple (readVariable_plain _)) (readImport_triple.orElse
      (readMedia_triple.orElse readAtRule_triple))) _ List.suffix_rfl
  · exact (readMixin_triple.orElse (readRuleset_triple.orElse
      ((Plain.triple (readCall_plain _)).orElse (Plain.triple (readDeclaration_plain _)))))
      _ List.suffix_rfl

theorem readRule_found (h : readRule spanOf block s = .found r rest) :
    Step block (spanOf s) s r rest :=
  (readRule_triple spanOf s rfl).1 r rest h

theorem readRule_broken (h : readRule spanOf block s = .broken place) : Stop block s place :=
  (readRule_triple spanOf s rfl).2 place h

end Sheet

end StyleResolution
