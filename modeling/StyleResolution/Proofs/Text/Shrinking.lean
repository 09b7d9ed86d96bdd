import StyleResolution.Mixin.Reading
import StyleResolution.Proofs.Text.Tokens
import StyleResolution.Selector.Reading
import StyleResolution.Sheet.MediaQuery

/-! # Readers leave a suffix of their text

What a reader leaves is the end of what it was given, and less than that if it takes something. This
follows from how readers are put together, so there are two classes: the instances for sequence,
choice and repetition find the properties of every reader that is made from smaller ones.
-/

namespace StyleResolution

/-- The rest is a suffix of the text. -/
class Reader.Shrinks {α : Type} (p : Reader α) : Prop where
  suffix {s : List Char} {a : α} {rest : List Char} : p s = some (a, rest) → rest <:+ s

/-- The rest is a shorter suffix of the text. -/
class Reader.Consumes {α : Type} (p : Reader α) : Prop where
  less {s : List Char} {a : α} {rest : List Char} :
    p s = some (a, rest) → rest <:+ s ∧ rest.length < s.length

namespace Reader

open Shrinks (suffix)
open Consumes (less)

variable {α β : Type} {p q : Reader α} {f : α → Reader β}

theorem Shrinks.length_le [Shrinks p] (h : p s = some (a, rest)) : rest.length ≤ s.length :=
  (suffix h).length_le

theorem less_of_cons (here : c :: after <:+ s) (left : rest <:+ after) :
    rest <:+ s ∧ rest.length < s.length :=
  ⟨left.trans ((List.suffix_cons ..).trans here),
    Nat.lt_of_le_of_lt left.length_le (Nat.lt_of_lt_of_le (Nat.lt_succ_self _) here.length_le)⟩

theorem Consumes.within [Consumes p] (given : mid <:+ s) (h : p mid = some (a, rest)) :
    rest <:+ s ∧ rest.length < s.length :=
  ⟨(less h).1.trans given, Nat.lt_of_lt_of_le (less h).2 given.length_le⟩

instance [Consumes p] : Shrinks p where
  suffix h := (less h).1

instance (a : α) : Shrinks (pure a : Reader α) where
  suffix h := by cases h; exact List.suffix_rfl

instance : Consumes (failure : Reader α) where
  less h := by cases h

instance shrinks_bind [Shrinks p] [∀ a, Shrinks (f a)] : Shrinks (p >>= f) where
  suffix h := by
    obtain ⟨a, mid, first, later⟩ := bind_eq_some.mp h
    exact (suffix later).trans (suffix first)

instance [Shrinks p] [∀ a, Consumes (f a)] : Consumes (p >>= f) where
  less h := by
    obtain ⟨a, mid, first, later⟩ := bind_eq_some.mp h
    exact Consumes.within (suffix first) later

instance [Consumes p] [∀ a, Shrinks (f a)] : Consumes (p >>= f) where
  less h := by
    obtain ⟨a, mid, first, later⟩ := bind_eq_some.mp h
    have left := suffix later
    exact ⟨left.trans (less first).1, Nat.lt_of_le_of_lt left.length_le (less first).2⟩

instance [Shrinks p] [Shrinks q] : Shrinks (p <|> q) where
  suffix h := (orElse_eq_some.mp h).elim suffix fun second => suffix second.2

instance [Consumes p] [Consumes q] : Consumes (p <|> q) where
  less h := (orElse_eq_some.mp h).elim less fun second => less second.2

instance {c : Prop} [Decidable c] [Consumes p] [Consumes q] : Consumes (if c then p else q) := by
  split <;> infer_instance

instance {c : Prop} [Decidable c] [Shrinks p] [Shrinks q] : Shrinks (if c then p else q) := by
  split <;> infer_instance

instance (holds : Char → Bool) : Consumes (satisfy holds) where
  less h := by
    obtain ⟨rfl, -⟩ := satisfy_eq_some.mp h
    exact less_of_cons List.suffix_rfl List.suffix_rfl

instance (c : Char) : Consumes (char c) :=
  inferInstanceAs (Consumes (satisfy _))

theorem suffix_of_word (h : word w s = some (u, rest)) : rest <:+ s := by
  fun_induction word w s with
  | case1 s => cases h; exact List.suffix_rfl
  | case2 => cases h
  | case3 w ws c cs same ih => exact (ih h).trans (List.suffix_cons ..)
  | case4 => cases h

instance (text : String) : Shrinks (tag text) where
  suffix h := suffix_of_word h

theorem consumes_tag (some : text.toList ≠ []) : Consumes (tag text) where
  less {s u rest} h := by
    obtain ⟨w, ws, isWord⟩ := List.exists_cons_of_ne_nil some
    rw [tag, isWord] at h
    cases s with
    | nil => cases h
    | cons c cs =>
      simp only [word] at h
      split at h
      · exact less_of_cons List.suffix_rfl (suffix_of_word h)
      · cases h

theorem suffix_of_wordAnyCase (h : wordAnyCase w s = some (u, rest)) : rest <:+ s := by
  fun_induction wordAnyCase w s with
  | case1 s => cases h; exact List.suffix_rfl
  | case2 => cases h
  | case3 w ws c cs same ih => exact (ih h).trans (List.suffix_cons ..)
  | case4 => cases h

instance (w : List Char) : Shrinks (wordAnyCase w) where
  suffix h := suffix_of_wordAnyCase h

instance (holds : Char → Bool) : Shrinks (takeWhile holds) where
  suffix h := by
    cases h
    exact List.dropWhile_suffix holds

instance (holds : Char → Bool) : Consumes (takeWhile1 holds) where
  less h := by
    obtain ⟨rfl, some, -⟩ := takeWhile1_eq_some.mp h
    have := List.length_pos_iff.mpr some
    exact ⟨List.suffix_append .., by rw [List.length_append]; omega⟩

instance : Shrinks blanks :=
  inferInstanceAs (Shrinks (takeWhile _))

instance : Consumes blanks1 :=
  inferInstanceAs (Consumes (takeWhile1 _))

instance [Shrinks p] : Shrinks (opt p) where
  suffix h := by
    rcases opt_eq_some.mp h with ⟨a, -, read⟩ | ⟨-, rfl, -⟩
    · exact suffix read
    · exact List.suffix_rfl

theorem suffix_of_many [Shrinks p] (h : many p s = some (as, rest)) : rest <:+ s := by
  fun_induction many p s generalizing as with
  | case1 | case4 => cases h; exact List.suffix_rfl
  | case2 => cases h
  | case3 s a mid read shorter others after found ih =>
    cases h
    exact (ih found).trans (suffix read)

-- The result type of `many` is written out, so the instance for sequences does not apply to it.
instance [Shrinks p] {f : List α → Reader β} [∀ as, Shrinks (f as)] :
    Shrinks ((many p : Reader (List α)) >>= f) :=
  @shrinks_bind _ _ (many p) f ⟨suffix_of_many⟩ _

/-- Repeating the reader for as long as it matches gives these results and leaves the rest. -/
inductive Repeats (p : Reader α) : List Char → List α → List Char → Prop where
  | done {s : List Char} (none : p s = none) : Repeats p s [] s
  | again {s mid rest : List Char} {a : α} {as : List α} (found : p s = some (a, mid))
      (others : Repeats p mid as rest) : Repeats p s (a :: as) rest

theorem Repeats.many [Consumes p] (h : Repeats p s as rest) : many p s = some (as, rest) := by
  induction h with
  | done none => rw [Reader.many, none]
  | again found others ih => simp [Reader.many, found, (less found).2, ih]

theorem exists_repeats [Consumes p] (s : List Char) : ∃ as rest, Repeats p s as rest := by
  induction hn : s.length using Nat.strongRecOn generalizing s with
  | ind n ih =>
    cases found : p s with
    | none => exact ⟨[], s, .done found⟩
    | some result =>
      obtain ⟨as, rest, others⟩ := ih _ (hn ▸ (less found).2) result.2 rfl
      exact ⟨result.1 :: as, rest, .again found others⟩

instance (c : Char) : Consumes (spaced c) := by
  unfold spaced
  infer_instance

instance {separator : Reader β} [Shrinks separator] [Consumes p] :
    Consumes (sepBy1 separator p) := by
  unfold sepBy1
  infer_instance

instance {separator : Reader β} [Shrinks separator] [Consumes p] :
    Shrinks (sepBy separator p) := by
  unfold sepBy
  infer_instance

end Reader

open Reader (Shrinks Consumes)

instance : Consumes Text.readName := by unfold Text.readName; infer_instance
instance : Consumes Text.readIdent := by unfold Text.readIdent; infer_instance
instance : Consumes Text.readMarked := by unfold Text.readMarked; infer_instance
instance : Consumes Decimal.Numeral.readFraction := by
  unfold Decimal.Numeral.readFraction
  infer_instance
instance : Consumes Decimal.Numeral.readMagnitude := by
  unfold Decimal.Numeral.readMagnitude
  infer_instance
instance : Consumes Decimal.Numeral.read := by unfold Decimal.Numeral.read; infer_instance

/-! ## Values -/

namespace Value

variable {inner : Reader Value}

instance : Consumes readDimension := by unfold readDimension; infer_instance
instance : Consumes readColor := by unfold readColor; infer_instance

instance (quote : Char) : Shrinks (readStringBody quote) where
  suffix {s body rest} h := by
    fun_induction readStringBody quote s generalizing body with
    | case1 | case3 | case4 | case7 => cases h
    | case2 | case6 => cases h; exact List.suffix_rfl
    | case5 c d cs _ inner left found ih =>
      cases h
      exact (ih found).trans ((List.suffix_cons ..).trans (List.suffix_cons ..))
    | case8 c d cs _ _ inner left found ih =>
      cases h
      exact (ih found).trans (List.suffix_cons ..)

instance : Consumes readQuoted := by unfold readQuoted; infer_instance
instance : Consumes readVariable := by unfold readVariable; infer_instance
instance : Consumes readKeyword := by unfold readKeyword; infer_instance
instance : Consumes readUrlText := by unfold readUrlText; infer_instance
instance : Consumes readUrl := by unfold readUrl; infer_instance
instance [Shrinks inner] : Consumes (readParen inner) := by unfold readParen; infer_instance
instance [Shrinks inner] : Consumes (readNegation inner) := by unfold readNegation; infer_instance
instance [Consumes inner] : Consumes (readCall inner) := by unfold readCall; infer_instance
instance [Consumes inner] : Consumes (factor inner) := by unfold factor; infer_instance

instance (symbols : List Char) : Consumes (readOperator symbols) where
  less {s op rest} h := by
    unfold readOperator at h
    split at h
    · cases h
    · rename_i c after skipped
      split at h <;> try cases h
      split at h <;> try cases h
      split at h <;> cases h
      have here := List.dropWhile_suffix (l := s) Text.isBlank
      rw [skipped] at here
      exact Reader.less_of_cons here (List.dropWhile_suffix _)

instance {symbols : List Char} {operand : Reader Value} [Shrinks operand] :
    Consumes (readOperation symbols operand) := by
  unfold readOperation
  infer_instance

instance {symbols : List Char} {operand : Reader Value} [Consumes operand] :
    Consumes (readOperations symbols operand) := by
  unfold readOperations
  infer_instance

instance [Consumes inner] : Consumes (term inner) := by unfold term; infer_instance
instance [Consumes inner] : Consumes (expression inner) := by unfold expression; infer_instance
instance [Consumes inner] : Consumes (spaceListOf inner) := by unfold spaceListOf; infer_instance

instance consumes_spaceListAt : (n : Nat) → Consumes (spaceListAt n)
  | 0 => inferInstanceAs (Consumes (failure : Reader Value))
  | n + 1 =>
    have := consumes_spaceListAt n
    inferInstanceAs (Consumes (spaceListOf (spaceListAt n)))

theorem consumes_of_length {p : Nat → Reader Value} [∀ n, Consumes (p n)] :
    Consumes (fun s => p s.length s) where
  less h := Consumes.less h

instance : Consumes readFactor :=
  @consumes_of_length (fun n => factor (spaceListAt n)) _

instance : Consumes readExpression :=
  @consumes_of_length (fun n => expression (spaceListAt n)) _

instance : Consumes readSpaceList :=
  @consumes_of_length (fun n => spaceListOf (spaceListAt n)) _

instance : Consumes readValue := by unfold readValue commaListOf; infer_instance

instance : Consumes readVerbatim where
  less {s v rest} h := by
    cases s with
    | nil => cases h
    | cons c cs =>
      unfold readVerbatim at h
      dsimp only at h
      -- What is kept is part of what is used, so something is.
      split at h <;> split at h <;> cases h <;> rename_i kept <;>
        refine ⟨List.drop_suffix .., ?_⟩ <;> rw [List.length_drop]
      · rename_i stripped _
        cases stripped with
        | nil => simp [Text.trimEnd] at kept
        | cons => simp only [List.length_cons]; omega
      · simp only [Bool.or_eq_true, List.isEmpty_iff, not_or] at kept
        have := List.length_pos_iff.mpr kept.1
        simp only [List.length_cons]
        omega

instance : Consumes readDeclarationValue where
  less {s v rest} h := by
    unfold readDeclarationValue at h
    split at h
    · split at h
      · cases h
        exact Consumes.less ‹_›
      · exact Consumes.less h
    · exact Consumes.less h

instance : Shrinks readImportant := by unfold readImportant; infer_instance

end Value

/-! ## Media queries, mixins and selectors -/

namespace MediaQuery

instance : Consumes readFeatureValue := by unfold readFeatureValue; infer_instance
instance : Consumes readFeature := by unfold readFeature; infer_instance
instance : Consumes readToken := by unfold readToken; infer_instance
instance : Consumes readQuery := by unfold readQuery; infer_instance
instance : Consumes readList := by unfold readList; infer_instance

end MediaQuery

namespace Mixin

instance (semicolons : Bool) : Consumes (readItem semicolons) := by unfold readItem; infer_instance

instance {α : Type} {item : Bool → Reader α} [∀ semicolons, Consumes (item semicolons)]
    (semicolons : Bool) : Consumes (readItems item semicolons) := by
  unfold readItems
  infer_instance

instance {α : Type} {item : Bool → Reader α} [∀ semicolons, Consumes (item semicolons)] :
    Consumes (readParenthesized item) where
  less {s items rest} h := by
    unfold readParenthesized at h
    split at h
    · cases h
    · rename_i opened inner opening
      have skipped : inner.dropWhile Text.isBlank <:+ s :=
        (List.dropWhile_suffix _).trans (Shrinks.suffix opening)
      split at h
      · rename_i closed
        cases h
        rw [closed] at skipped
        exact Reader.less_of_cons skipped List.suffix_rfl
      · exact Consumes.within skipped h

instance : Consumes readAtName := by unfold readAtName; infer_instance
instance : Consumes readAtNameColon := by unfold readAtNameColon; infer_instance
instance : Consumes (Reader.tag "...") := Reader.consumes_tag (by decide)
instance (semicolons : Bool) : Consumes (readParam semicolons) := by unfold readParam; infer_instance
instance : Consumes readParams := by unfold readParams; infer_instance
instance (semicolons : Bool) : Consumes (readArgument semicolons) := by
  unfold readArgument
  infer_instance
instance : Consumes readArguments := by unfold readArguments; infer_instance
instance : Consumes readSegment := by unfold readSegment; infer_instance
instance : Shrinks readPathGap := by unfold readPathGap; infer_instance
instance : Consumes readPath := by unfold readPath; infer_instance
instance : Consumes (Reader.tag ">=") := Reader.consumes_tag (by decide)
instance : Consumes (Reader.tag "=>") := Reader.consumes_tag (by decide)
instance : Consumes (Reader.tag "<=") := Reader.consumes_tag (by decide)
instance : Consumes (Reader.tag "=<") := Reader.consumes_tag (by decide)
instance : Consumes readComparison := by unfold readComparison; infer_instance
instance : Consumes readCompared := by unfold readCompared; infer_instance
instance : Consumes readCondition := by unfold readCondition; infer_instance
instance (text : String) : Consumes (readJoint text) := by unfold readJoint; infer_instance
instance : Consumes readConditions := by unfold readConditions; infer_instance
instance : Consumes readGuard := by unfold readGuard; infer_instance

end Mixin

namespace Selector

theorem suffix_of_takeBalanced (h : takeBalanced depth s = some (body, rest)) : rest <:+ s := by
  fun_induction takeBalanced depth s generalizing body <;> cases h
  all_goals first
    | exact List.suffix_cons ..
    | exact .trans (by solve_by_elim) (List.suffix_cons ..)

instance : Shrinks (takeBalanced 0) where
  suffix h := suffix_of_takeBalanced h

instance : Consumes readPseudoArgs := by unfold readPseudoArgs; infer_instance
instance : Consumes readPseudo := by unfold readPseudo; infer_instance
instance : Consumes readAttribute := by unfold readAttribute; infer_instance
instance : Consumes readPercentage := by unfold readPercentage; infer_instance
instance {p : Reader (List Char)} [Consumes p] : Consumes (literal p) := by
  unfold literal
  infer_instance
instance : Consumes readSimple := by unfold readSimple; infer_instance
instance (combinator : Combinator) : Consumes (readCompound combinator) := by
  unfold readCompound
  infer_instance
instance : Consumes readCombinator := by unfold readCombinator; infer_instance

instance : Consumes readNext where
  less {s es rest} h := by
    have skipped := List.dropWhile_suffix (l := s) Text.isBlank
    unfold readNext at h
    dsimp only at h
    split at h
    · rename_i combinator after found
      exact Consumes.within ((List.dropWhile_suffix _).trans
        ((Shrinks.suffix found).trans skipped)) h
    · split at h
      · exact Consumes.within skipped h
      · cases h

instance : Consumes read := by unfold read; infer_instance
instance : Consumes readList := by unfold readList; infer_instance

end Selector

end StyleResolution
