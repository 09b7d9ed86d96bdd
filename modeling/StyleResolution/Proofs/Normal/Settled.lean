import Mathlib.Data.List.Forall2
import StyleResolution.Proofs.Normal.Filling
import StyleResolution.Proofs.Normal.Lasting

/-! # Evaluating values again

Without strict math and functions, the operations in a result are those that cannot be carried out,
and calls in it are no type tests. So a result without holes evaluates to itself. With holes in it the
shape stays, and the holes are filled.
-/

namespace StyleResolution

open Template (Filled)

namespace Value

mutual

/-- Whether a string in the value holds the opening of a hole. -/
def hasHole : Value → Bool
  | .quoted t _ => opensHole t.toList
  | .url inner | .paren inner => inner.hasHole
  | .list _ items => anyHole items
  | .operation _ lhs rhs => lhs.hasHole || rhs.hasHole
  | .call _ args => anyHole args
  | .keyword _ | .dimension _ | .color _ | .variable _ | .indirect _ => false

/-- Whether a string in one of the values holds the opening of a hole. -/
def anyHole : List Value → Bool
  | [] => false
  | v :: vs => v.hasHole || anyHole vs

end

mutual

theorem isFilled_of_not_hasHole {v : Value} (unopened : v.hasHole = false) : v.isFilled = true := by
  cases v with
  | quoted t _ =>
    simp only [hasHole] at unopened
    simp [isFilled, Eval.splitHole_of_not_opensHole unopened]
  | url | paren =>
    simp only [hasHole] at unopened
    simp only [isFilled, isFilled_of_not_hasHole unopened]
  | list | call =>
    simp only [hasHole] at unopened
    simp only [isFilled, allFilled_of_not_anyHole unopened]
  | operation =>
    simp only [hasHole, Bool.or_eq_false_iff] at unopened
    simp only [isFilled, isFilled_of_not_hasHole unopened.1, isFilled_of_not_hasHole unopened.2,
      Bool.and_self]
  | _ => rfl

theorem allFilled_of_not_anyHole (unopened : anyHole vs = false) : allFilled vs = true := by
  cases vs with
  | nil => rfl
  | cons v vs =>
    simp only [anyHole, Bool.or_eq_false_iff] at unopened
    simp only [allFilled, isFilled_of_not_hasHole unopened.1, allFilled_of_not_anyHole unopened.2,
      Bool.and_self]

end

theorem operateColors_of_not_literal (op : Operator)
    (other : lhs.isLiteral = false ∨ rhs.isLiteral = false) :
    operateColors op lhs rhs = ⟨.operation op lhs rhs, none⟩ := by
  have channels : ∀ v : Value, v.isLiteral = false → Channels.ofValue v = none := by
    intro v other
    cases v <;> first | rfl | cases other
  unfold operateColors
  split
  · rename_i left right
    cases other with
    | inl other =>
      rw [channels lhs other] at left
      cases left
    | inr other =>
      rw [channels rhs other] at right
      cases right
  · rfl

theorem stuck_of_not_literal (strict : Bool) (op : Operator)
    (other : lhs.isLiteral = false ∨ rhs.isLiteral = false) : Stuck strict op lhs rhs := by
  have same : operate op lhs rhs = ⟨.operation op lhs rhs, none⟩ := by
    unfold operate
    split
    · simp [isLiteral] at other
    · exact operateColors_of_not_literal op other
    · exact operateColors_of_not_literal op other
    · rfl
  simp [Stuck, same]

theorem typeTest1_eq_none (h : typeTest1 name v = none) (w : Value) : typeTest1 name w = none := by
  unfold typeTest1 at h ⊢
  split at h <;> simp_all

/-- Whether a call is a type test does not depend on what its arguments are. -/
theorem typeTest_eq_none (length : args.length = others.length) (h : typeTest name args = none) :
    typeTest name others = none := by
  unfold typeTest at h ⊢
  dsimp only at h ⊢
  split at h
  · obtain ⟨w, rfl⟩ := List.length_eq_one_iff.mp length.symm
    simpa using typeTest1_eq_none (Option.map_eq_none_iff.mp h) w
  · obtain ⟨v, unit, rfl⟩ := List.length_eq_two.mp length.symm
    split at h
    · cases h
    · rename_i other
      exact if_neg other
  · rename_i one two
    split
    · obtain ⟨w, rfl⟩ := List.length_eq_one_iff.mp length
      exact absurd rfl (one w)
    · obtain ⟨w, x, rfl⟩ := List.length_eq_two.mp length
      exact absurd rfl (two w x)
    · rfl

/-- The text by which the file of an import is found. -/
def reference : Value → String
  | .url inner => inner.unquoted
  | v => v.unquoted

/-- The second value comes from the first one by filling holes. -/
structure Refilled (v w : Value) : Prop where
  text : Filled v.text.toList w.text.toList
  unquoted : Filled v.unquoted.toList w.unquoted.toList
  reference : Filled v.reference.toList w.reference.toList
  literal : w.isLiteral = v.isLiteral
  same : v.isLiteral = true → w = v

namespace Refilled

theorem refl (v : Value) : Refilled v v :=
  ⟨.refl _, .refl _, .refl _, rfl, fun _ => rfl⟩

/-- Values other than strings, `url` and literals enter a path as they are written. -/
theorem ofText (fills : Filled v.text.toList w.text.toList)
    (first : v.unquoted = v.text ∧ v.reference = v.text ∧ v.isLiteral = false)
    (second : w.unquoted = w.text ∧ w.reference = w.text ∧ w.isLiteral = false) : Refilled v w where
  text := fills
  unquoted := by rwa [first.1, second.1]
  reference := by rwa [first.2.1, second.2.1]
  literal := by rw [first.2.2, second.2.2]
  same h := by
    rw [first.2.2] at h
    cases h

theorem join (separator : String) (refilled : List.Forall₂ Refilled vs ws) :
    Filled (Text.join separator (texts vs)).toList (Text.join separator (texts ws)).toList := by
  induction refilled with
  | nil => exact .refl _
  | @cons v w vs ws first rest ih =>
    cases rest with
    | nil => exact first.text
    | cons =>
      simp only [texts, Text.join_cons_cons, String.toList_append] at ih ⊢
      exact (first.text.append (.refl _)).append ih

theorem stuck (left : Refilled lhs lhs') (right : Refilled rhs rhs')
    (stuck : Stuck strict op lhs rhs) : Stuck strict op lhs' rhs' := by
  cases isLeft : lhs.isLiteral with
  | false => exact stuck_of_not_literal strict op (.inl (left.literal.trans isLeft))
  | true =>
    cases isRight : rhs.isLiteral with
    | false => exact stuck_of_not_literal strict op (.inr (right.literal.trans isRight))
    | true => rwa [left.same isLeft, right.same isRight]

end Refilled

end Value

namespace Eval

variable {α β : Type} {setting : Setting}

/-! ## Computations with a known result -/

/-- Begun outside of guards, the computation has the result `a`, unless it is exhausted. -/
structure Answers (setting : Setting) (x : Eval α) (a : α) : Prop where
  ends : ∀ {s}, s.defaultAnswer = none → Within (· = .exhausted) setting s x fun b s' =>
    b = a ∧ s'.defaultAnswer = none

namespace Answers

variable {x : Eval α} {a : α}

theorem pure (a : α) : Answers setting (Pure.pure a : Eval α) a where
  ends idle := Ends.pure ⟨rfl, idle⟩

theorem bind {x : Eval β} {b : β} {next : β → Eval α} (first : Answers setting x b)
    (then_ : Answers setting (next b) a) : Answers setting (x >>= next) a where
  ends idle := Ends.seq (first.ends idle) (fun _ _ h => h.1 ▸ then_.ends h.2)

theorem locatedAt (h : Answers setting x a) (span : Span) : Answers setting (Eval.locatedAt span x) a where
  ends idle := (h.ends idle).locatedAt span

theorem unguarded (h : Answers setting x a) : Unguarded setting (· = a) x where
  yields idle := (h.ends idle).mono (fun _ _ h => h) fun _ _ _ => trivial

theorem of_givesBack (h : ∀ {s}, s.defaultAnswer = none → GivesBack setting s x a) :
    Answers setting x a where
  ends idle := (h idle).mono (fun _ _ ended => ⟨ended.1, ended.2.2.trans idle⟩) fun _ _ => False.elim

end Answers

variable {fetch : String → Eval Value} {v : Value}

theorem valuesWith_refills (each : ∀ v ∈ vs, Unguarded setting v.Refilled (valueWith fetch v)) :
    Unguarded setting (List.Forall₂ Value.Refilled vs) (valuesWith fetch vs) := by
  induction vs with
  | nil => exact .pure .nil
  | cons v vs ih =>
    simp only [List.forall_mem_cons] at each
    apply Unguarded.bind each.1
    intro w first
    apply Unguarded.bind (ih each.2)
    intro ws rest
    exact .pure (.cons first rest)

section

variable (calculating : setting.options.strictMath = false)
  (bare : setting.functions = FunctionLibrary.none)

include bare in
theorem libraryLasts_of_none : setting.LibraryLasts := by
  intro name args result given
  simp [bare, FunctionLibrary.none] at given

include bare in
theorem called_eq_call_iff :
    Value.called setting name args = .call name args ↔ Value.typeTest name args = none := by
  unfold Value.called
  cases tested : Value.typeTest name args with
  | some result =>
    obtain ⟨b, rfl⟩ := Value.typeTest_boolean tested
    simp [Value.boolean]
  | none => simp [bare, FunctionLibrary.none]

include calculating in
theorem value_answers (env : Environment) (evaluated : v.Evaluated setting)
    (unopened : v.hasHole = false) : Answers setting (value env v) v := by
  have lasting : v.Lasting setting true :=
    evaluated.lasts (Value.isFilled_of_not_hasHole unopened) (.inl calculating)
  exact .of_givesBack fun idle => valueWith_givesBack lasting nofun (.inl idle)

include calculating bare

theorem valueWith_refills (fetched : ∀ name, Unguarded setting (fun _ => True) (fetch name))
    (evaluated : v.Evaluated setting) :
    Unguarded setting v.Refilled (valueWith fetch v) := by
  induction evaluated with
  | keyword | dimension | color => exact .pure (.refl _)
  | quoted t quote =>
    apply Unguarded.bind (fillHoles_filled fetched t.toList)
    intro filled fills
    refine .pure ⟨?_, fills, fills, rfl, by simp [Value.isLiteral]⟩
    cases quote with
    | none => exact fills
    | some q =>
      simp only [Value.text, Value.quotedText, String.toList_append]
      exact ((Filled.refl _).append fills).append (.refl _)
  | url _ ih =>
    apply Unguarded.bind ih
    intro w inner
    have text : Filled (_ ++ _ ++ _) (_ ++ _ ++ _) :=
      ((Filled.refl "url(".toList).append inner.text).append (.refl ")".toList)
    simp only [← String.toList_append] at text
    exact .pure ⟨text, text, inner.unquoted, rfl, by simp [Value.isLiteral]⟩
  | @list separator items _ ih =>
    apply Unguarded.bind (valuesWith_refills ih)
    intro ws refilled
    exact .pure (.ofText (Value.Refilled.join separator.text refilled) ⟨rfl, rfl, rfl⟩ ⟨rfl, rfl, rfl⟩)
  | lasting lasts =>
    have same : Answers setting (valueWith fetch _) _ :=
      .of_givesBack fun idle => valueWith_givesBack lasts nofun (.inl idle)
    apply same.unguarded.mono
    rintro _ rfl
    exact .refl _
  | @operation op lhs rhs _ _ kept left right =>
    have stuck := kept.resolve_left fun outside => by cases calculating.symm.trans outside.1
    apply Unguarded.bind left
    intro l first
    apply Unguarded.bind right
    intro r second
    have again : Answers setting (applyOperator op l r) _ :=
      .of_givesBack fun _ => applyOperator_givesBack (.inr (first.stuck second stuck))
    apply again.unguarded.mono
    rintro _ rfl
    refine .ofText ?_ ⟨rfl, rfl, rfl⟩ ⟨rfl, rfl, rfl⟩
    simp only [Value.text, String.toList_append]
    exact (((first.text.append (.refl _)).append (.refl _)).append (.refl _)).append second.text
  | @paren inner _ other ih =>
    apply Unguarded.bind ih.inParens
    intro w refilled
    have parens : parenthesized w = .paren w := by
      have other := refilled.literal.trans other
      cases w <;> first | rfl | cases other
    refine .pure (parens ▸ .ofText ?_ ⟨rfl, rfl, rfl⟩ ⟨rfl, rfl, rfl⟩)
    simp only [Value.text, String.toList_append]
    exact ((Filled.refl _).append refilled.text).append (.refl _)
  | @call name args _ same ih =>
    apply Unguarded.bind (valuesWith_refills ih)
    intro ws refilled
    have untested := Value.typeTest_eq_none refilled.length_eq ((called_eq_call_iff bare).mp same)
    have again : Answers setting (applyFunction name ws) _ := .of_givesBack fun idle =>
      applyFunction_givesBack (.inl idle) ((called_eq_call_iff bare).mpr untested)
    apply again.unguarded.mono
    rintro _ rfl
    refine .ofText ?_ ⟨rfl, rfl, rfl⟩ ⟨rfl, rfl, rfl⟩
    simp only [Value.text, String.toList_append]
    exact ((Filled.refl _).append (Value.Refilled.join ", " refilled)).append (.refl _)

theorem value_refills (env : Environment) (evaluated : v.Evaluated setting) :
    Unguarded setting v.Refilled (value env v) :=
  valueWith_refills calculating bare
    (fun name => (Gives.any _).unguarded (variableValue_quiet env name)) evaluated

end

end Eval

end StyleResolution
