import StyleResolution.Proofs.Evaluation.Ending
import StyleResolution.Evaluation.Value

/-! # What values evaluate to

The result of an evaluation is put together from literals, from the results of operators and
functions, and from the values of variables, which were evaluated themselves. So a property that
literals have, and that composition, operators and functions preserve, holds of every result
(`value_gives`). References to variables are such a property: none is left.
-/

namespace StyleResolution

namespace Eval

variable {α β : Type} {setting : Setting}

/-- Whatever state it starts from, every result of the computation has the property. -/
structure Gives (setting : Setting) (P : α → Prop) (x : Eval α) : Prop where
  result : ∀ {s a s'}, x setting s = (.ok a, s') → P a

namespace Gives

variable {P : α → Prop}

theorem pure (h : P a) : Gives setting P (Pure.pure a : Eval α) where
  result run := by
    cases run
    exact h

theorem fail (f : Failure) : Gives setting P (Eval.fail f : Eval α) where
  result run := by cases run

theorem any (x : Eval α) : Gives setting (fun _ => True) x where
  result _ := trivial

theorem bind {x : Eval β} {next : β → Eval α} {Q : β → Prop} (first : Gives setting Q x)
    (then_ : ∀ b, Q b → Gives setting P (next b)) : Gives setting P (x >>= next) where
  result {s a s'} run := by
    rw [bind_apply] at run
    rcases ran : x setting s with ⟨f | b, t⟩ <;> rw [ran] at run
    · cases run
    · exact (then_ b (first.result ran)).result run

theorem ofState (h : ∀ s, Gives setting P (next s)) : Gives setting P (Eval.state >>= next) where
  result {s _ _} run := (h s).result run

theorem mapFailure (h : Gives setting P x) (f : Failure → Failure) :
    Gives setting P (Eval.mapFailure f x) where
  result {s a s'} run := by
    unfold Eval.mapFailure at run
    rcases ran : x setting s with ⟨e | b, t⟩ <;> rw [ran] at run <;> cases run
    exact h.result ran

theorem between (h : Gives setting P x) : Gives setting P (Eval.between enter leave x) where
  result {s a s'} run := by
    rcases ran : x setting (enter s) with ⟨outcome, t⟩
    simp only [Eval.between, ran, Prod.mk.injEq] at run
    rw [run.1] at ran
    exact h.result ran

theorem ends (h : Gives setting P x) (s : Evaluation) :
    Ends setting s x (fun a _ => P a) fun _ _ => True :=
  Ends.iff_cases.mpr ⟨fun _ _ run => h.result run, fun _ _ _ => trivial⟩

end Gives

/-! ## Properties of all results -/

/-- The property holds of literals, and composition, operators and functions preserve it. -/
structure Closed (setting : Setting) (V : Value → Prop) : Prop where
  keyword : ∀ t, V (.keyword t)
  dimension : ∀ d, V (.dimension d)
  color : ∀ t, V (.color t)
  quoted : ∀ t quote, V (.quoted t quote)
  url : ∀ v, V v → V (.url v)
  list : ∀ separator items, (∀ v ∈ items, V v) → V (.list separator items)
  paren : ∀ v, V v → V (parenthesized v)
  operator : ∀ op lhs rhs, V lhs → V rhs → Gives setting V (applyOperator op lhs rhs)
  function : ∀ name args, (∀ v ∈ args, V v) → Gives setting V (applyFunction name args)

variable {V : Value → Prop}

mutual

theorem valueWith_gives (closed : Closed setting V) (fetched : ∀ name, Gives setting V (fetch name))
    (v : Value) : Gives setting V (valueWith fetch v) := by
  cases v with
  | keyword t => exact .pure (closed.keyword t)
  | dimension d => exact .pure (closed.dimension d)
  | color t => exact .pure (closed.color t)
  | quoted t quote => exact .bind (.any _) fun _ _ => .pure (closed.quoted _ quote)
  | url inner =>
    apply Gives.bind (valueWith_gives closed fetched inner)
    intro v holds
    exact .pure (closed.url v holds)
  | «variable» name => exact fetched name
  | indirect name => exact .bind (.any _) fun _ _ => fetched _
  | list separator items =>
    apply Gives.bind (valuesWith_gives closed fetched items)
    intro vs hold
    exact .pure (closed.list separator vs hold)
  | operation op lhs rhs =>
    apply Gives.bind (valueWith_gives closed fetched lhs)
    intro l left
    apply Gives.bind (valueWith_gives closed fetched rhs)
    intro r right
    exact closed.operator op l r left right
  | paren inner =>
    apply Gives.bind (Gives.between (valueWith_gives closed fetched inner))
    intro v holds
    exact .pure (closed.paren v holds)
  | call name args =>
    apply Gives.bind (valuesWith_gives closed fetched args)
    intro vs hold
    exact closed.function name vs hold

theorem valuesWith_gives (closed : Closed setting V)
    (fetched : ∀ name, Gives setting V (fetch name)) (vs : List Value) :
    Gives setting (fun results => ∀ v ∈ results, V v) (valuesWith fetch vs) := by
  cases vs with
  | nil => exact .pure (by simp)
  | cons v vs =>
    apply Gives.bind (valueWith_gives closed fetched v)
    intro result holds
    apply Gives.bind (valuesWith_gives closed fetched vs)
    intro results hold
    exact .pure (by simpa using ⟨holds, hold⟩)

end

theorem dereferenceWithin_gives (closed : Closed setting V) (env : Environment) (n : Nat) (v : Variable) :
    Gives setting V (dereferenceWithin env n v) := by
  induction n generalizing v with
  | zero => exact .fail _
  | succ n ih =>
    refine .ofState fun s => ?_
    split
    · exact .fail _
    · have fetched : ∀ name, Gives setting V (do dereferenceWithin env n (← lookup env name)) :=
        fun name => .bind (.any _) fun found _ => ih found
      have inner := valueWith_gives closed fetched v.definition.value
      exact .mapFailure (.between (.ofState fun _ => .between inner)) _

theorem value_gives (closed : Closed setting V) (env : Environment) (v : Value) :
    Gives setting V (value env v) := by
  apply valueWith_gives closed
  intro name
  apply Gives.bind (.any _)
  intro found _
  exact .bind (.any _) fun n _ => dereferenceWithin_gives closed env (n + 2) found

end Eval

/-! ## References -/

mutual

def Value.hasReference : Value → Bool
  | .keyword _ | .dimension _ | .color _ | .quoted _ _ => false
  | .variable _ | .indirect _ => true
  | .url inner | .paren inner => inner.hasReference
  | .list _ items => Value.anyReference items
  | .operation _ lhs rhs => lhs.hasReference || rhs.hasReference
  | .call _ args => Value.anyReference args

def Value.anyReference : List Value → Bool
  | [] => false
  | v :: vs => v.hasReference || Value.anyReference vs

end

theorem Value.anyReference_eq_false :
    anyReference vs = false ↔ ∀ v ∈ vs, v.hasReference = false := by
  induction vs with
  | nil => simp [anyReference]
  | cons v vs ih => simp [anyReference, ih]

theorem Value.operate_cases (op : Operator) (lhs rhs : Value) :
    (∃ d, (operate op lhs rhs).value = .dimension d) ∨
      (∃ t, (operate op lhs rhs).value = .color t) ∨
      (operate op lhs rhs).value = .operation op lhs rhs := by
  have colors : ∀ lhs rhs, (∃ t, (operateColors op lhs rhs).value = .color t) ∨
      (operateColors op lhs rhs).value = .operation op lhs rhs := by
    intro lhs rhs
    unfold operateColors
    split
    · split
      · exact .inr rfl
      · exact .inl ⟨_, rfl⟩
    · exact .inr rfl
  unfold operate
  split
  · unfold operateDimensions
    dsimp only
    repeat' split
    · exact .inr (.inr rfl)
    all_goals exact .inl ⟨_, rfl⟩
  · exact .inr (colors _ _)
  · exact .inr (colors _ _)
  · exact .inr (.inr rfl)

theorem Value.typeTest_boolean (h : typeTest name args = some result) :
    ∃ b, result = boolean b := by
  unfold typeTest at h
  dsimp only at h
  split at h
  · obtain ⟨b, -, rfl⟩ := Option.map_eq_some_iff.mp h
    exact ⟨b, rfl⟩
  · split at h <;> cases h
    exact ⟨_, rfl⟩
  · cases h

namespace Value

/-- Whether operations apply to the value. -/
def isLiteral : Value → Bool
  | .dimension _ | .color _ => true
  | _ => false

/-- The operation cannot be carried out, nor, if `strict` holds, does trying give a warning. -/
def Stuck (strict : Bool) (op : Operator) (lhs rhs : Value) : Prop :=
  (operate op lhs rhs).value = .operation op lhs rhs ∧
    (strict = true → (operate op lhs rhs).warning = none)

def KeptOutside (setting : Setting) (op : Operator) (lhs : Value) : Prop :=
  setting.options.strictMath = true ∧ isNegation op lhs = false

/-- What a call means outside of guards. -/
def called (setting : Setting) (name : String) (args : List Value) : Value :=
  ((typeTest name args).or (setting.functions name args)).getD (.call name args)

theorem called_cases (setting : Setting) (name : String) (args : List Value) :
    (∃ b, called setting name args = boolean b) ∨
      setting.functions name args = some (called setting name args) ∨
      called setting name args = .call name args := by
  unfold called
  cases tested : typeTest name args with
  | some result =>
    obtain ⟨b, rfl⟩ := typeTest_boolean tested
    exact .inl ⟨b, rfl⟩
  | none =>
    cases setting.functions name args with
    | some result => exact .inr (.inl rfl)
    | none => exact .inr (.inr rfl)

theorem called_eq_call (same : called setting name results = .call name args) :
    setting.functions name results = some (.call name args) ∨ results = args := by
  rcases called_cases setting name results with ⟨b, tested⟩ | given | kept
  · cases same.symm.trans tested
  · exact .inl (same ▸ given)
  · exact .inr (Value.call.inj (kept.symm.trans same)).2

end Value

namespace Eval

variable {setting : Setting} {V : Value → Prop}

def Warned (setting : Setting) (f : Failure) : Prop :=
  setting.options.warningsAsErrors = true ∧ ∃ message, f.cause = .warning message

theorem warn_ends (message : String) (s : Evaluation) :
    Ends setting s (warn message) (fun _ _ => ¬setting.options.warningsAsErrors = true)
      fun f _ => Warned setting f := by
  refine .ofState (.ofSetting ?_)
  split
  · rename_i strict
    exact .fail ⟨strict, _, rfl⟩
  · rename_i collected
    exact .change collected

theorem applyOperator_ends (op : Operator) (lhs rhs : Value) (s : Evaluation) :
    Ends setting s (applyOperator op lhs rhs) (fun w _ => w.isLiteral = true ∨
      w = .operation op lhs rhs ∧ (s.parenDepth = 0 ∧ Value.KeptOutside setting op lhs ∨
        Value.Stuck setting.options.warningsAsErrors op lhs rhs)) fun f _ => Warned setting f := by
  have computed : (setting.options.warningsAsErrors = true →
      (Value.operate op lhs rhs).warning = none) →
      (Value.operate op lhs rhs).value.isLiteral = true ∨
        (Value.operate op lhs rhs).value = .operation op lhs rhs ∧
          Value.Stuck setting.options.warningsAsErrors op lhs rhs := by
    intro unwarned
    rcases Value.operate_cases op lhs rhs with ⟨d, same⟩ | ⟨c, same⟩ | same
    · exact .inl (by rw [same]; rfl)
    · exact .inl (by rw [same]; rfl)
    · exact .inr ⟨same, same, unwarned⟩
  refine .ofSetting (.ofState ?_)
  split
  · rename_i keeps
    simp only [Bool.and_eq_true, beq_iff_eq, Bool.not_eq_true'] at keeps
    exact .pure (.inr ⟨rfl, .inl ⟨keeps.1.2, keeps.1.1, keeps.2⟩⟩)
  · dsimp only
    split
    · refine .seq (warn_ends _ s) fun _ _ collected => .pure ?_
      exact (computed fun strict => absurd strict collected).imp_right (And.imp_right .inr)
    · rename_i unwarned
      exact .pure ((computed fun _ => unwarned).imp_right (And.imp_right .inr))

theorem applyFunction_ends (name : String) (args : List Value) (s : Evaluation) :
    Ends setting s (applyFunction name args)
      (fun w t => ((∃ answer, s.defaultAnswer = some answer ∧
          (name == "default" && args.isEmpty) = true ∧ w = .boolean answer) ∨
        w = Value.called setting name args) ∧
          t.parenDepth = s.parenDepth ∧ t.defaultAnswer = s.defaultAnswer) fun _ _ => False := by
  refine .ofState ?_
  split
  · rename_i answer asked answered
    exact .pure ⟨.inl ⟨answer, answered, asked, rfl⟩, rfl, rfl⟩
  · unfold Value.called
    cases Value.typeTest name args with
    | some result => exact .pure ⟨.inr rfl, rfl, rfl⟩
    | none =>
      refine .ofSetting ?_
      cases setting.functions name args with
      | some result => exact .pure ⟨.inr rfl, rfl, rfl⟩
      | none => exact .change (.pure ⟨.inr rfl, rfl, rfl⟩)

theorem closed_of_functions
    (functions : ∀ name args result, (∀ v ∈ args, v.hasReference = false) →
      setting.functions name args = some result → result.hasReference = false) :
    Closed setting fun v => v.hasReference = false where
  keyword _ := rfl
  dimension _ := rfl
  color _ := rfl
  quoted _ _ := rfl
  url _ h := h
  list _ _ h := Value.anyReference_eq_false.mpr h
  paren v h := by cases v <;> exact h
  operator op lhs rhs left right := by
    constructor
    intro s w t run
    rcases (applyOperator_ends op lhs rhs s).result run with literal | ⟨rfl, -⟩
    · cases w <;> first | rfl | cases literal
    · rw [Value.hasReference, left, right]
      rfl
  function name args h := by
    constructor
    intro s w t run
    rcases ((applyFunction_ends name args s).result run).1 with ⟨_, -, -, rfl⟩ | rfl
    · rfl
    · rcases Value.called_cases setting name args with ⟨b, same⟩ | given | same
      · rw [same]
        rfl
      · exact functions name args _ h given
      · rw [same]
        exact Value.anyReference_eq_false.mpr h

end Eval

end StyleResolution
