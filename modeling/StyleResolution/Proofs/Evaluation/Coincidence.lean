import StyleResolution.Proofs.Evaluation.Pairing

/-! # Values depend on their scope alone

The state in which a value is evaluated holds the frames of all blocks entered so far, in numbers
that depend on the order in which they were entered, and logs besides. None of this matters to the
value: in two states whose frames in scope define the same names in the same way, the evaluation of
a value ends with the same result, or fails in both for the same reason.

Which rule a definition is matters only where a value refers back to itself, so the two states may
tell the rules apart in different ways, as long as different rules stay different.
-/

namespace StyleResolution

/-- Each one of the first kind belongs to at most one of the second kind, and the other way round. -/
def OneToOne {α β : Type} (S : α → β → Prop) : Prop :=
  ∀ ⦃a a' b b'⦄, S a a' → S b b' → (a = b ↔ a' = b')

theorem OneToOne.eq : OneToOne (@Eq α) := by
  rintro a _ b _ rfl rfl
  exact Iff.rfl

theorem OneToOne.mem_iff (one : OneToOne S) (related : List.Forall₂ S as bs) (same : S a b) :
    a ∈ as ↔ b ∈ bs := by
  induction related with
  | nil => simp
  | cons first _ ih => simp only [List.mem_cons, ih, one same first]

/-- The same definition, by rules that correspond to each other. -/
def Variable.Agree (S : Site → Site → Prop) (v w : Variable) : Prop :=
  v.definition = w.definition ∧ S v.site w.site

def Index.Agree (S : Site → Site → Prop) (i j : Index) : Prop :=
  ∀ name, Option.Rel (Variable.Agree S) (i.definitionOf name) (j.definitionOf name)

theorem Index.Agree.of_eq {i j : Index} (same : i = j) : i.Agree Eq j := by
  subst same
  intro name
  cases i.definitionOf name with
  | none => exact .none
  | some v => exact .some ⟨rfl, rfl⟩

def Evaluation.scopeSize (s : Evaluation) (env : Environment) : Nat :=
  env.chain.foldr (fun id total => (s.frames.get id).size + total) 0

/-- The states do not differ in what the value of an expression depends on. Where the comparison is
    `tight`, as many rules are in scope in both. -/
structure SameScope (S : Site → Site → Prop) (tight : Prop) (env env' : Environment)
    (s t : Evaluation) : Prop where
  one : OneToOne S
  names : List.Forall₂ (fun i j => (s.frames.get i).names.Agree S (t.frames.get j).names)
    env.chain env'.chain
  size : tight → s.scopeSize env = t.scopeSize env'
  parenDepth : s.parenDepth = t.parenDepth
  defaultAnswer : s.defaultAnswer = t.defaultAnswer
  evaluating : List.Forall₂ S s.evaluating t.evaluating

theorem Quiet.scopeSize (quiet : Quiet s s') (env : Environment) :
    s'.scopeSize env = s.scopeSize env := by
  simp only [Evaluation.scopeSize, ← Frame.length_entries, quiet.entries]

theorem SameScope.of_quiet (same : SameScope S tight env env' s t) (quiet : Quiet s s')
    (quietToo : Quiet t t') : SameScope S tight env env' s' t' where
  one := same.one
  names := by simpa only [(quiet.frame _).names, (quietToo.frame _).names] using same.names
  size isTight := by rw [quiet.scopeSize, quietToo.scopeSize, same.size isTight]
  parenDepth := by rw [quiet.parenDepth, quietToo.parenDepth, same.parenDepth]
  defaultAnswer := by rw [quiet.defaultAnswer, quietToo.defaultAnswer, same.defaultAnswer]
  evaluating := by
    rw [quiet.evaluating, quietToo.evaluating]
    exact same.evaluating

namespace Eval

variable {α : Type} {setting : Setting} {S : Site → Site → Prop} {tight : Prop}
  {env env' : Environment} {s t : Evaluation}

/-- The two computations end with the same result in states with the same scope, or fail for the
    same reason. -/
abbrev Alike (S : Site → Site → Prop) (tight : Prop) (env env' : Environment) (setting : Setting)
    (s t : Evaluation) (x y : Eval α) : Prop :=
  Tied ⟨fun _ => True, tight, True⟩ setting s t x y fun a s' b t' =>
    a = b ∧ SameScope S tight env env' s' t'

/-- The two computations are alike in all states with the same scope. -/
abbrev AlwaysAlike (S : Site → Site → Prop) (tight : Prop) (env env' : Environment)
    (setting : Setting) : Relation := fun _ x y =>
  ∀ s t, SameScope S tight env env' s t → Alike S tight env env' setting s t x y

namespace Alike

theorem pure (same : SameScope S tight env env' s t) :
    Alike S tight env env' setting s t (Pure.pure a) (Pure.pure a) :=
  Tied.pure ⟨rfl, same⟩

theorem bind {β : Type} {x y : Eval β} {next next' : β → Eval α}
    (first : Alike S tight env env' setting s t x y)
    (then_ : ∀ b s' t', SameScope S tight env env' s' t' →
      Alike S tight env env' setting s' t' (next b) (next' b)) :
    Alike S tight env env' setting s t (x >>= next) (y >>= next') := by
  refine Tied.bind first ?_ fun _ _ => id
  rintro b s' _ t' ⟨rfl, same⟩
  exact then_ b s' t' same

theorem between (alike : Alike S tight env env' setting (enter s) (enter' t) x y)
    (left : ∀ s' t', SameScope S tight env env' s' t' →
      SameScope S tight env env' (leave s') (leave' t')) :
    Alike S tight env env' setting s t (Eval.between enter leave x)
      (Eval.between enter' leave' y) := by
  refine Tied.between (alike.mono ?_) fun _ => id
  rintro a s' b t' ⟨result, same⟩
  exact ⟨result, left s' t' same⟩

end Alike

/-! ## Single steps -/

theorem warn_alike (message : String) (same : SameScope S tight env env' s t) :
    Alike S tight env env' setting s t (warn message) (warn message) := by
  unfold warn
  refine .ofState (.ofSetting ?_)
  split
  · exact .fail fun _ => rfl
  · exact fun _ => ⟨rfl, { same with }⟩

theorem applyOperator_alike (op : Operator) (lhs rhs : Value)
    (same : SameScope S tight env env' s t) :
    Alike S tight env env' setting s t (applyOperator op lhs rhs) (applyOperator op lhs rhs) := by
  unfold applyOperator
  refine .ofSetting (.ofState ?_)
  rw [same.parenDepth]
  split
  · exact Alike.pure same
  · dsimp only
    split
    · exact Alike.bind (warn_alike _ same) fun _ _ _ same => Alike.pure same
    · exact Alike.pure same

theorem applyFunction_alike (name : String) (args : List Value)
    (same : SameScope S tight env env' s t) :
    Alike S tight env env' setting s t (applyFunction name args) (applyFunction name args) := by
  unfold applyFunction
  refine .ofState ?_
  rw [same.defaultAnswer]
  split
  · exact Alike.pure same
  · split
    · exact Alike.pure same
    · refine .ofSetting ?_
      split
      · exact Alike.pure same
      · exact Tied.change (Alike.pure { same with })

theorem outsideParens_alike
    (h : AlwaysAlike S tight env env' setting x y) (same : SameScope S tight env env' s t) :
    Alike S tight env env' setting s t (outsideParens x) (outsideParens y) := by
  refine Tied.ofState (Alike.between (h _ _ { same with parenDepth := rfl }) ?_)
  intro s' t' same'
  exact { same' with parenDepth := same.parenDepth }

theorem whileEvaluating_alike (sites : S site site')
    (h : AlwaysAlike S tight env env' setting x y) (same : SameScope S tight env env' s t) :
    Alike S tight env env' setting s t (whileEvaluating site x) (whileEvaluating site' y) := by
  refine .between (h _ _ { same with evaluating := .cons sites same.evaluating }) ?_
  intro s' t' same'
  exact { same' with
    evaluating := by simpa only [List.drop_one] using List.forall₂_drop 1 same'.evaluating }

/-! ## Looking names up -/

theorem consult_tied (i j : FrameId) :
    Tied P setting s t (consult i) (consult j) fun index s' index' t' =>
      index = (s.frames.get i).names ∧ index' = (t.frames.get j).names ∧ Quiet s s' ∧
        Quiet t t' := by
  have left := (consult_ends i).and ((consult_quiet i).ends setting s)
  have right := (consult_ends j).and ((consult_quiet j).ends setting t)
  intro _
  rcases runX : consult i setting s with ⟨f | a, s'⟩
  · exact (left.failure runX).1.elim
  · rcases runY : consult j setting t with ⟨g | b, t'⟩
    · exact (right.failure runY).1.elim
    · have answer := left.result runX
      have answerToo := right.result runY
      exact ⟨answer.1, answerToo.1, answer.2, answerToo.2⟩

theorem lookupIn_alike (name : String) (same : SameScope S tight env env' s t)
    (names : List.Forall₂ (fun i j => (s.frames.get i).names.Agree S (t.frames.get j).names) ids ids') :
    Tied ⟨fun _ => True, tight, True⟩ setting s t (lookupIn name ids) (lookupIn name ids')
      fun found s' found' t' =>
        Option.Rel (Variable.Agree S) found found' ∧ SameScope S tight env env' s' t' := by
  induction ids generalizing ids' s t with
  | nil =>
    cases names
    exact .pure ⟨.none, same⟩
  | cons i ids ih =>
    cases names with
    | cons first rest =>
      refine .bind (consult_tied i _) ?_ fun _ _ => id
      rintro _ s' _ t' ⟨rfl, rfl, quiet, quietToo⟩
      have found := first name
      generalize (s.frames.get i).names.definitionOf name = v at found ⊢
      generalize (t.frames.get _).names.definitionOf name = w at found ⊢
      cases found with
      | some agree => exact .pure ⟨.some agree, same.of_quiet quiet quietToo⟩
      | none =>
        refine ih (same.of_quiet quiet quietToo) ?_
        simpa only [(quiet.frame _).names, (quietToo.frame _).names] using rest

theorem lookup_alike (name : String) (same : SameScope S tight env env' s t) :
    Tied ⟨fun _ => True, tight, True⟩ setting s t (lookup env name) (lookup env' name)
      fun v s' w t' => v.Agree S w ∧ SameScope S tight env env' s' t' := by
  refine .bind (lookupIn_alike name same same.names) ?_ fun _ _ => id
  rintro _ s' _ t' ⟨found, same'⟩
  cases found with
  | some agree => exact .pure ⟨agree, same'⟩
  | none => exact .failWith _

/-! ## Values -/

theorem spine_alike : Composes.Spine (AlwaysAlike S tight env env' setting) where
  pure _ _ _ same := .pure same
  bind first then_ s t same := .bind (first s t same) then_
  inParens h _ _ same := by
    refine .between (h _ _ { same with parenDepth := congrArg (· + 1) same.parenDepth }) ?_
    intro s' t' same'
    exact { same' with parenDepth := congrArg (· - 1) same'.parenDepth }
  applyOperator op lhs rhs _ _ same := applyOperator_alike op lhs rhs same
  applyFunction name args _ _ same := applyFunction_alike name args same

/-! ## Definitions -/

/-- Where the bounds differ, the values are the same unless one of the bounds is too small. -/
theorem dereferenceWithin_alike (n m : Nat) (bounds : tight → n = m) (agree : v.Agree S w)
    (s t : Evaluation) (same : SameScope S tight env env' s t) :
    Alike S tight env env' setting s t (dereferenceWithin env n v) (dereferenceWithin env' m w) := by
  induction n generalizing m v w s t with
  | zero =>
    by_cases isTight : tight
    · obtain rfl := bounds isTight
      exact .failWith _
    · exact .spent isTight _
  | succ n ih =>
    cases m with
    | zero => exact .spentToo (fun isTight => nomatch bounds isTight) _
    | succ m =>
      obtain ⟨definition, site⟩ := v
      obtain ⟨_, site'⟩ := w
      obtain ⟨rfl, sites⟩ := agree
      have fetches : ∀ name, AlwaysAlike S tight env env' setting
          (do dereferenceWithin env n (← lookup env name))
          (do dereferenceWithin env' m (← lookup env' name)) := by
        intro name s t same
        refine Tied.bind (lookup_alike name same) ?_ fun _ _ => id
        rintro v s' w t' ⟨agree, same'⟩
        exact ih m (fun isTight => Nat.succ.inj (bounds isTight)) agree s' t' same'
      have circular : s.evaluating.contains site = t.evaluating.contains site' := by
        rw [Bool.eq_iff_iff, List.contains_iff_mem, List.contains_iff_mem]
        exact same.one.mem_iff same.evaluating sites
      refine .ofState ?_
      dsimp only
      rw [circular]
      split
      · exact .fail fun _ => rfl
      · refine .locatedAt (whileEvaluating_alike sites (fun s t same => ?_) same) _ _
        exact outsideParens_alike (spine_alike.valueWith fetches definition.value) same

theorem scopeSize_tied : Tied P setting s t (scopeSize env) (scopeSize env') fun n s' m t' =>
      n = s.scopeSize env ∧ m = t.scopeSize env' ∧ s' = s ∧ t' = t :=
  fun _ => ⟨rfl, rfl, rfl, rfl⟩

theorem dereference_alike (agree : v.Agree S w) (same : SameScope S tight env env' s t) :
    Alike S tight env env' setting s t (dereference env v) (dereference env' w) := by
  refine Tied.bind scopeSize_tied ?_ fun _ _ => id
  rintro _ _ _ _ ⟨rfl, rfl, rfl, rfl⟩
  exact dereferenceWithin_alike _ _ (fun isTight => congrArg (· + 2) (same.size isTight)) agree _ _
    same

theorem variableValue_alike (name : String) (s t : Evaluation)
    (same : SameScope S tight env env' s t) :
    Alike S tight env env' setting s t (variableValue env name) (variableValue env' name) := by
  refine Tied.bind (lookup_alike name same) ?_ fun _ _ => id
  rintro v s' w t' ⟨agree, same'⟩
  exact dereference_alike agree same'

theorem value_alike (v : Value) (same : SameScope S tight env env' s t) :
    Alike S tight env env' setting s t (value env v) (value env' v) :=
  spine_alike.valueWith variableValue_alike v s t same

/-! ## Guards -/

theorem guardHolds_alike (g : Guard) (same : SameScope S tight env env' s t) :
    Alike S tight env env' setting s t (guardHolds env g) (guardHolds env' g) :=
  spine_alike.guardHolds (fun v _ _ => value_alike v) g s t same

theorem answeringDefault_alike (answer : Bool)
    (h : AlwaysAlike S tight env env' setting x y) (same : SameScope S tight env env' s t) :
    Alike S tight env env' setting s t (answeringDefault answer x) (answeringDefault answer y) := by
  refine Tied.ofState (Alike.between (h _ _ { same with defaultAnswer := rfl }) ?_)
  intro s' t' same'
  exact { same' with defaultAnswer := same.defaultAnswer }

end Eval

end StyleResolution
