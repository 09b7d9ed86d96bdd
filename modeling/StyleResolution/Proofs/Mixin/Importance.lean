import StyleResolution.Evaluation.Block
import StyleResolution.Proofs.Evaluation.Ending

/-! # Important calls

A call that is marked as important contributes what it would contribute otherwise, with every
declaration marked. The mark is a part of the context in which bodies are evaluated, and nothing but
declarations looks at it: evaluating in a marked context is evaluating and then marking the result.
As this is an equation between computations, a marked call fails where the other one does, and both
leave the same state behind.
-/

namespace StyleResolution

/-! ## Marking -/

def Declaration.marked (d : Declaration) : Declaration :=
  { d with important := true }

mutual

def Rule.marked : Rule → Rule
  | .declaration d => .declaration d.marked
  | .ruleset selectors rules span => .ruleset selectors (Rule.allMarked rules) span
  | .mixin head rules => .mixin head (Rule.allMarked rules)
  | .media features rules span => .media features (Rule.allMarked rules) span
  | .atBlock name prelude rules span => .atBlock name prelude (Rule.allMarked rules) span
  | .variable d => .variable d
  | .call c => .call c
  | .fileImport i => .fileImport i
  | .atStatement name prelude span => .atStatement name prelude span

def Rule.allMarked : List Rule → List Rule
  | [] => []
  | r :: rs => r.marked :: Rule.allMarked rs

end

theorem Rule.allMarked_eq_map (rules : List Rule) : Rule.allMarked rules = rules.map Rule.marked := by
  induction rules with
  | nil => rfl
  | cons r rs ih => rw [allMarked, ih, List.map_cons]

def Output.marked (o : Output) : Output :=
  ⟨o.declarations.map Declaration.marked, o.rules.map Rule.marked⟩

def Context.marked (ctx : Context) : Context :=
  { ctx with important := true }

namespace Output

@[simp] theorem marked_empty : Output.marked {} = {} := rfl

@[simp] theorem marked_append (a b : Output) : (a ++ b).marked = a.marked ++ b.marked := by
  change Output.marked ⟨_, _⟩ = ⟨_, _⟩
  simp [marked]

@[simp] theorem marked_ofRules (rules : List Rule) :
    (ofRules rules).marked = ofRules (rules.map Rule.marked) := rfl

@[simp] theorem declarationRules_marked (o : Output) :
    o.marked.declarationRules = o.declarationRules.map Rule.marked := by
  simp [declarationRules, marked, Rule.marked]

@[simp] theorem rules_marked (o : Output) : o.marked.rules = o.rules.map Rule.marked := rfl

end Output

namespace Eval

variable {α β : Type}

@[simp] theorem isMedia_marked (r : Rule) : isMedia r.marked = isMedia r := by
  cases r <;> rfl

theorem rulesetOf_marked (selectors : List Selector) (o : Output) (span : Span) :
    rulesetOf selectors o.marked span = (rulesetOf selectors o span).map Rule.marked := by
  have same : o.marked.declarations.isEmpty = o.declarations.isEmpty := by
    simp [Output.marked]
  unfold rulesetOf
  rw [same]
  split
  · rfl
  · simp [Rule.marked, Rule.allMarked_eq_map]

theorem mediaBody_marked (selectors : List Selector) (o : Output) (span : Span) :
    mediaBody selectors o.marked span = (mediaBody selectors o span).map Rule.marked := by
  unfold mediaBody
  rw [rulesetOf_marked]
  split <;> simp [List.filter_map, Function.comp_def]

/-! ## Computations with marked results -/

theorem mapFailure_map (g : Failure → Failure) (f : α → β) (x : Eval α) :
    mapFailure g (f <$> x) = f <$> mapFailure g x := by
  funext setting s
  simp only [mapFailure, map_eq_pure_bind, bind_apply]
  rcases x setting s with ⟨e | a, s'⟩ <;> rfl

theorem between_map (enter leave : Evaluation → Evaluation) (f : α → β) (x : Eval α) :
    between enter leave (f <$> x) = f <$> between enter leave x := by
  funext setting s
  simp only [between, map_eq_pure_bind, bind_apply]
  rcases x setting (enter s) with ⟨e | a, s'⟩ <;> rfl

theorem map_failWith (f : α → β) (cause : Cause) :
    f <$> (failWith cause : Eval α) = failWith cause := rfl

theorem map_apply (f : α → β) (x : Eval α) (setting : Setting) (s : Evaluation) :
    (f <$> x) setting s = ((x setting s).1.map f, (x setting s).2) := by
  rw [map_eq_pure_bind, bind_apply]
  rcases x setting s with ⟨e | a, s'⟩ <;> rfl

def Marks (evaluate : BlockEvaluator) : Prop :=
  ∀ env ctx, evaluate env ctx.marked = Output.marked <$> evaluate env ctx

section Blocks

variable {evaluate : BlockEvaluator} (marks : Marks evaluate)

include marks

theorem expandBody_marks (ctx : Context) (nesting : Nat) (caller : Option FrameId)
    (m : MatchedCandidate) :
    expandBody evaluate ctx.marked nesting caller m =
      Output.marked <$> expandBody evaluate ctx nesting caller m := by
  unfold expandBody evaluateBody
  simp only [marks _ ctx, map_bind, bind_assoc, bind_map_left, pure_bind]
  refine bind_congr fun s => bind_congr fun limits => ?_
  split
  · rw [map_failWith]
  · simp only [map_bind, map_pure]

theorem expandAll_marks (ctx : Context) (nesting : Nat) (caller : Option FrameId)
    (ms : List MatchedCandidate) :
    expandAll evaluate ctx.marked nesting caller ms =
      Output.marked <$> expandAll evaluate ctx nesting caller ms := by
  induction ms with
  | nil => rfl
  | cons m ms ih =>
    unfold expandAll whileExpanding
    rw [expandBody_marks marks, between_map, ih]
    simp only [map_bind, bind_map_left, map_pure, Output.marked_append]

/-- A call looks at its mark, and at that of the context, only to enter the bodies that it expands. -/
theorem resolveCall_marks (env : Environment) (nesting : Nat) (call : MixinCall)
    (inner : { ctx' with important := ctx'.important || important } =
      Context.marked { ctx with important := ctx.important || call.important }) :
    resolveCall evaluate env ctx' nesting { call with important } =
      Output.marked <$> resolveCall evaluate env ctx nesting call := by
  unfold resolveCall
  simp only [map_bind]
  refine bind_congr fun args => bind_congr fun candidates => ?_
  split
  · rw [map_failWith]
  · simp only [map_bind]
    refine bind_congr fun _ => bind_congr fun selection => ?_
    split
    · unfold unmatched
      split
      · rw [map_failWith]
        rfl
      · split
        · rw [map_failWith]
          rfl
        · simp only [map_bind, map_pure, Output.marked_empty]
          rfl
    · simp only [map_bind]
      refine bind_congr fun group => ?_
      rw [inner, expandAll_marks marks]

theorem callMixin_marks (env : Environment) (nesting : Nat) (call : MixinCall)
    (inner : { ctx' with important := ctx'.important || important } =
      Context.marked { ctx with important := ctx.important || call.important }) :
    callMixin evaluate env ctx' nesting { call with important } =
      Output.marked <$> callMixin evaluate env ctx nesting call := by
  unfold callMixin insideOf locatedAt
  rw [resolveCall_marks marks env nesting call inner]
  simp only [mapFailure_map, map_bind]
  rfl

theorem expandCalls_marks (env : Environment) (ctx : Context) (es : List Entry) :
    expandCalls evaluate env ctx.marked es =
      List.map Output.marked <$> expandCalls evaluate env ctx es := by
  induction es with
  | nil => rfl
  | cons e es ih =>
    unfold expandCalls
    split
    · rename_i call _
      have inner : { ctx.marked with important := ctx.marked.important || call.important } =
          Context.marked { ctx with important := ctx.important || call.important } := rfl
      rw [callMixin_marks marks env e.nesting call inner, ih]
      simp only [map_bind, bind_map_left, map_pure, List.map_cons]
    · exact ih

/-! ## Blocks -/

theorem evaluateRule_marks (env : Environment) (ctx : Context) (e : Entry) :
    evaluateRule evaluate env ctx.marked e = Output.marked <$> evaluateRule evaluate env ctx e := by
  have inside : ∀ env selectors media, evaluate env ⟨selectors, media, true⟩ =
      Output.marked <$> evaluate env ⟨selectors, media, ctx.important⟩ :=
    fun env selectors media => marks env ⟨selectors, media, ctx.important⟩
  unfold evaluateRule
  cases e.rule with
  | declaration d => simp [evaluateDeclaration, Output.marked, Declaration.marked, Context.marked]
  | ruleset selectors rules span =>
    simp [evaluateRuleset, insideOf, inside, mapFailure_map, rulesetOf_marked, Context.marked]
  | media features rules span =>
    have block : ∀ (kept : List Rule) (joined : Value),
        (if kept = [] then [] else [Rule.media joined (kept.map Rule.marked) span]) =
          (if kept = [] then [] else [Rule.media joined kept span]).map Rule.marked := by
      intro kept joined
      split
      · rfl
      · simp [Rule.marked, Rule.allMarked_eq_map]
    simp [evaluateMedia, inside, mediaBody_marked, Context.marked, block, List.filter_map,
      Function.comp_def]
  | atBlock name prelude rules span =>
    simp [evaluateAtBlock, insideOf, inside, mapFailure_map, Context.marked, Rule.marked,
      Rule.allMarked_eq_map]
  | «variable» d => simp [evaluateDefinition]
  | fileImport i => simp [evaluateImport, Rule.marked]
  | atStatement name prelude span => simp [Rule.marked]
  | mixin | call => rfl

theorem evaluateEntries_marks (env : Environment) (ctx : Context) (es : List Entry)
    (expansions : List Output) :
    evaluateEntries evaluate env ctx.marked es (expansions.map Output.marked) =
      Output.marked <$> evaluateEntries evaluate env ctx es expansions := by
  induction es generalizing expansions with
  | nil => rfl
  | cons e es ih =>
    have other : (do
        let own ← evaluateRule evaluate env ctx.marked e
        let others ← evaluateEntries evaluate env ctx.marked es (expansions.map Output.marked)
        pure (own ++ others)) = Output.marked <$> (do
        let own ← evaluateRule evaluate env ctx e
        let others ← evaluateEntries evaluate env ctx es expansions
        pure (own ++ others)) := by
      simp [evaluateRule_marks marks, ih]
    unfold evaluateEntries
    cases rule : e.rule with
    | call c =>
      cases expansions with
      | nil => exact other
      | cons expanded later => simp [ih]
    | _ => exact other

theorem blockWith_marks : Marks (blockWith evaluate) := by
  intro env ctx
  unfold blockWith
  split
  · rfl
  · simp only [expandCalls_marks marks, map_bind, bind_map_left, evaluateEntries_marks marks]

end Blocks

theorem blockWithin_marks (n : Nat) : Marks (blockWithin n) := by
  induction n with
  | zero => exact fun _ _ => rfl
  | succ n ih => exact blockWith_marks ih

/-- The mark of a call does nothing but mark: with it, the call fails where it fails without it and
    for the same reason, it leaves the same state behind, with the same exports, warnings and log, and
    it contributes the same, except that every declaration is marked, at every depth. -/
theorem important_calls_only_mark (n : Nat) (env : Environment) (ctx : Context) (nesting : Nat)
    (call : MixinCall) (setting : Setting) (s : Evaluation) :
    let plain := callMixin (blockWithin n) env ctx nesting { call with important := false } setting s
    callMixin (blockWithin n) env ctx nesting { call with important := true } setting s =
      (plain.1.map Output.marked, plain.2) := by
  intro plain
  have inner : { ctx with important := ctx.important || true } =
      Context.marked { ctx with important := ctx.important || false } := by
    simp [Context.marked]
  have marks := callMixin_marks (blockWithin_marks n) env nesting { call with important := false } inner
  rw [congrFun (congrFun marks setting) s, map_apply]

end Eval

end StyleResolution
