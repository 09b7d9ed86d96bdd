import StyleResolution.Compiler
import StyleResolution.Proofs.Media.Query

/-! # Media blocks inside others

The features of a media block are put together with those of the media blocks around it. Which these
are is said by an evaluator that carries the values of their features along, from the outermost one
on, and puts them together where a media block is left in the output (`Compiler.resolveJoining`). A
rule such as `@supports` stays where it is, so inside its block there is nothing to carry yet.

Values are joined by `and`, without regard to the commas in them. So the alternatives of the result
are those of the lists, run together where they meet: they mean the conjunction of the lists if each
of them still has all parts of one alternative of every list, and something weaker otherwise.
-/

namespace StyleResolution

open Eval

namespace Eval

/-! ## Carrying the features along -/

section Joining

variable (join : List Value → Value → Value) (evaluate : List Value → BlockEvaluator)
  (around : List Value) (env : Environment) (ctx : Context)

/-- A media block inside those with the features `around`. -/
def mediaJoining (e : Entry) (features : Value) (rules : List Rule) (span : Span) :
    Eval Output := do
  let own ← locatedAt span (value env features)
  let inner ← enterBlock env e.site rules e.nesting
  let body ← evaluate (around ++ [own]) inner ctx
  let kept := mediaBody ctx.selectors body span
  let media := if kept.isEmpty then [] else [Rule.media (join around own) kept span]
  pure (.ofRules (media ++ body.rules.filter isMedia))

def ruleJoining (e : Entry) : Eval Output :=
  match e.rule with
  | .media features rules span => mediaJoining join evaluate around env ctx e features rules span
  | .atBlock name prelude rules span =>
    evaluateAtBlock (evaluate []) env ctx e name prelude rules span
  | _ => evaluateRule (evaluate around) env ctx e

def entriesJoining : List Entry → List Output → Eval Output
  | [], _ => pure {}
  | e :: es, expansions => do
    match e.rule, expansions with
    | .call _, expanded :: later =>
      let others ← entriesJoining es later
      pure (expanded ++ others)
    | _, _ =>
      let own ← ruleJoining join evaluate around env ctx e
      let others ← entriesJoining es expansions
      pure (own ++ others)

def blockJoining : BlockEvaluator := fun env ctx => do
  match env.innermost? with
  | none => pure {}
  | some id =>
    let expansions ← expandCalls (evaluate around) env ctx (← frame id).entries
    entriesJoining join evaluate around env ctx (← frame id).entries expansions

end Joining

/-- Evaluates blocks inside media blocks, nested less than `n` deep. -/
def joiningWithin (join : List Value → Value → Value) : Nat → List Value → BlockEvaluator
  | 0, _ => fun _ _ => failWith .exhausted
  | n + 1, around => blockJoining join (joiningWithin join n) around

/-! ## Carrying them in the context -/

/-- Evaluates blocks inside media blocks with the joined features. -/
def inMedia (evaluate : BlockEvaluator) (media : Option Value) : BlockEvaluator := fun env ctx =>
  evaluate env { ctx with media }

section InMedia

variable (evaluate : BlockEvaluator) (media : Option Value) (env : Environment) (ctx : Context)

theorem expandAll_inMedia (nesting : Nat) (caller : Option FrameId) (ms : List MatchedCandidate) :
    expandAll (inMedia evaluate media) ctx nesting caller ms =
      expandAll evaluate { ctx with media } nesting caller ms := by
  induction ms with
  | nil => rfl
  | cons m ms ih =>
    rw [expandAll, expandAll, ih]
    rfl

theorem callMixin_inMedia (nesting : Nat) (call : MixinCall) :
    callMixin (inMedia evaluate media) env ctx nesting call =
      callMixin evaluate env { ctx with media } nesting call := by
  unfold callMixin resolveCall
  simp only [expandAll_inMedia]

theorem expandCalls_inMedia (es : List Entry) :
    expandCalls (inMedia evaluate media) env ctx es =
      expandCalls evaluate env { ctx with media } es := by
  induction es with
  | nil => rfl
  | cons e es ih => simp only [expandCalls, callMixin_inMedia, ih]

end InMedia

/-- The features of media blocks, outermost first, joined as a context has them. -/
def joinedFeatures (around : List Value) : Option Value :=
  around.foldl (fun outer own => some (joinFeatures outer own)) none

/-- The features of a media block inside others, joined by `and`. -/
def joinByAnd (around : List Value) (own : Value) : Value :=
  joinFeatures (joinedFeatures around) own

theorem joinedFeatures_append (around : List Value) (own : Value) :
    joinedFeatures (around ++ [own]) = some (joinByAnd around own) := by
  rw [joinedFeatures, List.foldl_append]
  rfl

section Agreement

variable {evaluate : BlockEvaluator} {carrying : List Value → BlockEvaluator}
  (same : ∀ around, carrying around = inMedia evaluate (joinedFeatures around))

include same

theorem ruleJoining_eq (around : List Value) (env : Environment) (ctx : Context) (e : Entry) :
    ruleJoining joinByAnd carrying around env ctx e =
      evaluateRule evaluate env { ctx with media := joinedFeatures around } e := by
  unfold ruleJoining evaluateRule
  cases e.rule with
  | media features rules span =>
    simp only [mediaJoining, same, joinedFeatures_append]
    rfl
  | atBlock name prelude rules span =>
    simp only [same]
    rfl
  | ruleset selectors rules span =>
    simp only [same]
    rfl
  | _ => rfl

theorem entriesJoining_eq (around : List Value) (env : Environment) (ctx : Context)
    (es : List Entry) (expansions : List Output) :
    entriesJoining joinByAnd carrying around env ctx es expansions =
      evaluateEntries evaluate env { ctx with media := joinedFeatures around } es expansions := by
  induction es generalizing expansions with
  | nil => rfl
  | cons e es ih =>
    unfold entriesJoining evaluateEntries
    rw [ruleJoining_eq same]
    cases e.rule <;> cases expansions <;> simp only [ih]

theorem blockJoining_eq (around : List Value) :
    blockJoining joinByAnd carrying around =
      inMedia (blockWith evaluate) (joinedFeatures around) := by
  funext env ctx
  unfold blockJoining inMedia blockWith
  cases env.innermost? with
  | none => rfl
  | some id => simp only [same, expandCalls_inMedia, entriesJoining_eq same]

end Agreement

theorem joiningWithin_eq (n : Nat) (around : List Value) :
    joiningWithin joinByAnd n around = inMedia (blockWithin n) (joinedFeatures around) := by
  induction n generalizing around with
  | zero => rfl
  | succ n ih => exact blockJoining_eq ih around

end Eval

/-- Resolves the rules of a sheet, with the features of media blocks joined by `join`. -/
def Compiler.resolveJoining (join : List Value → Value → Value) (sheet : Stylesheet) :
    Eval (List Rule) := do
  let env ← openSheet sheet
  let rules := ruleBound (← setting).loader sheet
  let output ← joiningWithin join (nestingBound (← setting).options rules) [] env {}
  pure (arrange output)

theorem Compiler.resolveJoining_joinByAnd (sheet : Stylesheet) :
    resolveJoining joinByAnd sheet = resolveSheet sheet := by
  unfold resolveJoining resolveSheet
  simp only [joiningWithin_eq]
  rfl

/-! ## What joined features mean -/

namespace MediaQuery

def runTogether (lists : List (List (List Part))) : List (List Part) :=
  lists.foldl seam [[]]

theorem runTogether_append (lists : List (List (List Part))) (last : List (List Part)) :
    runTogether (lists ++ [last]) = seam (runTogether lists) last := by
  rw [runTogether, List.foldl_append]
  rfl

/-- The alternatives of the features around a block. Without any there is one with no parts. -/
def alternativesOf : Option Value → List (List Part)
  | none => [[]]
  | some v => alternatives v.text

theorem text_joinFeatures (outer own : Value) :
    (joinFeatures (some outer) own).text = outer.text ++ " and " ++ own.text := by
  simp only [joinFeatures, Value.spaceList, Value.text, Value.texts, Text.join,
    Separator.text, String.append_assoc]
  rfl

theorem alternatives_joinFeatures (closed : ∀ v, outer = some v → Closed v.text) (own : Value) :
    alternatives (joinFeatures outer own).text =
      seam (alternativesOf outer) (alternatives own.text) := by
  cases outer with
  | none =>
    obtain ⟨first, others, split⟩ := List.exists_cons_of_ne_nil (alternatives_ne_nil own.text)
    rw [joinFeatures, alternativesOf, split]
    rfl
  | some outer =>
    rw [text_joinFeatures, alternatives_and (closed outer rfl)]
    rfl

theorem closed_joinFeatures (closed : ∀ v, outer = some v → Closed v.text)
    (closed' : Closed own.text) : Closed (joinFeatures outer own).text := by
  cases outer with
  | none => exact closed'
  | some outer =>
    rw [text_joinFeatures]
    exact (closed outer rfl).and closed'

theorem alternativesOf_joinedFeatures (around : List Value)
    (closed : ∀ v ∈ around, Closed v.text) :
    (∀ v, joinedFeatures around = some v → Closed v.text) ∧
      alternativesOf (joinedFeatures around) =
        runTogether (around.map fun v => alternatives v.text) := by
  have along : ∀ (outer : Option Value), (∀ v, outer = some v → Closed v.text) →
      (∀ v, around.foldl (fun outer own => some (joinFeatures outer own)) outer = some v →
        Closed v.text) ∧
      alternativesOf (around.foldl (fun outer own => some (joinFeatures outer own)) outer) =
        (around.map fun v => alternatives v.text).foldl seam (alternativesOf outer) := by
    induction around with
    | nil => exact fun outer closedOuter => ⟨closedOuter, rfl⟩
    | cons own around ih =>
      intro outer closedOuter
      have joined : ∀ v, some (joinFeatures outer own) = some v → Closed v.text := by
        intro v same
        cases same
        exact closed_joinFeatures closedOuter (closed own List.mem_cons_self)
      have read := alternatives_joinFeatures closedOuter own
      rw [List.map_cons, List.foldl_cons, List.foldl_cons, ← read]
      exact ih (fun v member => closed v (List.mem_cons_of_mem own member)) _ joined
  exact along none (by simp)

theorem alternatives_joinByAnd (around : List Value) (own : Value)
    (closed : ∀ v ∈ around, Closed v.text) :
    alternatives (joinByAnd around own).text =
      runTogether ((around ++ [own]).map fun v => alternatives v.text) := by
  obtain ⟨closedAround, read⟩ := alternativesOf_joinedFeatures around closed
  rw [joinByAnd, alternatives_joinFeatures closedAround, read, List.map_append,
    List.map_singleton, runTogether_append]

theorem seam_ne_nil (lists others : List (List α)) : seam lists others ≠ [] := by
  simp [seam]

theorem holds_runTogether (some : ∀ list ∈ lists, list ≠ [])
    (all : ∀ list ∈ lists, holds σ list = true) : holds σ (runTogether lists) = true := by
  have along : ∀ sofar, sofar ≠ [] → holds σ sofar = true →
      holds σ (lists.foldl seam sofar) = true := by
    induction lists with
    | nil => exact fun _ _ h => h
    | cons list lists ih =>
      intro sofar someSofar holdsSofar
      apply ih (fun other later => some other (List.mem_cons_of_mem list later))
        (fun other later => all other (List.mem_cons_of_mem list later)) _ (seam_ne_nil _ _)
      exact holds_seam someSofar (some list List.mem_cons_self) holdsSofar
        (all list List.mem_cons_self)
  exact along [[]] (by simp) rfl

theorem runTogether_of_length_one (single : ∀ list ∈ lists, list.length = 1) :
    runTogether lists = [lists.flatten.flatten] := by
  have along : ∀ sofar, lists.foldl seam [sofar] = [sofar ++ lists.flatten.flatten] := by
    induction lists with
    | nil => simp
    | cons list lists ih =>
      intro sofar
      obtain ⟨only, rfl⟩ := List.length_eq_one_iff.mp (single list List.mem_cons_self)
      rw [List.foldl_cons, seam_singleton,
        ih fun other later => single other (List.mem_cons_of_mem _ later)]
      simp
  exact along []

end MediaQuery

open MediaQuery

/-- The media blocks of a resolved sheet have the features of the media blocks around them, joined
    by `and`. Read as query lists, these hold wherever all the features hold that were joined. They
    hold nowhere else if and only if each of their alternatives has all parts of some alternative of
    every one of the features, and so if none of the features has more than one alternative. -/
theorem nested_media_blocks_run_together (sheet : Stylesheet) :
    Compiler.resolveSheet sheet = Compiler.resolveJoining joinByAnd sheet ∧
    ∀ (around : List Value) (own : Value), (∀ v ∈ around, Closed v.text) →
      let lists := (around ++ [own]).map fun v => alternatives v.text
      let joined := alternatives (joinByAnd around own).text
      joined = runTogether lists ∧
      (∀ σ, (∀ list ∈ lists, holds σ list = true) → holds σ joined = true) ∧
      ((∀ σ, holds σ joined = true ↔ ∀ list ∈ lists, holds σ list = true) ↔
        ∀ alternative ∈ joined, ∀ list ∈ lists, ∃ other ∈ list, other ⊆ alternative) ∧
      ((∀ list ∈ lists, list.length = 1) →
        ∀ σ, holds σ joined = true ↔ ∀ list ∈ lists, holds σ list = true) := by
  refine ⟨(Compiler.resolveJoining_joinByAnd sheet).symm, fun around own closed => ?_⟩
  intro lists joined
  have read : joined = runTogether lists := alternatives_joinByAnd around own closed
  have some : ∀ list ∈ lists, list ≠ [] := by
    intro list member
    obtain ⟨v, -, rfl⟩ := List.mem_map.mp member
    exact alternatives_ne_nil v.text
  have follows : ∀ σ, (∀ list ∈ lists, holds σ list = true) → holds σ joined = true := by
    intro σ all
    rw [read]
    exact holds_runTogether some all
  have exact_iff : (∀ σ, holds σ joined = true ↔ ∀ list ∈ lists, holds σ list = true) ↔
      ∀ alternative ∈ joined, ∀ list ∈ lists, ∃ other ∈ list, other ⊆ alternative := by
    constructor
    · intro same alternative member list among
      exact forall_holds_iff.mp (fun σ h => (same σ).mp h list among) alternative member
    · intro covered σ
      refine ⟨fun h list among => ?_, follows σ⟩
      exact forall_holds_iff.mpr (fun alternative member => covered alternative member list among) σ h
  refine ⟨read, follows, exact_iff, fun single => exact_iff.mpr ?_⟩
  intro alternative member list among
  rw [read, runTogether_of_length_one single, List.mem_singleton] at member
  obtain ⟨only, isOnly⟩ := List.length_eq_one_iff.mp (single list among)
  refine ⟨only, by simp [isOnly], fun part inside => ?_⟩
  rw [member]
  exact List.mem_flatten.mpr ⟨only, List.mem_flatten.mpr ⟨list, among, by simp [isOnly]⟩, inside⟩

/-- `(color)` inside `screen` holds exactly where both hold. -/
theorem color_inside_screen_means_both :
    Closed "screen" ∧
      ∀ σ, holds σ (alternatives
          (joinByAnd [.keyword "screen"] (.paren (.keyword "color"))).text) = true ↔
        holds σ (alternatives "screen") = true ∧ holds σ (alternatives "(color)") = true := by
  have closed : Closed "screen" := by decide +kernel
  have single : (alternatives "screen").length = 1 ∧ (alternatives "(color)").length = 1 := by
    decide +kernel
  obtain ⟨-, -, -, both⟩ := (nested_media_blocks_run_together ⟨none, []⟩).2 [.keyword "screen"]
    (.paren (.keyword "color")) (by simpa [Value.text] using closed)
  have text : (Value.paren (.keyword "color")).text = "(color)" := by decide +kernel
  simp only [List.cons_append, List.nil_append, List.map_cons, List.map_nil, List.forall_mem_cons,
    List.not_mem_nil, false_imp_iff, implies_true, and_true, text] at both
  exact ⟨closed, both single⟩

def mediaTexts (rules : List Rule) : List String :=
  rules.filterMap fun rule =>
    match rule with
    | .media features _ _ => some features.text
    | _ => none

/-- On a screen without colours, `(color)` inside `screen, print` holds, and `(color)` does not. -/
theorem color_inside_screen_or_print_means_less :
    ((Compiler.compileSource {}
        "@media screen, print \x7b @media (color) \x7b .a \x7b x: 1; \x7d \x7d \x7d").outcome.toOption.map
      fun result => mediaTexts result.sheet.rules) = some ["screen, print and (color)"] ∧
    let onScreen : Part → Bool := fun part => part == [.word ['s', 'c', 'r', 'e', 'e', 'n']]
    holds onScreen (alternatives "screen, print and (color)") = true ∧
      holds onScreen (alternatives "(color)") = false := by
  decide +kernel

end StyleResolution
