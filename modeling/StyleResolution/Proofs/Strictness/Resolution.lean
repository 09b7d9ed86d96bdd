import StyleResolution.Proofs.Strictness.Imports

/-! # Strictness rejects and never alters

A whole compilation under a stricter setting follows the lenient one: mixin calls, blocks and the
combination of selectors do the same until a limit is exceeded or a warning is met. Two facts come
out of it. Higher limits keep every result. And taking warnings for errors rejects exactly the
sheets that have warnings, with the first of them.
-/

namespace StyleResolution

open Compiler

/-! ## Combining selectors -/

namespace Selector

/-- An outcome under a limit: the outcome under a wider one, unless the limit is exceeded. -/
def Limited {α : Type} (limit : Nat) (narrow wide : Except CombineError α) : Prop :=
  narrow = wide ∨ narrow = .error (.tooMany limit)

namespace Limited

variable {α β : Type} {limit wider : Nat}

theorem bind {x y : Except CombineError β} {f g : β → Except CombineError α}
    (first : Limited limit x y) (then_ : ∀ b, Limited limit (f b) (g b)) :
    Limited limit (x >>= f) (y >>= g) := by
  cases first with
  | inl same =>
    subst same
    cases x with
    | error e => exact .inl rfl
    | ok b => exact then_ b
  | inr exceeded =>
    subst exceeded
    exact .inr rfl

theorem checkLimit (le : limit ≤ wider) (count : Nat) :
    Limited limit (Selector.checkLimit count limit) (Selector.checkLimit count wider) := by
  unfold Selector.checkLimit
  by_cases exceeded : limit < count
  · rw [if_pos exceeded]
    exact .inr rfl
  · have under : ¬ wider < count := by omega
    rw [if_neg exceeded, if_neg under]
    exact .inl rfl

end Limited

variable {limit wider : Nat} (ancestors : List Selector)

theorem expandElements_limited (le : limit ≤ wider) (partials : List (List Element))
    (es : List Element) :
    Limited limit (expandElements ancestors limit partials es)
      (expandElements ancestors wider partials es) := by
  induction es generalizing partials with
  | nil => exact .inl rfl
  | cons e es ih =>
    refine Limited.bind ?_ ih
    unfold expandElement
    split
    · exact Limited.bind (.checkLimit le _) fun _ => .inl rfl
    · exact .inl rfl

theorem expandAll_limited (le : limit ≤ wider) (done selectors : List Selector) :
    Limited limit (expandAll ancestors limit done selectors)
      (expandAll ancestors wider done selectors) := by
  induction selectors generalizing done with
  | nil => exact .inl rfl
  | cons s rest ih =>
    have expanded : Limited limit (expand ancestors limit s) (expand ancestors wider s) := by
      unfold expand
      split
      · exact Limited.bind (expandElements_limited ancestors le _ _) fun _ => .inl rfl
      · exact .inl rfl
    apply Limited.bind expanded
    intro combined
    exact Limited.bind (.checkLimit le _) fun _ => ih _

theorem combine_limited (le : limit ≤ wider) (selectors : List Selector) :
    Limited limit (combine ancestors selectors limit) (combine ancestors selectors wider) := by
  unfold combine
  split
  · exact .inl rfl
  · split
    · exact .inl rfl
    · exact expandAll_limited ancestors le [] selectors

end Selector

namespace Eval

variable {strict lenient : Setting}

section

variable (stricter : strict.Stricter lenient)

include stricter

theorem effectiveSelectors_follows (ancestors selectors : List Selector) (span : Span) :
    Follows strict lenient (effectiveSelectors ancestors selectors span)
      (effectiveSelectors ancestors selectors span) := by
  apply Follows.ofSetting
  dsimp only
  cases Selector.combine_limited ancestors stricter.selectors selectors with
  | inl same =>
    rw [same]
    split
    · exact .fail _
    · split
      · exact .pure _
      · exact .bind (emit_follows _) fun _ => .pure _
  | inr exceeded =>
    rw [exceeded]
    by_cases shared : strict.options.maxSelectorExpansions = lenient.options.maxSelectorExpansions
    · rw [← shared, exceeded]
      exact .fail _
    · constructor
      · intro s
        cases Selector.combine ancestors selectors lenient.options.maxSelectorExpansions with
        | error e => exact List.prefix_rfl
        | ok combined =>
          dsimp only
          split <;> exact List.prefix_rfl
      · intro s _
        exact .inr ⟨_, rfl, .inl shared⟩

/-! ## Blocks -/

theorem calls_follows :
    Composes.Calls fun _ x y => Follows strict lenient x y where
  toComposes := composes_follows stricter
  consult := (values_follows stricter).consult
  addBlock _ _ _ := addFrame_follows _
  emit := emit_follows
  mismatch _ _ := .failWith _
  missing _ := .failWith _
  makeSite := makeSite_follows
  dereference := (values_follows stricter).dereference
  evaluateArguments := (values_follows stricter).conditions.evaluateArguments
  parameterFrame := (composes_follows stricter).parameterFrame (values_follows stricter).value
    (addFrame_follows _) fun _ _ _ _ => .bind makeSite_follows fun _ => changeFrame_follows _ _
  defaultGroup := (values_follows stricter).conditions.defaultGroup fun _ h =>
    .ofState fun _ => h.between (fun _ => rfl) fun _ => rfl

theorem blocks_follows :
    Composes.Blocks fun _ x y => Follows strict lenient x y where
  toCalls := calls_follows stricter
  setSpan := setSpan_follows
  note _ _ _ := .change fun _ => rfl
  beginBody _ := .change fun _ => rfl
  locatedAt span h := h.locatedAt span
  insideOf label h := h.insideOf label
  whileExpanding _ h := h.between (fun _ => rfl) fun _ => rfl
  withinExpansions _ _ h := .ofSetting (h.checked stricter.mixinDepth id)
  value := (values_follows stricter).value
  evaluatePrelude := (values_follows stricter).evaluatePrelude
  exportTo := (calls_follows stricter).exportTo fun _ _ _ _ => changeFrame_follows _ _
  expandImports id env := expandImports_follows stricter id env false
  effectiveSelectors := effectiveSelectors_follows stricter

theorem blockWithin_follows (room : Setting.Room strict lenient n m) (env : Environment)
    (ctx : Context) :
    Follows strict lenient (blockWithin n env ctx) (blockWithin m env ctx) := by
  induction m generalizing n env ctx with
  | zero =>
    obtain rfl : n = 0 := Nat.le_zero.mp room.le
    exact .failWith _
  | succ m ih =>
    cases n with
    | zero =>
      have lenientRun : Follows strict lenient _ _ :=
        (blocks_follows stricter).blockWith (ih (.refl m)) env ctx
      exact lenientRun.exhausted room
    | succ n => exact (blocks_follows stricter).blockWith (ih room.pred) env ctx

end

end Eval

/-! ## Whole compilations -/

namespace Compiler

variable {strict lenient : Setting}

theorem nestingBound_room (stricter : strict.Stricter lenient) (rules : Nat) :
    Setting.Room strict lenient (nestingBound strict.options rules)
      (nestingBound lenient.options rules) := by
  constructor
  · have mixins := Nat.succ_le_succ (Nat.mul_le_mul_right rules stricter.mixinDepth)
    have imports := Nat.add_le_add_right stricter.importDepth 2
    exact Nat.succ_le_succ (Nat.mul_le_mul_right (rules + 2) (Nat.mul_le_mul mixins imports))
  · intro same
    unfold nestingBound
    rw [stricter.mixinRoom.shared same, stricter.importRoom.shared same]

theorem resolveSheet_follows (stricter : strict.Stricter lenient) (sheet : Stylesheet) :
    Eval.Follows strict lenient (resolveSheet sheet) (resolveSheet sheet) := by
  have registered : Eval.Follows strict lenient (registerSheet sheet) (registerSheet sheet) := by
    unfold registerSheet
    cases sheet.path with
    | some path => exact Eval.registerMain_follows stricter path
    | none => exact .pure ()
  have opened : Eval.Follows strict lenient (openSheet sheet) (openSheet sheet) := by
    apply Eval.Follows.bind registered
    intro _
    refine .bind (Eval.addFrame_follows _) fun root => Eval.Follows.ofSetting ?_
    rw [stricter.loader]
    apply Eval.Follows.bind (Eval.expandImports_follows stricter root _ true)
    intro _
    exact .bind (Eval.replayDeferred_follows stricter root _) fun _ => .pure _
  refine .bind opened fun env => Eval.Follows.ofSetting (Eval.Follows.ofSetting ?_)
  rw [stricter.loader]
  exact .bind (Eval.blockWithin_follows stricter (nestingBound_room stricter _) env {}) fun _ =>
    .pure _

theorem compile_agrees_or_stops (stricter : strict.Stricter lenient) (sheet : Stylesheet) :
    (compile strict sheet = compile lenient sheet ∧
        (strict.options.warningsAsErrors →
          ∀ result, (compile lenient sheet).outcome = .ok result → result.warnings = [])) ∨
      ∃ f warnings, (compile strict sheet).outcome = .error f ∧ f.Stops strict lenient warnings ∧
        ∀ result, (compile lenient sheet).outcome = .ok result → result.warnings = warnings := by
  have warningsOf : ∀ result, (compile lenient sheet).outcome = .ok result →
      result.warnings = ((resolveSheet sheet).run lenient {}).2.warnings.toList := by
    intro result ok
    change (reportOn sheet ((resolveSheet sheet).run lenient {})).outcome = _ at ok
    rcases run : (resolveSheet sheet).run lenient {} with ⟨f | rules, s⟩ <;> rw [run] at ok
    · cases ok
    · cases ok
      rfl
  cases (resolveSheet_follows stricter sheet).agrees {} fun _ => rfl with
  | inl same =>
    obtain ⟨same, calm⟩ := same
    refine .inl ⟨congrArg (reportOn sheet) same, ?_⟩
    intro flag result ok
    rw [warningsOf result ok]
    exact congrArg Array.toList (calm flag)
  | inr stopped =>
    obtain ⟨f, failed, stops⟩ := stopped
    rcases run : (resolveSheet sheet).run strict {} with ⟨g | rules, s⟩
    · obtain rfl : g = f := by
        change ((resolveSheet sheet).run strict {}).1 = _ at failed
        rw [run] at failed
        exact Except.error.inj failed
      refine .inr ⟨nameFile sheet s.importer g, _, ?_, stops, warningsOf⟩
      change (reportOn sheet ((resolveSheet sheet).run strict {})).outcome = _
      rw [run]
      rfl
    · change ((resolveSheet sheet).run strict {}).1 = _ at failed
      rw [run] at failed
      cases failed

end Compiler

def Setting.withLimits (setting : Setting) (mixinDepth importDepth selectors : Nat) : Setting :=
  { setting with
    options :=
      { setting.options with
        maxMixinDepth := mixinDepth
        maxImportDepth := importDepth
        maxSelectorExpansions := selectors } }

def Setting.takingWarnings (setting : Setting) (asErrors : Bool) : Setting :=
  { setting with options := { setting.options with warningsAsErrors := asErrors } }

/-- Limits reject and never alter: what a compilation results in, it results in under higher limits
    too, with the same warnings. -/
theorem higher_limits_keep_results (setting : Setting) (mixinDepth importDepth selectors : Nat)
    (mixins : setting.options.maxMixinDepth ≤ mixinDepth)
    (imports : setting.options.maxImportDepth ≤ importDepth)
    (expansions : setting.options.maxSelectorExpansions ≤ selectors) (sheet : Stylesheet)
    (result : Compilation) (ok : (compile setting sheet).outcome = .ok result) :
    (compile (setting.withLimits mixinDepth importDepth selectors) sheet).outcome =
      .ok result := by
  have stricter : setting.Stricter (setting.withLimits mixinDepth importDepth selectors) :=
    ⟨rfl, rfl, rfl, rfl, rfl, id, mixins, imports, expansions⟩
  cases compile_agrees_or_stops stricter sheet with
  | inl same => rw [← same.1, ok]
  | inr stopped =>
    obtain ⟨f, -, failed, -⟩ := stopped
    rw [ok] at failed
    cases failed

/-- A mixin that is called in a ruleset for two classes, and a selector with two `&` in it. -/
def branchingSheet : Stylesheet :=
  ⟨none,
    [.mixin ⟨".m", [], none, Span.none⟩ [.declaration ⟨"p", .keyword "x", false, Span.none⟩],
      .ruleset [⟨[⟨.attached, .literal ".a"⟩]⟩, ⟨[⟨.attached, .literal ".b"⟩]⟩]
        [.call ⟨[".m"], [], false, Span.none⟩,
          .ruleset [⟨[⟨.attached, .wildcard⟩, ⟨.descendant, .wildcard⟩]⟩]
            [.declaration ⟨"q", .keyword "y", false, Span.none⟩] Span.none]
        Span.none]⟩

/-- Limits that the sheet just keeps within. -/
theorem branchingSheet_keeps_result :
    ∃ result, (compile (Setting.withLimits {} 1 0 4) branchingSheet).outcome = .ok result ∧
      (compile (Setting.withLimits {} 64 32 4096) branchingSheet).outcome = .ok result := by
  have compiles : (compile (Setting.withLimits {} 1 0 4)
      branchingSheet).outcome.toOption.isSome = true := by
    decide +kernel
  cases outcome : (compile (Setting.withLimits {} 1 0 4) branchingSheet).outcome with
  | error failure =>
    rw [outcome] at compiles
    cases compiles
  | ok result =>
    exact ⟨result, rfl, higher_limits_keep_results (Setting.withLimits {} 1 0 4) 64 32 4096
      (by decide) (by decide) (by decide) branchingSheet result outcome⟩

/-- Taking warnings for errors agrees with collecting them: it accepts exactly the sheets that are
    accepted without a warning, with the same result, and rejects a sheet that is accepted with
    warnings for the first of them. -/
theorem warnings_as_errors_agree (setting : Setting) (sheet : Stylesheet) :
    (∀ output,
      (∃ result, (compile (setting.takingWarnings true) sheet).outcome = .ok result ∧
          result.sheet = output) ↔
        ∃ result, (compile (setting.takingWarnings false) sheet).outcome = .ok result ∧
          result.sheet = output ∧ result.warnings = []) ∧
      ∀ result first later,
        (compile (setting.takingWarnings false) sheet).outcome = .ok result →
        result.warnings = first :: later →
        ∃ f, (compile (setting.takingWarnings true) sheet).outcome = .error f ∧
          f.cause = .warning first.message ∧ f.span = some first.span := by
  have stricter : (setting.takingWarnings true).Stricter (setting.takingWarnings false) :=
    ⟨rfl, rfl, rfl, rfl, rfl, fun _ => rfl, Nat.le_refl _, Nat.le_refl _, Nat.le_refl _⟩
  cases compile_agrees_or_stops stricter sheet with
  | inl same =>
    obtain ⟨same, calm⟩ := same
    rw [same]
    constructor
    · intro output
      constructor
      · intro ⟨result, ok, sheet⟩
        exact ⟨result, ok, sheet, calm rfl result ok⟩
      · intro ⟨result, ok, sheet, _⟩
        exact ⟨result, ok, sheet⟩
    · intro result first later ok warned
      rw [calm rfl result ok] at warned
      cases warned
  | inr stopped =>
    -- The limits are the same, so it is the first warning that stopped the strict run.
    obtain ⟨f, warnings, failed, stops, same⟩ := stopped
    have firstWarning : ∀ result,
        (compile (setting.takingWarnings false) sheet).outcome = .ok result →
        ∃ w, result.warnings.head? = some w ∧ f.cause = .warning w.message ∧
          f.span = some w.span := by
      intro result ok
      rw [same result ok]
      cases stops with
      | inl exceeds => exact absurd rfl exceeds.limits
      | inr first => exact first.2
    constructor
    · intro output
      constructor
      · intro ⟨result, ok, _⟩
        rw [failed] at ok
        cases ok
      · intro ⟨result, ok, _, unwarned⟩
        obtain ⟨w, head, -⟩ := firstWarning result ok
        rw [unwarned] at head
        cases head
    · intro result first later ok warned
      obtain ⟨w, head, cause, span⟩ := firstWarning result ok
      rw [warned] at head
      obtain rfl : first = w := Option.some.inj head
      exact ⟨f, failed, cause, span⟩

def mixedUnits : Stylesheet :=
  let sum := fun left right =>
    Value.operation .add (.dimension ⟨1, left⟩) (.dimension ⟨2, right⟩)
  ⟨none,
    [.ruleset [⟨[⟨.attached, .literal ".a"⟩]⟩]
      [.declaration ⟨"width", sum "px" "em", false, ⟨0, 1, 6⟩⟩,
        .declaration ⟨"height", sum "em" "px", false, ⟨0, 2, 6⟩⟩] ⟨0, 1, 1⟩]⟩

theorem mixedUnits_fail_for_the_first_warning :
    ∃ result first later,
      (compile (Setting.takingWarnings {} false) mixedUnits).outcome = .ok result ∧
      result.warnings = first :: later ∧ first.span = ⟨0, 1, 6⟩ ∧
      ∃ f, (compile (Setting.takingWarnings {} true) mixedUnits).outcome = .error f ∧
        f.cause = .warning first.message ∧ f.span = some ⟨0, 1, 6⟩ := by
  have spans : ((compile (Setting.takingWarnings {} false)
      mixedUnits).outcome.toOption.map (·.warnings.map (·.span))) =
      some [⟨0, 1, 6⟩, ⟨0, 2, 6⟩] := by
    decide +kernel
  cases outcome : (compile (Setting.takingWarnings {} false) mixedUnits).outcome with
  | error failure =>
    rw [outcome] at spans
    cases spans
  | ok result =>
    rw [outcome] at spans
    obtain ⟨first, later, warned, span, -⟩ := List.map_eq_cons_iff.mp (Option.some.inj spans)
    obtain ⟨f, failed, cause, at_⟩ :=
      (warnings_as_errors_agree {} mixedUnits).2 result first later outcome warned
    exact ⟨result, first, later, rfl, warned, span, f, failed, cause, span ▸ at_⟩

end StyleResolution
