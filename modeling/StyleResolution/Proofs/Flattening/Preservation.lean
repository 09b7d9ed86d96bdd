import StyleResolution.Proofs.Flattening.Scope

/-! # Flattening keeps every declaration in its place

A ruleset gives its declarations to one flat ruleset and lets the rules nested in it follow, a media
block keeps what stands in it and lets the media blocks nested in it follow, and an at-rule keeps
everything. So a block contributes its own declarations, and rules that say the same as the rules
nested in it (`Faithful`). The proof is an induction over the nesting of blocks and, in a block,
over its rules.
-/

namespace StyleResolution

open Eval

/-! ## Reading flat rules -/

namespace Rule

variable {around : Surroundings}

theorem standingAmong_eq_flatMap (around : Surroundings) (rules : List Rule) :
    standingAmong around rules = rules.flatMap (standing around) := by
  induction rules with
  | nil => rfl
  | cons r rs ih => simp only [standingAmong, ih, List.flatMap_cons]

@[simp] theorem standingAmong_append (first later : List Rule) :
    standingAmong around (first ++ later) =
      standingAmong around first ++ standingAmong around later := by
  simp [standingAmong_eq_flatMap]

@[simp] theorem standingAmong_declarations (ds : List Declaration) :
    standingAmong around (ds.map .declaration) = [] := by
  simp [standingAmong_eq_flatMap, standing]

/-- The order of the rules only matters for the order of the clusters. -/
theorem standingAmong_partition (rules : List Rule) (p : Rule → Bool) :
    (standingAmong around (rules.filter (!p ·)) ++ standingAmong around (rules.filter p)).Perm
      (standingAmong around rules) := by
  rw [← standingAmong_append, standingAmong_eq_flatMap, standingAmong_eq_flatMap around rules]
  exact (List.perm_append_comm.trans (List.filter_append_perm p rules)).flatMap_right _

theorem standingAmong_media (media : Option Value) (rules : List Rule) :
    standingAmong { around with media } (rules.filter isMedia) =
      standingAmong around (rules.filter isMedia) := by
  induction rules with
  | nil => rfl
  | cons r rs ih =>
    cases r with
    | media => exact congrArg _ ih
    | _ => exact ih

theorem filterMap_declarations (ds : List Declaration) :
    (ds.map Rule.declaration).filterMap asDeclaration = ds := by
  induction ds with
  | nil => rfl
  | cons d ds ih => simp only [List.map_cons, List.filterMap_cons, asDeclaration, ih]

theorem standingAmong_rulesetOf (selectors : List Selector) (o : Output) (span : Span) :
    standingAmong around (rulesetOf selectors o span) =
      { around with selectors }.clusterOf o.declarations := by
  unfold rulesetOf
  split
  · rename_i none
    simp only [standingAmong, Surroundings.clusterOf, none, if_true]
  · simp only [standingAmong, standing, Output.declarationRules, filterMap_declarations,
      standingAmong_declarations, List.append_nil]

theorem areFlat_iff : areFlat rules = true ↔ ∀ r ∈ rules, r.isFlat = true := by
  induction rules with
  | nil => simp [areFlat]
  | cons r rs ih => simp [areFlat, ih]

/-- The rules are flat and there are no bare declarations among them, so they may follow the
    ruleset they were nested in. -/
def Beside (rules : List Rule) : Prop :=
  ∀ r ∈ rules, r.asDeclaration = none ∧ r.isFlat = true

namespace Beside

theorem append (h : Beside first) (h' : Beside later) : Beside (first ++ later) := by
  intro r member
  rcases List.mem_append.mp member with inFirst | inLater
  · exact h r inFirst
  · exact h' r inLater

theorem filter (h : Beside rules) (p : Rule → Bool) : Beside (rules.filter p) :=
  fun r member => h r (List.mem_filter.mp member).1

theorem single (bare : r.asDeclaration = none) (flat : r.isFlat = true) : Beside [r] := by
  intro r' member
  cases List.mem_singleton.mp member
  exact ⟨bare, flat⟩

theorem declarations {rules : List Rule} (h : Beside rules) :
    rules.filterMap asDeclaration = [] :=
  List.filterMap_eq_nil_iff.mpr fun r member => (h r member).1

theorem rulesetOf (selectors : List Selector) (o : Output) (span : Span) :
    Beside (rulesetOf selectors o span) := by
  unfold Eval.rulesetOf
  split
  · exact nofun
  · refine single rfl ?_
    simp [isFlat, Output.declarationRules, asDeclaration]

end Beside

end Rule

open Rule (Beside)

/-! ## Media blocks -/

section Media

variable {around : Surroundings} {features : Value} {span : Span} {body : Output}

theorem Surroundings.inMedia_eq (around : Surroundings) (features : Value) :
    around.inMedia features =
      { around with media := some (joinFeatures around.media features) } := by
  unfold inMedia joinFeatures
  cases around.media <;> rfl

theorem standingAmong_mediaBlock (rules : List Rule) :
    Rule.standingAmong around (if rules.isEmpty then [] else [.media features rules span]) =
      { around with media := some features }.clusterOf (rules.filterMap Rule.asDeclaration) ++
        Rule.standingAmong { around with media := some features } rules := by
  cases rules with
  | nil => rfl
  | cons r rs => simp [Rule.standingAmong, Rule.standing]

/-- The declarations of a media block stand for the selectors around it, and what is not a media
    block stays. -/
theorem standingAmong_mediaBody (around : Surroundings) (beside : Beside body.rules) :
    let rules := mediaBody around.selectors body span
    { around with selectors := [] }.clusterOf (rules.filterMap Rule.asDeclaration) ++
        Rule.standingAmong { around with selectors := [] } rules =
      around.clusterOf body.declarations ++
        Rule.standingAmong { around with selectors := [] }
          (body.rules.filter (!isMedia ·)) := by
  have kept := (beside.filter (!isMedia ·)).declarations
  cases selectors : around.selectors with
  | nil =>
    have same : { around with selectors := [] } = around := by rw [← selectors]
    simp only [mediaBody, List.isEmpty_nil, if_true, Output.declarationRules,
      List.filterMap_append, Rule.filterMap_declarations, kept, List.append_nil, same,
      Rule.standingAmong_append, Rule.standingAmong_declarations, List.nil_append]
  | cons first others =>
    -- Inside a ruleset the declarations are wrapped in its selectors, so none of them is bare.
    have ruleset := (Beside.rulesetOf (first :: others) body span).declarations
    have same : { around with selectors := first :: others } = around := by rw [← selectors]
    simp [mediaBody, ruleset, kept, Rule.standingAmong_rulesetOf, same,
      Surroundings.clusterOf]

theorem mediaBody_flat (beside : Beside body.rules) :
    (Rule.media features (mediaBody selectors body span) span).isFlat = true := by
  have flat : ∀ r ∈ mediaBody selectors body span, r.isFlat = true ∧ isMedia r = false := by
    intro r member
    rcases List.mem_append.mp member with own | kept
    · split at own
      · obtain ⟨d, -, rfl⟩ := List.mem_map.mp own
        exact ⟨rfl, rfl⟩
      · refine ⟨(Beside.rulesetOf selectors body span r own).2, ?_⟩
        unfold rulesetOf at own
        split at own
        · cases own
        · cases List.mem_singleton.mp own
          rfl
    · obtain ⟨inside, other⟩ := List.mem_filter.mp kept
      exact ⟨(beside r inside).2, by simpa using other⟩
  simp only [Rule.isFlat, Bool.and_eq_true, List.all_eq_true, Rule.areFlat_iff]
  exact ⟨fun r member => by simp [(flat r member).2], fun r member => (flat r member).1⟩

end Media

/-! ## Reading nested rules -/

section Nested

variable {setting : Setting} {scope : Scope} {r : Rule} {rs : List Rule}

theorem Scope.declarations_of_bare (bare : r.asDeclaration = none) :
    scope.declarations setting [r] = some [] := by
  cases r <;> first | rfl | cases bare

theorem Scope.declarations_cons (first : scope.declarations setting [r] = some own)
    (later : scope.declarations setting rs = some others) :
    scope.declarations setting (r :: rs) = some (own ++ others) := by
  cases r with
  | declaration d =>
    cases evaluated : scope.value setting d.value with
    | none => simp [declarations, evaluated] at first
    | some v =>
      simp only [declarations, evaluated, Option.bind_eq_bind, Option.bind_some, Option.pure_def,
        Option.some.injEq] at first
      simp [declarations, evaluated, later, ← first]
  | _ =>
    simp only [declarations, Option.some.injEq] at first
    simp [declarations, later, ← first]

theorem Rule.writtenFrom_singleton (around : Surroundings) (site : Site) (position : Nat) :
    Rule.writtenFrom setting scope around site position [r] =
      Rule.written setting scope around (site.child position) r := by
  cases read : Rule.written setting scope around (site.child position) r <;>
    simp [Rule.writtenFrom, read]

end Nested

/-! ## Faithful contributions -/

/-- The contribution of some rules of a block says what the rules say. -/
structure Faithful (setting : Setting) (scope : Scope) (around : Surroundings) (site : Site)
    (position : Nat) (rules : List Rule) (o : Output) : Prop where
  declarations : scope.declarations setting rules = some o.declarations
  others : ∃ clusters, Rule.writtenFrom setting scope around site position rules = some clusters ∧
    clusters.Perm (Rule.standingAmong { around with selectors := [] } o.rules)
  beside : Beside o.rules

namespace Faithful

variable {setting : Setting} {scope : Scope} {around : Surroundings} {site : Site} {position : Nat}

theorem nil : Faithful setting scope around site position [] {} where
  declarations := rfl
  others := ⟨[], rfl, List.Perm.refl _⟩
  beside := nofun

theorem cons {r : Rule} {rs : List Rule} {first later : Output}
    (h : Faithful setting scope around site position [r] first)
    (h' : Faithful setting scope around site (position + 1) rs later) :
    Faithful setting scope around site position (r :: rs) (first ++ later) where
  declarations := Scope.declarations_cons h.declarations h'.declarations
  others := by
    obtain ⟨clusters, written, perm⟩ := h.others
    obtain ⟨clusters', written', perm'⟩ := h'.others
    refine ⟨clusters ++ clusters', ?_, (perm.append perm').trans (.of_eq ?_)⟩
    · simp only [Rule.writtenFrom_singleton] at written
      simp [Rule.writtenFrom, written, written']
    · exact (Rule.standingAmong_append first.rules later.rules).symm
  beside := h.beside.append h'.beside

theorem ofRules (bare : r.asDeclaration = none)
    (written : Rule.written setting scope around (site.child position) r = some clusters)
    (perm : clusters.Perm (Rule.standingAmong { around with selectors := [] } rules))
    (beside : Beside rules) : Faithful setting scope around site position [r] (.ofRules rules) where
  declarations := Scope.declarations_of_bare bare
  others := ⟨clusters, by rw [Rule.writtenFrom_singleton, written], perm⟩
  beside := beside

end Faithful

def Surroundings.context (around : Surroundings) : Context :=
  { selectors := around.selectors, media := around.media }

namespace Eval

variable {setting : Setting} {env : Environment} {scope : Scope} {around : Surroundings}
  {s : Evaluation} {site : Site} {position : Nat}

/-- The evaluator is faithful to blocks without imports and calls. -/
def IsFaithful (setting : Setting) (evaluate : BlockEvaluator) : Prop :=
  ∀ (env : Environment) (scope : Scope) (around : Surroundings) (site : Site) (rules : List Rule)
    (s : Evaluation), Entered env ((site, rules) :: scope) s → Rule.arePlain rules = true →
      Yields setting s (evaluate env around.context) fun o _ =>
        Faithful setting ((site, rules) :: scope) around site 0 rules o

theorem effectiveSelectors_yields (ancestors selectors : List Selector) (span : Span) :
    Yields setting s (effectiveSelectors ancestors selectors span) fun effective _ =>
      Selector.combine ancestors selectors setting.options.maxSelectorExpansions = .ok effective := by
  refine .ofSetting ?_
  dsimp only
  split
  · exact .fail trivial
  · rename_i combined
    split
    · exact .pure combined
    · exact .change (.pure combined)

section Rules

variable {evaluate : BlockEvaluator} (faithful : IsFaithful setting evaluate)
  (evaluates : ∀ env ctx, KeepsLocal setting env.innermost? (evaluate env ctx))

include faithful

section

variable (entered : Entered env scope s)

include entered

theorem evaluateRuleset_faithful (selectors : List Selector) (plain : Rule.arePlain rules = true)
    (span : Span) : let r := Rule.ruleset selectors rules span
    Yields setting s
      (evaluateRuleset evaluate env around.context ⟨⟨r, site.child position⟩, 0⟩ selectors rules span)
      fun o _ => Faithful setting scope around site position [r] o := by
  refine .bind ((effectiveSelectors_yields _ _ _).keeping (effectiveSelectors_local _ _ _)) ?_
  rintro effective t ⟨combined, moved⟩
  refine .bind (.mapFailure (enterBlock_yields (entered.of_local moved) _ plain)) ?_
  intro inner u entered'
  refine .bind (.mapFailure
    (faithful inner scope { around with selectors := effective } _ rules u entered' plain)) ?_
  intro body _ (spec : Faithful setting ((site.child position, rules) :: scope)
    { around with selectors := effective } (site.child position) 0 rules body)
  obtain ⟨clusters, written, perm⟩ := spec.others
  have read : Rule.written setting scope around (site.child position)
      (.ruleset selectors rules span) =
        some ({ around with selectors := effective }.clusterOf body.declarations ++ clusters) := by
    simp only [Surroundings.context] at combined
    simp [Rule.written, combined, Except.toOption, spec.declarations, written]
  refine .pure (Faithful.ofRules rfl read ?_ ((Beside.rulesetOf _ _ _).append spec.beside))
  rw [Rule.standingAmong_append, Rule.standingAmong_rulesetOf]
  exact perm.append_left _

theorem evaluateMedia_faithful (features : Value) (plain : Rule.arePlain rules = true) (span : Span) :
    let r := Rule.media features rules span
    Yields setting s
      (evaluateMedia evaluate env around.context ⟨⟨r, site.child position⟩, 0⟩ features rules span)
      fun o _ => Faithful setting scope around site position [r] o := by
  refine .bind (.keeping (.mapFailure (value_yields entered features))
    ((value_local none env features).locatedAt span)) ?_
  rintro own t ⟨evaluated, moved⟩
  refine .bind (enterBlock_yields (entered.of_local moved) _ plain) ?_
  intro inner u entered'
  let joined := joinFeatures around.media own
  refine .bind (faithful inner scope { around with media := some joined } _ rules u entered'
    plain) ?_
  intro body _ (spec : Faithful setting ((site.child position, rules) :: scope)
    { around with media := some joined } (site.child position) 0 rules body)
  obtain ⟨clusters, written, perm⟩ := spec.others
  have read : Rule.written setting scope around (site.child position) (.media features rules span) =
      some ({ around with media := some joined }.clusterOf body.declarations ++ clusters) := by
    simp [Rule.written, evaluated, Surroundings.inMedia_eq, spec.declarations, written, joined]
  let kept := mediaBody around.selectors body span
  have block : Rule.standingAmong { around with selectors := [] }
      (if kept.isEmpty then [] else [.media joined kept span]) =
        { around with media := some joined }.clusterOf body.declarations ++
          Rule.standingAmong { around with media := some joined, selectors := [] }
            (body.rules.filter (!isMedia ·)) :=
    (standingAmong_mediaBlock kept).trans
      (standingAmong_mediaBody { around with media := some joined } spec.beside)
  refine .pure (Faithful.ofRules rfl read ?_ (Beside.append ?_ (spec.beside.filter _)))
  · change List.Perm _ (Rule.standingAmong _
      ((if kept.isEmpty then [] else [.media joined kept span]) ++ body.rules.filter isMedia))
    rw [Rule.standingAmong_append, block, List.append_assoc]
    refine (perm.trans ?_).append_left _
    -- The media blocks that follow have the features around them joined to their own already.
    rw [← Rule.standingAmong_media (some joined)]
    exact (Rule.standingAmong_partition body.rules isMedia).symm
  · split
    · exact nofun
    · exact Beside.single rfl (mediaBody_flat spec.beside)

theorem evaluateAtBlock_faithful (name : String) (prelude : Option Value)
    (plain : Rule.arePlain rules = true) (span : Span) :
    let r := Rule.atBlock name prelude rules span
    Yields setting s
      (evaluateAtBlock evaluate env around.context ⟨⟨r, site.child position⟩, 0⟩ name prelude rules
        span)
      fun o _ => Faithful setting scope around site position [r] o := by
  refine .bind ((evaluatePrelude_yields entered span prelude).keeping
    (evaluatePrelude_local env span prelude)) ?_
  rintro own t ⟨evaluated, moved⟩
  refine .bind (enterBlock_yields (entered.of_local moved) _ plain) ?_
  intro inner u entered'
  refine .bind (.mapFailure
    (faithful inner scope (around.inAtRule name own span) _ rules u entered' plain)) ?_
  intro body _ (spec : Faithful setting ((site.child position, rules) :: scope)
    (around.inAtRule name own span) (site.child position) 0 rules body)
  obtain ⟨clusters, written, perm⟩ := spec.others
  have read : Rule.written setting scope around (site.child position)
      (.atBlock name prelude rules span) =
        some ((around.inAtRule name own span).clusterOf body.declarations ++ clusters) := by
    simp [Rule.written, evaluated, spec.declarations, written]
  refine .pure (Faithful.ofRules rfl read ?_ (Beside.single rfl ?_))
  · simp only [Rule.standingAmong, Rule.standing, Output.declarationRules, List.filterMap_append,
      Rule.filterMap_declarations, spec.beside.declarations, List.append_nil,
      Rule.standingAmong_append, Rule.standingAmong_declarations, List.nil_append]
    exact perm.append_left _
  · rw [Rule.isFlat, Rule.areFlat_iff]
    intro r member
    rcases List.mem_append.mp member with own | other
    · obtain ⟨d, -, rfl⟩ := List.mem_map.mp own
      rfl
    · exact (spec.beside r other).2

theorem evaluateRule_faithful (plain : r.isPlain = true) :
    Yields setting s (evaluateRule evaluate env around.context ⟨⟨r, site.child position⟩, 0⟩)
      fun o _ => Faithful setting scope around site position [r] o := by
  have nothing : Rule.asDeclaration r = none →
      Rule.written setting scope around (site.child position) r = some [] →
        Faithful setting scope around site position [r] {} :=
    fun bare read => Faithful.ofRules bare read (List.Perm.refl _) nofun
  cases r with
  | declaration d =>
    have entered' : Entered env scope { s with span := d.span } := { entered with }
    refine Ends.change (Yields.bind (Ends.mapFailure (value_yields entered' d.value)) ?_)
    intro v _ evaluated
    refine .pure ⟨?_, ⟨[], ?_, List.Perm.refl _⟩, nofun⟩
    · simp [Scope.declarations, evaluated, Surroundings.context]
    · rw [Rule.writtenFrom_singleton, Rule.written]
  | «variable» d =>
    refine Ends.change (Yields.bind (Yields.any _) fun _ _ _ => ?_)
    exact Ends.pure (nothing rfl (by rw [Rule.written]))
  | ruleset selectors rules span => exact evaluateRuleset_faithful faithful entered selectors plain span
  | mixin head rules => exact Ends.pure (nothing rfl (by rw [Rule.written]))
  | call c => cases plain
  | fileImport i => cases plain
  | media features rules span => exact evaluateMedia_faithful faithful entered features plain span
  | atStatement name prelude span =>
    refine .bind (evaluatePrelude_yields entered span prelude) fun own _ _ => ?_
    refine Ends.pure (Faithful.ofRules rfl (by rw [Rule.written]) ?_ (Beside.single rfl rfl))
    exact List.Perm.refl _
  | atBlock name prelude rules span =>
    exact evaluateAtBlock_faithful faithful entered name prelude plain span

end

include evaluates

theorem evaluateEntries_faithful (entered : Entered env scope s)
    (plain : Rule.arePlain rules = true) : Yields setting s
      (evaluateEntries evaluate env around.context (entriesFrom site position rules) [])
      fun o _ => Faithful setting scope around site position rules o := by
  induction rules generalizing position s with
  | nil => exact .pure Faithful.nil
  | cons r rs ih =>
    simp only [Rule.arePlain, Bool.and_eq_true] at plain
    unfold entriesFrom evaluateEntries
    split
    · rename_i expanded
      cases expanded
    · refine .bind ((evaluateRule_faithful faithful entered plain.1).keeping
        (evaluateRule_local evaluates env _ _)) ?_
      rintro own t ⟨spec, moved⟩
      refine .bind (ih (entered.of_local moved) plain.2) ?_
      intro others _ later
      exact .pure (spec.cons later)

theorem blockWith_faithful : IsFaithful setting (blockWith evaluate) := by
  intro env scope around site rules s entered plain
  obtain ⟨id, innermost, entries⟩ := entered.innermost
  have plainEntries := ofBlock_plain plain site
  rw [← entries] at plainEntries
  unfold blockWith
  rw [innermost]
  refine .ofState ?_
  rw [expandCalls_plain _ _ plainEntries, pure_bind]
  refine .ofState ?_
  rw [entries, ofBlock_entries]
  exact evaluateEntries_faithful faithful evaluates entered plain

end Rules

theorem blockWithin_faithful (n : Nat) : IsFaithful setting (blockWithin n) := by
  induction n with
  | zero => exact fun _ _ _ _ _ _ _ _ => .failWith trivial
  | succ n ih => exact blockWith_faithful ih (blockWithin_local n)

end Eval

/-! ## Sheets -/

namespace Compiler

open Eval (Yields Ends)

variable {setting : Setting}

theorem openSheet_yields (sheet : Stylesheet) (plain : Rule.arePlain sheet.rules = true) :
    Yields setting {} (openSheet sheet) fun env s =>
      Entered env [(.written 0 [], sheet.rules)] s := by
  refine Yields.bind ((Yields.any _).keeping (registerSheet_loads sheet)) ?_
  rintro _ t ⟨-, loads⟩
  have start : Entered {} [] ({} : Evaluation) := Entered.of_scope []
  have empty : Entered {} [] t := start.of_local (@Loads.local 0 _ _ loads none)
  refine .bind (addFrame_yields empty _ sheet.rules) ?_
  rintro root u ⟨frame, importer, entered⟩
  have idle : u.importer.deferred = [] := by rw [importer, loads.deferred]
  refine Ends.ofSetting (Yields.bind (expandBlock_yields plain frame true) ?_)
  rintro _ _ rfl
  refine Ends.bind_of_ok (replayDeferred_of_empty idle root _) ?_
  exact Ends.pure entered

theorem standingIn_arrange (beside : Beside o.rules) : (Rule.standingIn (arrange o)).Perm
      (Surroundings.clusterOf {} o.declarations ++ Rule.standingAmong {} o.rules) := by
  have imports := (beside.filter isImport).declarations
  have others := (beside.filter (!isImport ·)).declarations
  simp only [Rule.standingIn, arrange, Output.declarationRules, List.filterMap_append, imports,
    Rule.filterMap_declarations, others, List.nil_append, List.append_nil,
    Rule.standingAmong_append, Rule.standingAmong_declarations]
  refine List.Perm.append_left _ (List.perm_append_comm.trans ?_)
  exact Rule.standingAmong_partition o.rules isImport

theorem arrange_flat (beside : Beside o.rules) : Rule.areFlat (arrange o) = true := by
  rw [Rule.areFlat_iff]
  intro r member
  simp only [arrange, List.mem_append, List.mem_filter, Output.declarationRules, List.mem_map] at member
  rcases member with (⟨inside, -⟩ | ⟨d, -, rfl⟩) | ⟨inside, -⟩
  · exact (beside r inside).2
  · rfl
  · exact (beside r inside).2

theorem resolveSheet_yields (sheet : Stylesheet) (plain : Rule.arePlain sheet.rules = true) :
    Yields setting {} (resolveSheet sheet) fun rules _ =>
      (∃ clusters, sheet.written setting = some clusters ∧ clusters.Perm (Rule.standingIn rules)) ∧
        Rule.areFlat rules = true := by
  refine .bind (openSheet_yields sheet plain) fun env s entered => ?_
  refine .ofSetting (.ofSetting ?_)
  refine Yields.bind (blockWithin_faithful _ env [] {} _ _ s entered plain) fun o _ spec => ?_
  obtain ⟨clusters, written, perm⟩ := spec.others
  refine .pure ⟨⟨Surroundings.clusterOf {} o.declarations ++ clusters, ?_, ?_⟩,
    arrange_flat spec.beside⟩
  · simp [Stylesheet.written, spec.declarations, written]
  · exact (perm.append_left _).trans (standingIn_arrange spec.beside).symm

end Compiler

/-- Flattening keeps every declaration in its place: what a sheet without imports and calls compiles
    to is flat, and its declarations, each with its at-rules, media features, selectors, value, flag
    and position, are those of the sheet, as often as they are written there. Declarations written
    side by side stay side by side in their order. -/
theorem flattening_keeps_declarations (setting : Setting) (sheet : Stylesheet)
    (plain : Rule.arePlain sheet.rules = true) (result : Compilation)
    (compiled : (Compiler.compile setting sheet).outcome = .ok result) :
    ∃ clusters, sheet.written setting = some clusters ∧
      (clusters.flatMap Cluster.entries).Perm
        ((Rule.standingIn result.sheet.rules).flatMap Cluster.entries) ∧
      clusters.Perm (Rule.standingIn result.sheet.rules) ∧
      Rule.areFlat result.sheet.rules = true := by
  have yields := @Compiler.resolveSheet_yields setting sheet plain
  unfold Compiler.compile Compiler.compileFrom run at compiled
  rcases run : Compiler.resolveSheet sheet setting {} with ⟨failure | rules, s⟩
  · rw [run] at compiled
    cases compiled
  · rw [run] at compiled
    cases compiled
    obtain ⟨⟨clusters, written, perm⟩, flat⟩ := Eval.Ends.result yields run
    exact ⟨clusters, written, perm.flatMap_right _, perm, flat⟩

/-- A declaration of the variable `x`, at no position. -/
def Rule.ofX (property : String) : Rule :=
  .declaration ⟨property, .variable "x", false, Span.none⟩

/-- A ruleset for a class in a media block, and in it a media block with a definition of its own, a
    ruleset and an at-rule. -/
def nestedSheet : Stylesheet :=
  ⟨none,
    [.variable ⟨"x", .keyword "outer", Span.none⟩,
      .media (.keyword "screen")
        [.ruleset [⟨[⟨.attached, .literal ".a"⟩]⟩]
          [.ofX "p",
            .media (.variable "x")
              [.variable ⟨"x", .keyword "inner", Span.none⟩,
                .ofX "q",
                .ruleset [⟨[⟨.attached, .literal ".b"⟩]⟩] [.ofX "r"] Span.none,
                .atBlock "supports" (some (.variable "x")) [.ofX "s"] Span.none]
              Span.none,
            .ofX "t"]
          Span.none]
        Span.none]⟩

theorem nestedSheet_keeps_declarations :
    ∃ result clusters, (Compiler.compile {} nestedSheet).outcome = .ok result ∧
      nestedSheet.written {} = some clusters ∧
      clusters.Perm (Rule.standingIn result.sheet.rules) ∧
      clusters.map (·.declarations.map (·.property)) = [["p", "t"], ["q"], ["r"], ["s"]] := by
  have compiles : (Compiler.compile {} nestedSheet).outcome.toOption.isSome = true := by
    decide +kernel
  have properties : (nestedSheet.written {}).map
      (·.map (·.declarations.map (·.property))) = some [["p", "t"], ["q"], ["r"], ["s"]] := by
    decide +kernel
  cases outcome : (Compiler.compile {} nestedSheet).outcome with
  | error failure =>
    rw [outcome] at compiles
    cases compiles
  | ok result =>
    obtain ⟨clusters, written, -, perm, -⟩ :=
      flattening_keeps_declarations {} nestedSheet (by decide) result outcome
    rw [written] at properties
    exact ⟨result, clusters, rfl, written, perm, Option.some.inj properties⟩

end StyleResolution
