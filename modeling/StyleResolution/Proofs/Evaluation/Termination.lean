import StyleResolution.Proofs.Import.ReplayTermination
import StyleResolution.Proofs.Mixin.Selection

/-! # Compilation comes to an end

No single argument gets smaller while blocks are evaluated: a block is smaller than the block around
it until an import brings a whole file or a call brings the body of a mixin. The measure has three
parts. An expansion adds a callable to those being expanded, each of which is there no more often
than the limit allows, and there are no more of them than known blocks. Between two expansions a
block is never nested less deep in imports than the block around it. At one nesting, blocks are
written inside each other.
-/

namespace StyleResolution

open Eval Compiler

/-- The rules of the block that is evaluated where the rule stands. The body of a mixin is not. -/
def Rule.evaluatedBlock? : Rule → Option (List Rule)
  | .ruleset _ rules _ | .media _ rules _ | .atBlock _ _ rules _ => some rules
  | _ => none

theorem Rule.block?_of_evaluatedBlock? {r : Rule} (h : r.evaluatedBlock? = some rules) :
    r.block? = some rules := by
  cases r <;> simp only [evaluatedBlock?, reduceCtorEq] at h <;> exact h

theorem Rule.evaluatedBlock?_of_isExport {r : Rule} (h : r.isExport = true) :
    r.evaluatedBlock? = none := by
  cases r <;> simp only [isExport, Bool.false_eq_true] at h <;> rfl

section Heights

variable (setting : Setting) (sheet : Stylesheet)

/-- How deep the blocks in a block at an import nesting can be inside each other, the block itself
    included, as long as no call is expanded. -/
def blockHeight (nesting : Nat) (rules : List Rule) : Nat :=
  (setting.options.maxImportDepth - nesting) * (ruleBound setting.loader sheet + 2) +
    Rule.sizes rules + 1

def Entry.height (e : Entry) : Nat :=
  match e.rule.evaluatedBlock? with
  | some rules => blockHeight setting sheet e.nesting rules
  | none => 0

/-- More than any block can be high. -/
def levelHeight : Nat :=
  (setting.options.maxImportDepth + 2) * (ruleBound setting.loader sheet + 2)

/-- How deep the expansions that are still possible can be, whatever they expand. -/
def remainingHeight (s : Evaluation) : Nat :=
  (setting.options.maxMixinDepth * ruleBound setting.loader sheet - s.expanding.length) *
    levelHeight setting sheet

end Heights

variable {setting : Setting} {sheet : Stylesheet} {s : Evaluation}

theorem Entry.height_of_block {e : Entry} (block : e.rule.evaluatedBlock? = some rules) :
    e.height setting sheet = blockHeight setting sheet e.nesting rules := by
  simp only [Entry.height, block]

theorem Entry.height_of_none {e : Entry} (none_ : e.rule.evaluatedBlock? = none) :
    e.height setting sheet = 0 := by
  simp only [Entry.height, none_]

theorem blockHeight_lt_levelHeight
    (few : Rule.sizes rules < ruleBound setting.loader sheet) :
    blockHeight setting sheet nesting rules + 1 < levelHeight setting sheet := by
  have nested : (setting.options.maxImportDepth - nesting) *
      (ruleBound setting.loader sheet + 2) ≤
        setting.options.maxImportDepth * (ruleBound setting.loader sheet + 2) :=
    Nat.mul_le_mul_right _ (Nat.sub_le _ _)
  simp only [blockHeight, levelHeight, Nat.add_mul setting.options.maxImportDepth 2]
  omega

theorem admits_lower (nesting : Nat) (rules : List Rule) :
    Admits setting sheet nesting
      fun e => e.height setting sheet < blockHeight setting sheet nesting rules where
  plain i site k := Nat.succ_pos _
  loaded p k deeper within few := by
    cases block : p.rule.evaluatedBlock? with
    | none =>
      rw [Entry.height_of_none block]
      exact Nat.succ_pos _
    | some inner =>
      rw [Entry.height_of_block block]
      have few := few inner (Rule.block?_of_evaluatedBlock? block)
      have levels : setting.options.maxImportDepth - k + 1 ≤
          setting.options.maxImportDepth - nesting := by omega
      have nested := Nat.mul_le_mul_right (ruleBound setting.loader sheet + 2) levels
      rw [Nat.add_mul, Nat.one_mul] at nested
      simp only [blockHeight]
      omega

theorem ofBlock_lower (site : Site) (rules : List Rule) (nesting : Nat) :
    ∀ e ∈ (Frame.ofBlock site rules nesting).entries,
      e.height setting sheet < blockHeight setting sheet nesting rules := by
  intro e member
  obtain ⟨p, placed, rfl⟩ := Frame.mem_ofBlock.mp member
  obtain ⟨i, inside, rfl⟩ := List.mem_mapIdx.mp placed
  cases block : rules[i].evaluatedBlock? with
  | none =>
    rw [Entry.height_of_none block]
    exact Nat.succ_pos _
  | some inner =>
    rw [Entry.height_of_block block]
    have := Rule.size_of_block? (Rule.block?_of_evaluatedBlock? block)
    have := Rule.size_le_sizes (List.getElem_mem inside)
    simp only [blockHeight]
    omega

/-- A sane state in which all callables being expanded are known, and none too often. -/
structure Running (setting : Setting) (sheet : Stylesheet) (s : Evaluation) : Prop where
  sane : Sane setting sheet s
  callable : ∀ site ∈ s.expanding, site ∈ (knownBlocks sheet s.importer.cache).map Prod.fst
  limited : ∀ site ∈ s.expanding, s.expanding.count site ≤ setting.options.maxMixinDepth

namespace Running

theorem of_sane (running : Running setting sheet s) (sane : Sane setting sheet s')
    (expanding : s'.expanding = s.expanding) (cache : s.importer.cache <:+ s'.importer.cache) :
    Running setting sheet s' where
  sane := sane
  callable site member := by
    rw [expanding] at member
    obtain ⟨known, inside, rfl⟩ := List.mem_map.mp (running.callable site member)
    exact List.mem_map_of_mem (knownBlocks_mono cache inside)
  limited := by
    rw [expanding]
    exact running.limited

theorem length_le (running : Running setting sheet s) : s.expanding.length ≤
    setting.options.maxMixinDepth * ruleBound setting.loader sheet := by
  have := length_le_of_count_le running.callable running.limited
  rw [List.length_map] at this
  exact Nat.le_trans this (Nat.mul_le_mul_left _ (length_knownBlocks_le running.sane.holds))

theorem expand (running : Running setting sheet s) {c : Callable}
    (known : c.Known (knownBlocks sheet s.importer.cache))
    (within : (c.site :: s.expanding).count c.site ≤ setting.options.maxMixinDepth) :
    Running setting sheet { s with expanding := c.site :: s.expanding } where
  sane := running.sane.congr rfl rfl
  callable site member := by
    rcases List.mem_cons.mp member with rfl | outer
    · exact List.mem_map_of_mem known
    · exact running.callable site outer
  limited site member := by
    by_cases same : site = c.site
    · exact same ▸ within
    · rw [List.count_cons_of_ne (Ne.symm same)]
      exact running.limited site ((List.mem_cons.mp member).resolve_left same)

end Running

theorem remainingHeight_expand {c : Callable}
    (running : Running setting sheet { s with expanding := c.site :: s.expanding }) :
    remainingHeight setting sheet { s with expanding := c.site :: s.expanding } +
      levelHeight setting sheet = remainingHeight setting sheet s := by
  have room := running.length_le
  simp only [List.length_cons] at room
  simp only [remainingHeight, List.length_cons]
  rw [← Nat.succ_mul]
  congr 1
  omega

/-- A frame whose evaluation needs less than `n` levels of blocks and expansions. -/
structure Fits (setting : Setting) (sheet : Stylesheet) (n : Nat) (id : FrameId) (s : Evaluation) :
    Prop where
  inside : id < s.frames.size
  room : remainingHeight setting sheet s < n
  lower : ∀ e ∈ (s.frames.get id).entries,
    remainingHeight setting sheet s + e.height setting sheet < n

/-- A state in which the rule can be evaluated with less than `n` levels. -/
structure Ready (setting : Setting) (sheet : Stylesheet) (n : Nat) (e : Entry) (s : Evaluation) : Prop
    extends Running setting sheet s where
  placed : e.toPlaced.Known (knownBlocks sheet s.importer.cache)
  lower : remainingHeight setting sheet s + e.height setting sheet < n

namespace Eval

variable {α : Type}

theorem expanding_eq_of_restored {s s' : Evaluation} (h : s'.scopedPart = s.scopedPart) :
    s'.expanding = s.expanding :=
  congrArg Scoped.expanding h

theorem remainingHeight_eq_of_restored {s s' : Evaluation} (h : s'.scopedPart = s.scopedPart) :
    remainingHeight setting sheet s' = remainingHeight setting sheet s := by
  simp only [remainingHeight, expanding_eq_of_restored h]

theorem running_of_local (running : Running setting sheet s) (sane : Sane setting sheet s')
    (moved : Local limit o own s s') : Running setting sheet s' :=
  running.of_sane sane (expanding_eq_of_restored moved.restored) moved.cache

theorem ready_of_local (ready : Ready setting sheet n e s) (sane : Sane setting sheet s')
    (moved : Local limit o own s s') : Ready setting sheet n e s' where
  toRunning := running_of_local ready.toRunning sane moved
  placed := ready.placed.mono moved.cache
  lower := by
    rw [remainingHeight_eq_of_restored moved.restored]
    exact ready.lower

theorem openBlock_finishes (nesting : Nat) (envOf : FrameId → Environment) {next : FrameId → Eval α}
    {ok : α → Evaluation → Prop} (running : Running setting sheet s)
    (known : (site, rules) ∈ knownBlocks sheet s.importer.cache)
    (then_ : ∀ id t, Running setting sheet t → t.expanding = s.expanding → id < t.frames.size →
      (∀ e ∈ (t.frames.get id).entries,
        e.height setting sheet < blockHeight setting sheet nesting rules) →
      Finishes setting t (next id) ok) :
    Finishes setting s (addFrame (Frame.ofBlock site rules nesting) >>= fun id =>
      expandImports id (envOf id) false >>= fun _ => next id) ok := by
  let added : Evaluation :=
    { s with frames := (s.frames.add (Frame.ofBlock site rules nesting)).2 }
  have frame : added.frames.get s.frames.size = Frame.ofBlock site rules nesting :=
    Frames.get_add_self _ _
  have sane : Sane setting sheet added := running.sane.addBlock known nesting
  have entered : Finishes setting s (addFrame (Frame.ofBlock site rules nesting)) fun id t =>
      id = s.frames.size ∧ t = added := ⟨rfl, rfl⟩
  refine .bind entered ?_
  rintro id t ⟨rfl, rfl⟩
  have hosts : ∀ t : Evaluation, t.frames = added.frames → t.importer.cache = added.importer.cache →
      t.importer.nesting = (added.frames.get s.frames.size).base + added.importer.openImports →
        Hosts setting sheet s.frames.size nesting
          (fun e => e.height setting sheet < blockHeight setting sheet nesting rules) t := by
    intro t frames cache nested
    refine ⟨sane.congr frames cache, ?_, ?_, ?_⟩
    · rw [frames]
      simp [added]
    · rw [frames, frame]
      exact ofBlock_lower site rules nesting
    · rw [nested, frame]
      exact Nat.le_add_right _ _
  have expanded := expandImports_within (admits_lower nesting rules)
    (Nat.lt_succ_self (ruleBound setting.loader sheet)) (envOf s.frames.size) false hosts
  refine .bind (expanded.keeping (expandImports_splices s.frames.size _ false)) ?_
  rintro _ t ⟨⟨sane', lower, -⟩, splices⟩
  have expanding := expanding_eq_of_restored splices.restored
  refine then_ s.frames.size t (running.of_sane sane' expanding splices.cache) expanding ?_ lower
  rw [splices.size]
  simp [added]

/-! ## Expanding callables -/

/-- The evaluator finishes on every frame that needs less than `n` levels. -/
def EvaluatesWithin (setting : Setting) (sheet : Stylesheet) (n : Nat) (evaluate : BlockEvaluator) :
    Prop :=
  ∀ env ctx id s, env.innermost? = some id → Running setting sheet s → Fits setting sheet n id s →
    Finishes setting s (evaluate env ctx) fun _ s' => Sane setting sheet s'

section Blocks

variable {n : Nat} {evaluate : BlockEvaluator}
  (keeps : ∀ env ctx, KeepsLocal setting env.innermost? (evaluate env ctx))
  (evaluates : EvaluatesWithin setting sheet n evaluate)

include evaluates

theorem evaluateBody_finishes (ctx : Context) (nesting : Nat) (m : MatchedCandidate)
    (running : Running setting sheet s)
    (known : m.callable.Known (knownBlocks sheet s.importer.cache))
    (room : remainingHeight setting sheet s + levelHeight setting sheet ≤ n) :
    Finishes setting s (evaluateBody evaluate ctx nesting m) fun _ s' => Sane setting sheet s' := by
  refine openBlock_finishes nesting m.scope.push running known fun id t running' same inside lower => ?_
  have few : blockHeight setting sheet nesting m.callable.rules + 1 < levelHeight setting sheet :=
    blockHeight_lt_levelHeight (running.sane.sizes_lt known)
  have remaining : remainingHeight setting sheet t = remainingHeight setting sheet s := by
    simp only [remainingHeight, same]
  have fits : Fits setting sheet n id t := by
    refine ⟨inside, by omega, fun e member => ?_⟩
    have := lower e member
    omega
  exact .bind (evaluates _ ctx id t rfl running' fits) fun _ _ sane => .pure sane

theorem expandBody_finishes (ctx : Context) (nesting : Nat) (caller : Option FrameId)
    (m : MatchedCandidate) (running : Running setting sheet s)
    (known : m.callable.Known (knownBlocks sheet s.importer.cache))
    (room : remainingHeight setting sheet s < n + 1) :
    Finishes setting s (whileExpanding m.callable.site (expandBody evaluate ctx nesting caller m))
      fun _ s' => Sane setting sheet s' := by
  refine .between (.ofState (.ofSetting ?_))
  dsimp only
  split
  · exact .failWith nofun
  · rename_i within
    have expanding := running.expand known (Nat.le_of_not_lt within)
    have less := remainingHeight_expand expanding
    have begun : Running setting sheet
        { s with
          expanding := m.callable.site :: s.expanding
          history := .body m.callable.site (m.callable.site :: s.expanding) :: s.history
          events := s.events.push (.expanding m.callable.name
            ((m.callable.site :: s.expanding).count m.callable.site)) } :=
      expanding.of_sane (expanding.sane.congr rfl rfl) rfl List.suffix_rfl
    refine Ends.change (Ends.change (Ends.seq
      (evaluateBody_finishes evaluates ctx nesting m begun known ?_) ?_))
    · change remainingHeight setting sheet { s with expanding := m.callable.site :: s.expanding } +
        levelHeight setting sheet ≤ n
      omega
    · rintro ⟨body, output⟩ t sane
      exact Ends.seq ((Freshly.exportTo caller _ _ _).sanely_of_sound
        (exportTo_upholds caller _ _ _) sane) fun _ _ sane' =>
        .pure (sane'.congr rfl rfl)

include keeps

theorem expandAll_finishes (ctx : Context) (nesting : Nat) (caller : Option FrameId)
    (ms : List MatchedCandidate) (running : Running setting sheet s)
    (known : ∀ m ∈ ms, m.callable.Known (knownBlocks sheet s.importer.cache))
    (room : remainingHeight setting sheet s < n + 1) :
    Finishes setting s (expandAll evaluate ctx nesting caller ms) fun _ s' =>
      Sane setting sheet s' := by
  induction ms generalizing s with
  | nil => exact .pure running.sane
  | cons m ms ih =>
    have first := (expandBody_finishes evaluates ctx nesting caller m running
      (known m List.mem_cons_self) room).keeping
        (whileExpanding_local _ (expandBody_local keeps ctx nesting caller m))
    refine .bind first ?_
    rintro output t ⟨sane, moved⟩
    have expanding := expanding_eq_of_restored moved.restored
    refine .bind (ih (running.of_sane sane expanding moved.cache)
      (fun m' later => (known m' (List.mem_cons_of_mem _ later)).mono moved.cache) ?_) ?_
    · simpa only [remainingHeight, expanding] using room
    · exact fun _ _ sane' => .pure sane'

section

variable (env : Environment) (ctx : Context) (nesting : Nat) (call : MixinCall)
  (running : Running setting sheet s) (room : remainingHeight setting sheet s < n + 1)

include env ctx nesting call running room

theorem resolveCall_finishes :
    Finishes setting s (resolveCall evaluate env ctx nesting call) fun _ s' =>
      Sane setting sheet s' := by
  have calls : Composes.Calls fun _ x _ => Freshly setting x := Freshly.calls
  have arguments := ((calls.evaluateArguments env call.args).sanely_of_sound
    (values_upholds.evaluateArguments env call.args) running.sane).keeping
      (evaluateArguments_local env call.args)
  refine .bind arguments ?_
  rintro args t ⟨sane, moved⟩
  refine .bind (((calls.findCandidates env call.path).sanely sane
    (findCandidates_upholds (m := false) env call.path sane)).keeping
      (searches_local.findCandidates env call.path)) ?_
  rintro candidates u ⟨⟨sane', offers⟩, moved'⟩
  split
  · exact .failWith nofun
  · refine .bind ((emit_sanely _ sane').keeping (emit_quiet _)) ?_
    rintro _ v ⟨sane'', quiet⟩
    have matches_ := (calls.matchCandidates env args call.span candidates).sanely sane''
      (matchCandidates_upholds env args candidates sane'' trivial (quiet.importer ▸ offers))
    refine .bind (matches_.keeping (calls_local.matchCandidates env args call.span candidates)) ?_
    rintro selection w ⟨⟨lastSane, matched⟩, moved''⟩
    split
    · exact (calls.unmatched call _ _).sanely_of_sound (unmatched_upholds call _ _) lastSane
    · have chosen : Finishes setting w (chosenGroup selection.matched call) fun _ t => t = w := by
        unfold chosenGroup
        split
        · exact .pure rfl
        · split
          · exact .failWith nofun
          · exact .pure rfl
      refine .bind chosen ?_
      rintro group _ rfl
      have expanding : _ = s.expanding := (expanding_eq_of_restored moved''.restored).trans
        (quiet.expanding.trans ((expanding_eq_of_restored moved'.restored).trans
          (expanding_eq_of_restored moved.restored)))
      have cache := moved.cache.trans (moved'.cache.trans (quiet.loads.cache.trans moved''.cache))
      refine expandAll_finishes keeps evaluates _ nesting _ _
        (running.of_sane lastSane expanding cache) (fun m member => ?_) ?_
      · exact Callable.known_of_offers (matched m (List.mem_filter.mp member).1)
      · simpa only [remainingHeight, expanding] using room

theorem callMixin_finishes :
    Finishes setting s (callMixin evaluate env ctx nesting call) fun _ s' =>
      Sane setting sheet s' := by
  have begun : Running setting sheet { s with span := call.span } :=
    running.of_sane (running.sane.congr rfl rfl) rfl List.suffix_rfl
  have resolved : Finishes setting { s with span := call.span }
      (resolveCall evaluate env ctx nesting call) fun _ s' => Sane setting sheet s' :=
    resolveCall_finishes keeps evaluates env ctx nesting call begun room
  exact .change ((resolved.locatedAt call.span).insideOf fun _ => call.text)

end

theorem expandCalls_finishes (env : Environment) (ctx : Context) (es : List Entry)
    (running : Running setting sheet s) (room : remainingHeight setting sheet s < n + 1) :
    Finishes setting s (expandCalls evaluate env ctx es) fun _ s' => Sane setting sheet s' := by
  induction es generalizing s with
  | nil => exact .pure running.sane
  | cons e es ih =>
    unfold expandCalls
    split
    · rename_i c _
      have running : Running setting sheet (noteCalling e.site c env setting s).2 :=
        running.of_sane (running.sane.congr rfl rfl) rfl List.suffix_rfl
      refine .change ?_
      refine Ends.seq ((callMixin_finishes keeps evaluates env ctx e.nesting c running
        room).keeping (callMixin_local keeps env ctx e.nesting c)) ?_
      rintro output t ⟨sane, moved⟩
      have expanding := expanding_eq_of_restored moved.restored
      refine .seq (ih (running.of_sane sane expanding moved.cache) ?_) ?_
      · rw [remainingHeight, expanding]
        exact room
      · exact fun _ _ sane' => .pure sane'
    · exact ih running room

/-! ## Evaluating blocks -/

omit keeps in
theorem enterBlock_finishes {e : Entry} (block : e.rule.evaluatedBlock? = some rules)
    (ready : Ready setting sheet (n + 1) e s) {next : Environment → Eval α}
    {ok : α → Evaluation → Prop}
    (then_ : ∀ inner t, (∀ ctx, Finishes setting t (evaluate inner ctx) fun _ s' =>
      Sane setting sheet s') → Finishes setting t (next inner) ok) :
    Finishes setting s (enterBlock env e.site rules e.nesting >>= next) ok := by
  rw [enterBlock_bind]
  refine openBlock_finishes e.nesting env.push ready.toRunning
    (ready.placed rules (Rule.block?_of_evaluatedBlock? block)) fun id t running same inside lower => ?_
  have below := ready.lower
  rw [Entry.height_of_block block] at below
  have remaining : remainingHeight setting sheet t = remainingHeight setting sheet s := by
    simp only [remainingHeight, same]
  refine then_ (env.push id) t fun ctx => evaluates _ ctx id t rfl running ⟨inside, ?_, ?_⟩
  · simp only [blockHeight] at below
    omega
  · intro e' member
    have := lower e' member
    omega

omit evaluates keeps in
theorem evaluatePrelude_sanely (env : Environment) (span : Span) (prelude : Option Value)
    (sane : Sane setting sheet s) :
    Finishes setting s (evaluatePrelude env span prelude) fun _ s' => Sane setting sheet s' := by
  cases prelude with
  | none => exact .pure sane
  | some v =>
    exact .bind ((value_sanely env v sane).locatedAt _) fun _ _ sane' => .pure sane'

omit evaluates keeps in
theorem effectiveSelectors_sanely (ancestors selectors : List Selector) (span : Span)
    (sane : Sane setting sheet s) :
    Finishes setting s (effectiveSelectors ancestors selectors span) fun _ s' =>
      Sane setting sheet s' := by
  refine .ofSetting ?_
  dsimp only
  split
  · exact .fail nofun
  · split
    · exact .pure sane
    · exact Ends.seq (emit_sanely _ sane) fun _ _ sane' => Ends.pure sane'

omit keeps in
theorem evaluateRuleset_finishes (env : Environment) (ctx : Context)
    (isRuleset : e.rule = .ruleset selectors rules span) (ready : Ready setting sheet (n + 1) e s) :
    Finishes setting s (evaluateRuleset evaluate env ctx e selectors rules span) fun _ s' =>
      Sane setting sheet s' := by
  have block : e.rule.evaluatedBlock? = some rules := by rw [isRuleset]; rfl
  refine .bind ((effectiveSelectors_sanely _ _ _ ready.sane).keeping
    (effectiveSelectors_local _ _ _)) ?_
  rintro effective t ⟨sane, moved⟩
  refine Finishes.mapFailure_bind (fun _ => rfl) (enterBlock_finishes evaluates block
    (ready_of_local ready sane moved) fun inner u finishes => ?_)
  exact .bind ((finishes _).insideOf _) fun _ _ sane' => .pure sane'

omit keeps in
theorem evaluateMedia_finishes (env : Environment) (ctx : Context)
    (isMedia : e.rule = .media features rules span) (ready : Ready setting sheet (n + 1) e s) :
    Finishes setting s (evaluateMedia evaluate env ctx e features rules span) fun _ s' =>
      Sane setting sheet s' := by
  have block : e.rule.evaluatedBlock? = some rules := by rw [isMedia]; rfl
  refine .bind (((value_sanely env features ready.sane).locatedAt span).keeping
    ((value_local none env features).locatedAt span)) ?_
  rintro own t ⟨sane, moved⟩
  refine enterBlock_finishes evaluates block (ready_of_local ready sane moved)
    fun inner u finishes => ?_
  exact .bind (finishes _) fun _ _ sane' => .pure sane'

omit keeps in
theorem evaluateAtBlock_finishes (env : Environment) (ctx : Context)
    (isAtBlock : e.rule = .atBlock name prelude rules span)
    (ready : Ready setting sheet (n + 1) e s) :
    Finishes setting s (evaluateAtBlock evaluate env ctx e name prelude rules span) fun _ s' =>
      Sane setting sheet s' := by
  have block : e.rule.evaluatedBlock? = some rules := by rw [isAtBlock]; rfl
  refine .bind ((evaluatePrelude_sanely env span prelude ready.sane).keeping
    (evaluatePrelude_local env span prelude)) ?_
  rintro evaluated t ⟨sane, moved⟩
  refine enterBlock_finishes evaluates block (ready_of_local ready sane moved)
    fun inner u finishes => ?_
  exact .bind ((finishes _).insideOf _) fun _ _ sane' => .pure sane'

omit keeps in
theorem evaluateRule_finishes (env : Environment) (ctx : Context) (e : Entry)
    (ready : Ready setting sheet (n + 1) e s) :
    Finishes setting s (evaluateRule evaluate env ctx e) fun _ s' => Sane setting sheet s' := by
  have sane := ready.sane
  unfold evaluateRule
  split
  · rename_i d _
    have valued : Finishes setting { s with span := d.span } (value env d.value) fun _ s' =>
        Sane setting sheet s' := value_sanely env d.value (sane.congr rfl rfl)
    exact Ends.change (Ends.seq (valued.locatedAt _) fun _ _ sane' => Ends.pure sane')
  · rename_i d _
    have begun : Sane setting sheet { s with span := d.span } := sane.congr rfl rfl
    have valued := (Freshly.calls.dereference env ⟨d, e.site⟩).sanely begun
      (dereference_upholds env _ begun trivial)
    exact Ends.change (Ends.seq (valued.locatedAt _) fun _ _ both => Ends.pure both.1)
  · exact evaluateRuleset_finishes evaluates env ctx ‹_› ready
  · exact .pure sane
  · exact .pure sane
  · exact .bind ((value_sanely env _ sane).locatedAt _) fun _ _ sane' =>
      .bind (evaluatePrelude_sanely env _ _ sane') fun _ _ sane'' => .pure sane''
  · exact evaluateMedia_finishes evaluates env ctx ‹_› ready
  · exact .bind (evaluatePrelude_sanely env _ _ sane) fun _ _ sane' => .pure sane'
  · exact evaluateAtBlock_finishes evaluates env ctx ‹_› ready

theorem evaluateEntries_finishes (env : Environment) (ctx : Context) (es : List Entry)
    (expansions : List Output) (sane : Sane setting sheet s)
    (ready : ∀ e ∈ es, Ready setting sheet (n + 1) e s) :
    Finishes setting s (evaluateEntries evaluate env ctx es expansions) fun _ s' =>
      Sane setting sheet s' := by
  induction es generalizing expansions s with
  | nil => exact .pure sane
  | cons e es ih =>
    unfold evaluateEntries
    split
    · refine .bind (ih _ sane fun e' later => ready e' (List.mem_cons_of_mem _ later)) ?_
      exact fun _ _ sane' => .pure sane'
    · refine .bind ((evaluateRule_finishes evaluates env ctx e
        (ready e List.mem_cons_self)).keeping (evaluateRule_local keeps env ctx e)) ?_
      rintro own t ⟨sane', moved⟩
      refine .bind (ih _ sane' fun e' later => ?_) fun _ _ sane'' => .pure sane''
      exact ready_of_local (ready e' (List.mem_cons_of_mem _ later)) sane' moved

theorem blockWith_finishes : EvaluatesWithin setting sheet (n + 1) (blockWith evaluate) := by
  intro env ctx id s innermost running fits
  unfold blockWith
  rw [innermost]
  refine .ofState ?_
  refine Ends.seq ((expandCalls_finishes keeps evaluates env ctx _ running fits.room).keeping
    (expandCalls_local keeps env ctx _)) ?_
  rintro expansions t ⟨sane, moved⟩
  have running' := running_of_local running sane moved
  refine .ofState (evaluateEntries_finishes keeps evaluates env ctx _ expansions sane
    fun e member => ⟨running', sane.known id e member, ?_⟩)
  -- What the calls have exported is not evaluated, and the other rules are those of before.
  obtain ⟨-, exported, entries, exports⟩ := moved.own id fits.inside innermost
  rw [remainingHeight_eq_of_restored moved.restored]
  rw [entries] at member
  rcases List.mem_append.mp member with new | old
  · rw [Entry.height_of_none (Rule.evaluatedBlock?_of_isExport (exports e new).1)]
    exact fits.room
  · exact fits.lower e old

end Blocks

theorem blockWithin_finishes (n : Nat) : EvaluatesWithin setting sheet n (blockWithin n) := by
  induction n with
  | zero =>
    intro env ctx id s _ _ fits
    exact absurd fits.room (Nat.not_lt_zero _)
  | succ n ih => exact blockWith_finishes (blockWithin_local n) ih

end Eval

/-! ## Compilation -/

namespace Compiler

open Eval (Finishes)

theorem fits_nestingBound {id : FrameId} (sane : Sane setting sheet s) (expanding : s.expanding = [])
    (inside : id < s.frames.size) :
    Fits setting sheet (nestingBound setting.options (ruleBound setting.loader sheet)) id s := by
  have bound : nestingBound setting.options (ruleBound setting.loader sheet) =
      remainingHeight setting sheet s + levelHeight setting sheet + 1 := by
    simp only [nestingBound, remainingHeight, levelHeight, expanding, List.length_nil, Nat.sub_zero]
    rw [Nat.mul_assoc, Nat.add_mul, Nat.one_mul]
  refine ⟨inside, by omega, fun e member => ?_⟩
  cases block : e.rule.evaluatedBlock? with
  | none =>
    rw [Entry.height_of_none block]
    omega
  | some rules =>
    rw [Entry.height_of_block block]
    have known := sane.known id e member rules (Rule.block?_of_evaluatedBlock? block)
    have : blockHeight setting sheet e.nesting rules + 1 < levelHeight setting sheet :=
      blockHeight_lt_levelHeight (sane.sizes_lt known)
    omega

theorem registerSheet_finishes (sane : Sane setting sheet s) :
    Finishes setting s (registerSheet sheet) fun _ s' => Sane setting sheet s' ∧
      s'.importer.deferred = s.importer.deferred ∧ s'.expanding = s.expanding := by
  unfold registerSheet
  split
  · refine .ofSetting ?_
    split
    · exact ⟨sane.congr rfl rfl, rfl, rfl⟩
    · exact ⟨sane.congr rfl rfl, rfl, rfl⟩
  · exact .pure ⟨sane, rfl, rfl⟩

theorem start_sane : Sane setting sheet {} where
  holds := ⟨List.nodup_nil, nofun⟩
  frames _ := .empty _
  span := .inl rfl

theorem openSheet_finishes (sane : Sane setting sheet s) (queue : s.importer.deferred = [])
    (expanding : s.expanding = []) :
    Finishes setting s (openSheet sheet) fun env s' => Sane setting sheet s' ∧ s'.expanding = [] ∧
      ∃ id < s'.frames.size, env.innermost? = some id := by
  have admits : Admits setting sheet 0 fun _ => True := ⟨fun _ _ _ => trivial, fun _ _ _ _ _ => trivial⟩
  let width := 2 * ruleBound setting.loader sheet + 2
  have wide : ruleBound setting.loader sheet < width := by simp only [width]; omega
  refine .bind (registerSheet_finishes sane) ?_
  rintro _ t ⟨sane, sameQueue, sameExpanding⟩
  let added : Evaluation :=
    { t with frames := (t.frames.add (Frame.ofBlock (.written 0 []) sheet.rules 0)).2 }
  have frame : added.frames.get t.frames.size = Frame.ofBlock (.written 0 []) sheet.rules 0 :=
    Frames.get_add_self _ _
  have entered : Finishes setting t (addFrame (Frame.ofBlock (.written 0 []) sheet.rules 0))
      fun id u => id = t.frames.size ∧ u = added := ⟨rfl, rfl⟩
  refine .bind entered ?_
  rintro root u ⟨rfl, rfl⟩
  have addedSane : Sane setting sheet added :=
    sane.addBlock (List.mem_append_left _ List.mem_cons_self) 0
  have hosts : ∀ v : Evaluation, v.frames = added.frames → v.importer.cache = added.importer.cache →
      v.importer.nesting = (added.frames.get t.frames.size).base + added.importer.openImports →
        Hosts setting sheet t.frames.size 0 (fun _ => True) v := by
    intro v frames cache _
    refine ⟨addedSane.congr frames cache, ?_, fun _ _ => trivial, Nat.zero_le _⟩
    rw [frames]
    simp [added]
  refine .ofSetting ?_
  have expanded := (expandImports_within admits wide { frames := [t.frames.size] } true
    hosts).keeping (expandImports_splices t.frames.size _ true)
  refine Ends.seq expanded ?_
  rintro _ v ⟨⟨sane', -, weight⟩, splices⟩
  have inside : t.frames.size < v.frames.size := by
    rw [splices.size]
    simp [added]
  -- The root has no more rules than the sheet, so its queue is lighter than the last power allows.
  have light : weightOf setting width v < width ^ (setting.options.maxImportDepth + 2) := by
    have empty : weightOf setting width added = 0 := by
      simp [weightOf, added, sameQueue, queue]
    rw [frame, empty, Nat.zero_add] at weight
    have few : (Frame.ofBlock (.written 0 []) sheet.rules 0).size < width := by
      have := Rule.length_le_sizes sheet.rules
      simp only [← Frame.length_entries, Frame.entries_ofBlock, Placed.ofBlock, List.length_map,
        List.length_mapIdx, width, ruleBound]
      omega
    calc weightOf setting width v
        ≤ _ * width ^ setting.options.maxImportDepth := weight
      _ < width * width ^ setting.options.maxImportDepth :=
          Nat.mul_lt_mul_of_pos_right few (Nat.pow_pos (by omega))
      _ = width ^ (setting.options.maxImportDepth + 1) := (Nat.pow_succ').symm
      _ ≤ width ^ (setting.options.maxImportDepth + 2) := Nat.pow_le_pow_right (by omega) (by omega)
  have replayed := (replayDeferred_within admits wide
    ⟨sane', inside, fun _ _ => trivial, Nat.zero_le _⟩ light).keeping
      (replayDeferred_splices t.frames.size width)
  refine .seq replayed ?_
  rintro _ w ⟨hosts', splices'⟩
  refine .pure ⟨hosts'.sane, ?_, t.frames.size, hosts'.inside, rfl⟩
  rw [expanding_eq_of_restored splices'.restored, expanding_eq_of_restored splices.restored]
  exact sameExpanding.trans expanding

theorem resolveSheet_finishes : Finishes setting {} (resolveSheet sheet) fun _ _ => True := by
  refine .bind (openSheet_finishes start_sane rfl rfl) ?_
  rintro env t ⟨sane, expanding, id, inside, innermost⟩
  have running : Running setting sheet t := by
    refine ⟨sane, ?_, ?_⟩
    · rw [expanding]
      exact nofun
    · rw [expanding]
      exact nofun
  refine Eval.Ends.ofSetting (Eval.Ends.ofSetting ?_)
  exact Ends.seq (blockWithin_finishes _ env {} id t innermost running
    (fits_nestingBound sane expanding inside)) fun _ _ _ => trivial

end Compiler

/-- Every compilation comes to an end: with a result, or with a failure that is not for lack of
    levels, definitions or passes. The bounds that the evaluation is given never run out, whatever
    the sheet, the files, the functions and the limits are. -/
theorem compilation_comes_to_an_end (setting : Setting) (sheet : Stylesheet) :
    (∃ result, (compile setting sheet).outcome = .ok result) ∨
      ∃ failure, (compile setting sheet).outcome = .error failure ∧
        failure.cause ≠ .exhausted := by
  have finishes := @Compiler.resolveSheet_finishes setting sheet
  unfold compile compileFrom run
  rcases run : resolveSheet sheet setting {} with ⟨failure | rules, s⟩
  · right
    have different := Eval.Ends.failure finishes run
    refine ⟨nameFile sheet s.importer failure, ?_, different⟩
    simp only [reportOn]
  · left
    simp only [reportOn]
    exact ⟨_, rfl⟩

end StyleResolution
