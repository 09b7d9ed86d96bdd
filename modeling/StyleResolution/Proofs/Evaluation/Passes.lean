import StyleResolution.Proofs.Coupling.Blocks

/-! # The two passes over a block

The calls of a block are expanded in a first pass over its rules, and their expansions are kept in
order. A second pass evaluates the rules and takes the next expansion for each call. In between, the
expansions have exported definitions to the frame of the block, so the second pass goes over other
rules than the first one. All that is exported stands in front, though, is no call and contributes
nothing, so each expansion takes the place of its call.
-/

namespace StyleResolution

open Eval

namespace Entry

def isCall (e : Entry) : Bool :=
  e.rule.isCall

variable {e : Entry}

theorem isCall_eq_true : e.isCall = true ↔ ∃ c, e.rule = .call c := by
  unfold isCall
  cases e.rule <;> simp [Rule.isCall]

theorem isCall_eq_false : e.isCall = false ↔ ∀ c, e.rule ≠ .call c := by
  unfold isCall
  cases e.rule <;> simp [Rule.isCall]

theorem isCall_of_isExport (exported : e.rule.isExport = true) : e.isCall = false := by
  unfold isCall
  cases rule : e.rule <;> simp [rule, Rule.isExport, Rule.isCall] at exported ⊢

end Entry

/-- A rule of a block and what it contributes to the output of the block. -/
structure Share where
  entry : Entry
  output : Output

def Share.isCall (share : Share) : Bool :=
  share.entry.isCall

namespace Eval

variable {α β : Type} {setting : Setting} {s : Evaluation} {evaluate : BlockEvaluator}
  {env : Environment} {ctx : Context}

/-! ## The first pass -/

def expandCall (evaluate : BlockEvaluator) (env : Environment) (ctx : Context) (e : Entry) :
    Eval Output :=
  match e.rule with
  | .call c => do
    noteCalling e.site c env
    callMixin evaluate env ctx e.nesting c
  | _ => pure {}

theorem expandCalls_eq_mapList (evaluate : BlockEvaluator) (env : Environment) (ctx : Context)
    (es : List Entry) :
    expandCalls evaluate env ctx es =
      mapList (expandCall evaluate env ctx) (es.filter Entry.isCall) := by
  induction es with
  | nil => rfl
  | cons e es ih =>
    cases called : e.isCall with
    | true =>
      obtain ⟨c, rule⟩ := Entry.isCall_eq_true.mp called
      rw [expandCalls_call rule, List.filter_cons_of_pos called, mapList, ih, expandCall, rule]
      simp only [bind_assoc]
    | false =>
      rw [expandCalls_other (Entry.isCall_eq_false.mp called), ih,
        List.filter_cons_of_neg (by simp [called])]

theorem mapList_append (f : α → Eval β) (as bs : List α) :
    mapList f (as ++ bs) = mapList f as >>= fun first =>
      mapList f bs >>= fun second => pure (first ++ second) := by
  induction as with
  | nil => simp [mapList]
  | cons a as ih => simp [mapList, ih, bind_assoc]

theorem length_of_mapList (run : mapList f as setting s = (.ok bs, t)) : bs.length = as.length := by
  have ends : Ends setting s (mapList f as) (fun bs _ => bs.length = as.length)
      fun _ _ => True := by
    clear run
    induction as generalizing s with
    | nil => exact .pure rfl
    | cons a as ih =>
      refine Ends.bind_of_run (fun b u _ => ?_) fun _ _ _ => trivial
      apply Ends.seq ih ?_
      exact fun bs _ length => Ends.pure (by simp [length])
  exact ends.result run

/-- After the first pass the frame of the block has its own rules, behind exported ones. -/
theorem expandCalls_frame
    (evaluates : ∀ env ctx, KeepsLocal setting env.innermost? (evaluate env ctx))
    (env : Environment) (id : FrameId) (ctx : Context) (s : Evaluation) :
    let own := (s.frames.get id).entries
    let mid := (expandCalls evaluate (env.push id) ctx own setting s).2
    ∃ exported, (mid.frames.get id).entries = exported ++ own ∧
      ∀ e ∈ exported, e.rule.isExport = true := by
  intro own mid
  by_cases inside : id < s.frames.size
  · have grown := (expandCalls_local evaluates (env.push id) ctx own s).own id inside rfl
    obtain ⟨-, exported, entries, exports⟩ := grown
    exact ⟨exported, entries, fun e member => (exports e member).1⟩
  · -- a frame that does not exist has no rules, so there is nothing to expand
    have none : own = [] := by
      simp only [own, Frames.get_of_size_le (Nat.le_of_not_lt inside), Frame.entries_empty]
    have same : mid = s := by
      simp only [mid, none, expandCalls]
      rfl
    exact ⟨[], by rw [same, List.nil_append], by simp⟩

/-! ## The second pass -/

theorem evaluateEntries_shares (es : List Entry) (expansions : List Output)
    (enough : expansions.length = (es.filter Entry.isCall).length) (s : Evaluation) :
    Ends setting s (evaluateEntries evaluate env ctx es expansions)
      (fun o t => ∃ shares : List Share, shares.map Share.entry = es ∧
        (shares.filter Share.isCall).map Share.output = expansions ∧
        mapList (evaluateRule evaluate env ctx) (es.filter (!·.isCall)) setting s =
          (.ok ((shares.filter (!·.isCall)).map Share.output), t) ∧
        o.declarations = shares.flatMap (·.output.declarations) ∧
        o.rules = shares.flatMap (·.output.rules))
      fun _ _ => True := by
  induction es generalizing expansions s with
  | nil =>
    cases List.eq_nil_of_length_eq_zero enough
    exact .pure ⟨[], rfl, rfl, rfl, rfl, rfl⟩
  | cons e es ih =>
    cases called : e.isCall with
    | true =>
      obtain ⟨c, rule⟩ := Entry.isCall_eq_true.mp called
      simp only [List.filter_cons_of_pos called, List.length_cons] at enough
      obtain ⟨expansion, later, rfl⟩ := List.exists_cons_of_length_eq_add_one enough
      simp only [List.length_cons, Nat.add_right_cancel_iff] at enough
      rw [evaluateEntries_call rule]
      apply Ends.seq (ih later enough s) ?_
      rintro o t ⟨shares, entries, expanded, others, declarations, rules⟩
      refine Ends.pure ⟨⟨e, expansion⟩ :: shares, ?_, ?_, ?_, ?_, ?_⟩
      · rw [List.map_cons, entries]
      · simp [Share.isCall, called, expanded]
      · simpa [Share.isCall, called] using others
      · rw [List.flatMap_cons, ← declarations]
        rfl
      · rw [List.flatMap_cons, ← rules]
        rfl
    | false =>
      rw [List.filter_cons_of_neg (by simp [called])] at enough
      rw [evaluateEntries_other (Entry.isCall_eq_false.mp called)]
      refine Ends.bind_of_run (fun own u ran => ?_) fun _ _ _ => trivial
      apply Ends.seq (ih expansions enough u) ?_
      rintro o t ⟨shares, entries, expanded, others, declarations, rules⟩
      refine Ends.pure ⟨⟨e, own⟩ :: shares, ?_, ?_, ?_, ?_, ?_⟩
      · rw [List.map_cons, entries]
      · simpa [Share.isCall, called] using expanded
      · have first : (e :: es).filter (!·.isCall) = e :: es.filter (!·.isCall) := by
          simp [called]
        rw [first, mapList, bind_of_ok ran, bind_of_ok others]
        simp [Share.isCall, called]
      · rw [List.flatMap_cons, ← declarations]
        rfl
      · rw [List.flatMap_cons, ← rules]
        rfl

theorem evaluateRule_export (exported : e.rule.isExport = true) (s : Evaluation) :
    Ends setting s (evaluateRule evaluate env ctx e) (fun o _ => o = {}) fun _ _ => True := by
  unfold evaluateRule
  cases rule : e.rule with
  | «variable» d =>
    refine .bind_of_run (fun _ _ _ => ?_) fun _ _ _ => trivial
    exact .bind_of_run (fun _ _ _ => .pure rfl) fun _ _ _ => trivial
  | mixin => exact .pure rfl
  | declaration | ruleset | call | fileImport | media | atStatement | atBlock =>
    simp [rule, Rule.isExport] at exported

theorem evaluateEntries_exported (exports : ∀ e ∈ exported, e.rule.isExport = true)
    (expansions : List Output) (s : Evaluation) :
    Ends setting s (evaluateEntries evaluate env ctx exported expansions)
      (fun o t => o = {} ∧ mapList (evaluateRule evaluate env ctx) exported setting s =
        (.ok (exported.map fun _ => {}), t))
      fun _ _ => True := by
  induction exported generalizing s with
  | nil => exact .pure ⟨rfl, rfl⟩
  | cons e es ih =>
    simp only [List.forall_mem_cons] at exports
    rw [evaluateEntries_other (Entry.isCall_eq_false.mp (Entry.isCall_of_isExport exports.1))]
    refine .bind_of_run (fun own u ran => ?_) fun _ _ _ => trivial
    obtain rfl := (evaluateRule_export exports.1 s).result ran
    apply Ends.seq (ih exports.2 u) ?_
    rintro o t ⟨rfl, others⟩
    refine Ends.pure ⟨rfl, ?_⟩
    rw [mapList, bind_of_ok ran, bind_of_ok others]
    rfl

end Eval

/-- The first pass over a block puts nothing but definitions in front of its rules, whether it
    fails or not, so both passes meet the same calls. If the block has an output, the first pass
    made one expansion for each call in order, and the output is made of the shares of the block's
    own rules in order: the expansions are the shares of the calls, and the shares of the others are
    what they were evaluated to. -/
theorem expansions_take_the_places_of_calls (setting : Setting) (s : Evaluation)
    (env : Environment) (id : FrameId) (ctx : Context) (n : Nat) :
    let inner := env.push id
    let own := (s.frames.get id).entries
    let calls := own.filter Entry.isCall
    (∀ outcome mid,
      expandCalls (blockWithin n) inner ctx own setting s = (outcome, mid) →
      ∃ exported, (mid.frames.get id).entries = exported ++ own ∧
        (∀ e ∈ exported, e.rule.isExport = true) ∧
        (mid.frames.get id).entries.filter Entry.isCall = calls) ∧
    ∀ o t, blockWithin (n + 1) inner ctx setting s = (.ok o, t) →
      ∃ expansions mid exported, ∃ shares : List Share,
        expandCalls (blockWithin n) inner ctx own setting s = (.ok expansions, mid) ∧
        mapList (expandCall (blockWithin n) inner ctx) calls setting s =
          (.ok expansions, mid) ∧
        (mid.frames.get id).entries = exported ++ own ∧
        shares.map Share.entry = own ∧
        (shares.filter Share.isCall).map Share.output = expansions ∧
        mapList (evaluateRule (blockWithin n) inner ctx)
          (exported ++ own.filter (!·.isCall)) setting mid =
          (.ok (exported.map (fun _ => ({} : Output)) ++
            (shares.filter (!·.isCall)).map Share.output), t) ∧
        o.declarations = shares.flatMap (·.output.declarations) ∧
        o.rules = shares.flatMap (·.output.rules) := by
  intro inner own calls
  have evaluates : ∀ env ctx, Eval.KeepsLocal setting env.innermost? (blockWithin n env ctx) :=
    blockWithin_local n
  have grows := expandCalls_frame evaluates env id ctx s
  have uncalled : ∀ {exported : List Entry}, (∀ e ∈ exported, e.rule.isExport = true) →
      exported.filter Entry.isCall = [] := by
    intro exported exports
    rw [List.filter_eq_nil_iff]
    intro e member
    simp [Entry.isCall_of_isExport (exports e member)]
  refine ⟨fun outcome mid run => ?_, fun o t run => ?_⟩
  · obtain ⟨exported, entries, exports⟩ := grows
    rw [run] at entries
    refine ⟨exported, entries, exports, ?_⟩
    rw [entries, List.filter_append, uncalled exports, List.nil_append]
  · rw [blockWithin_succ rfl] at run
    have passes : (expandCalls (blockWithin n) inner ctx own >>= fun expansions =>
        frame id >>= fun f => evaluateEntries (blockWithin n) inner ctx f.entries
          expansions) setting s = (.ok o, t) := run
    obtain ⟨expansions, mid, first, second⟩ := bind_eq_ok passes
    have expanded := first
    rw [expandCalls_eq_mapList] at expanded
    obtain ⟨exported, entries, exports⟩ := grows
    rw [first] at entries
    have evaluated : evaluateEntries (blockWithin n) inner ctx (exported ++ own)
        expansions setting mid = (.ok o, t) := by
      rw [← entries]
      exact second
    rw [evaluateEntries_append fun e member =>
      Entry.isCall_eq_false.mp (Entry.isCall_of_isExport (exports e member))] at evaluated
    obtain ⟨nothing, u, front, behind⟩ := bind_eq_ok evaluated
    obtain ⟨rfl, ofExported⟩ := (evaluateEntries_exported exports expansions mid).result front
    obtain ⟨rest, v, back, last⟩ := bind_eq_ok behind
    obtain ⟨shares, shared, ofCalls, ofOthers, declarations, rules⟩ :=
      (evaluateEntries_shares own expansions (length_of_mapList expanded) u).result back
    rw [Output.empty_append] at last
    cases last
    refine ⟨expansions, mid, exported, shares, first, expanded, entries, shared, ofCalls, ?_,
      declarations, rules⟩
    rw [mapList_append, bind_of_ok ofExported, bind_of_ok ofOthers]
    rfl

/-- Two mixins, the first of which exports a definition, and between their calls a declaration that
    uses it. -/
def exportingCalls : Evaluation :=
  { frames := ⟨#[Frame.ofBlock (.written 0 [])
      [.mixin ⟨".one", [], none, Span.none⟩
          [.variable ⟨"x", .keyword "k", Span.none⟩,
            .declaration ⟨"a", .variable "x", false, Span.none⟩],
        .mixin ⟨".two", [], none, Span.none⟩ [.declaration ⟨"b", .keyword "k", false, Span.none⟩],
        .call ⟨[".two"], [], false, Span.none⟩,
        .declaration ⟨"c", .variable "x", false, Span.none⟩,
        .call ⟨[".one"], [], false, Span.none⟩] 0]⟩ }

def exportingCallsRun : Except Failure Output × Evaluation :=
  blockWithin 2 (Environment.push {} 0) {} {} exportingCalls

theorem exportingCallsRun_declarations :
    exportingCallsRun.1.toOption.map (·.declarations.map (·.property)) =
      some ["b", "c", "a"] := by
  decide +kernel

theorem exportingCalls_share_the_output :
    ∃ o t, exportingCallsRun = (.ok o, t) ∧ o.declarations.map (·.property) = ["b", "c", "a"] ∧
      ∃ (expansions : List Output) (shares : List Share), expansions.length = 2 ∧
        shares.map Share.entry = (exportingCalls.frames.get 0).entries ∧
        (shares.filter Share.isCall).map Share.output = expansions ∧
        o.declarations = shares.flatMap (·.output.declarations) := by
  have properties := exportingCallsRun_declarations
  obtain ⟨-, shared⟩ := expansions_take_the_places_of_calls {} exportingCalls {} 0 {} 1
  rcases run : exportingCallsRun with ⟨f | o, t⟩
  · simp [run, Except.toOption] at properties
  · obtain ⟨expansions, mid, exported, shares, -, expanded, -, entries, ofCalls, -, declarations,
      -⟩ := shared o t run
    refine ⟨o, t, rfl, ?_, expansions, shares, ?_, entries, ofCalls, declarations⟩
    · simpa [run, Except.toOption] using properties
    · exact (length_of_mapList expanded).trans (by decide)

end StyleResolution
