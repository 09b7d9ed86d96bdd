import StyleResolution.Proofs.Import.Search
import StyleResolution.Proofs.Regime.Upholding

/-! # Regimes hold to the end of a compilation

Every rule that comes into scope while a sheet is resolved stands in the sheet, in an imported file,
or in the block of such a rule. So what opening an import upholds is upheld by every step, and by
the compilation of a sheet as a whole.
-/

namespace StyleResolution

open Regime

variable {setting : Setting} {R : Regime setting} {m : Bool} {s : Evaluation}

variable (R) in
def Regime.Offers (i : Importer) (c : Callable) : Prop :=
  ∃ p, R.rule i p ∧ p.asCallable = some c

theorem Regime.Offers.mono (offers : R.Offers i c) (grows : i.Grows j) : R.Offers j c :=
  offers.imp fun _ both => ⟨R.mono both.1 grows, both.2⟩

theorem Regime.Offers.block (offers : R.Offers i c) : R.Block i c.site c.rules := by
  obtain ⟨⟨r, site⟩, rule, isCallable⟩ := offers
  unfold Placed.asCallable at isCallable
  cases r with
  | mixin head rules =>
    cases isCallable
    exact R.block rule rfl
  | ruleset selectors rules span =>
    dsimp only at isCallable
    split at isCallable <;> cases isCallable
    exact R.block rule rfl
  | _ => cases isCallable

namespace Eval

variable {α : Type}

variable (R) in
def FindsUnder (m : Bool) (s : Evaluation) (callable : α → Callable) (x : Eval (List α)) : Prop :=
  R.Upholds m s x fun found s' =>
    ∀ a ∈ found, R.Offers s'.importer (callable a)

/-! ## Finding callables -/

theorem offers_of_named (named : ∃ f, R.Governs i f ∧ index = f.names)
    (member : c ∈ index.callablesNamed name) : R.Offers i c := by
  obtain ⟨f, governs, rfl⟩ := named
  obtain ⟨e, inside, isCallable⟩ := governs.fresh.callable_mem member
  exact ⟨e.toPlaced, governs.rules e inside, isCallable⟩

theorem searchNamespaces_upholds
    (finds : ∀ {t}, R.Orderly t → ∀ id, FindsUnder R m t Reached.callable (search id)) (f : Frame)
    (cs : List Callable) (orderly : R.Orderly s)
    (under : ∀ c ∈ cs, R.Offers s.importer c) :
    FindsUnder R m s Reached.callable (searchNamespaces search f cs) := by
  induction cs generalizing s with
  | nil => exact .pure orderly (by simp)
  | cons c cs ih =>
    apply Upholds.bind (.addFrame orderly (.ofBlock (under c List.mem_cons_self).block 0))
    intro inner t orderly grows _
    apply Upholds.bind (finds orderly inner)
    intro found u orderly grows' foundUnder
    have rest : ∀ d ∈ cs, R.Offers u.importer d := fun d later =>
      (under d (List.mem_cons_of_mem _ later)).mono (grows.trans grows')
    apply Upholds.bind (ih orderly rest)
    intro others v orderly grows othersUnder
    refine .pure orderly fun a member => ?_
    cases List.mem_append.mp member with
    | inl first =>
      obtain ⟨r, inside, rfl⟩ := List.mem_map.mp first
      exact (foundUnder r inside).mono grows
    | inr later => exact othersUnder a later

theorem searchFrame_upholds : ∀ (path : List String) {s : Evaluation}, R.Orderly s →
    ∀ id, FindsUnder R m s Reached.callable (searchFrame path id)
  | [], _, orderly, _ => .pure orderly (by simp)
  | [_], _, orderly, id => by
      apply Upholds.bind (consult_upholds orderly id)
      intro index t orderly _ under
      refine Upholds.ofState (.pure orderly fun r member => ?_)
      obtain ⟨c, inside, rfl⟩ := List.mem_map.mp member
      exact offers_of_named under inside
  | _ :: next :: rest, _, orderly, id => by
      apply Upholds.bind (consult_upholds orderly id)
      intro index t orderly _ under
      apply Upholds.ofState
      apply searchNamespaces_upholds (searchFrame_upholds (next :: rest)) _ _ orderly
      exact fun c member => offers_of_named under (List.mem_filter.mp member).1

theorem searchStack_upholds (path : List String) (captured : List (List FrameId))
    (stack : List FrameId) (orderly : R.Orderly s) :
    FindsUnder R m s Candidate.callable (searchStack path captured stack) := by
  induction stack generalizing s with
  | nil => exact .pure orderly (by simp)
  | cons id outer ih =>
    apply Upholds.bind (searchFrame_upholds path orderly id)
    intro found t orderly _ under
    split
    · exact ih orderly
    · refine .pure orderly fun candidate member => ?_
      obtain ⟨r, inside, rfl⟩ := List.mem_map.mp member
      exact under r inside

theorem findCandidates_upholds (env : Environment) (path : List String) (orderly : R.Orderly s) :
    FindsUnder R m s Candidate.callable (findCandidates env path) := by
  unfold findCandidates
  induction env.allStacks generalizing s with
  | nil => exact .pure orderly (by simp)
  | cons stack captured ih =>
    apply Upholds.bind (searchStack_upholds path captured stack orderly)
    intro found t orderly _ under
    split
    · exact ih orderly
    · exact .pure orderly under

/-! ## Matching candidates -/

theorem define_upholds (orderly : R.Orderly s) (id : FrameId) (name : String) (v : Value)
    (known : R.known s.importer span) : R.Upholds m s (define id name v span) fun _ _ => True := by
  have made : R.Upholds m s makeSite fun _ _ => True :=
    ⟨orderly.congr ⟨rfl, rfl, rfl, rfl⟩, .rfl, trivial⟩
  apply Upholds.bind made
  intro site t orderly grows _
  refine .changeFrame orderly fun governs => governs.spliceAt (fun p member => ?_) ..
  rw [List.mem_singleton.mp member]
  exact R.definition site (R.knownLater known grows)

theorem defineParams_upholds (orderly : R.Orderly s) (params : FrameId) (scope caller : Environment)
    (known : R.known s.importer span) (bindings : List (String × Mixin.Bound)) :
    R.Upholds false s (defineParams params scope caller span bindings) fun _ _ => True := by
  induction bindings generalizing s with
  | nil => exact .pure orderly trivial
  | cons binding rest ih =>
    obtain ⟨name, bound⟩ := binding
    have evaluates : R.Sound false (boundValue params scope caller bound) := by
      cases bound with
      | supplied v => exact fun orderly => .pure orderly trivial
      | fallback v => exact values_upholds.value _ v
    apply Upholds.bind (evaluates orderly)
    intro v t orderly grows _
    have known := R.knownLater known grows
    apply Upholds.bind (define_upholds orderly params name v known)
    exact fun _ _ orderly grows _ => ih orderly (R.knownLater known grows)

theorem parameterFrame_upholds (orderly : R.Orderly s) (binding : Mixin.Binding)
    (scope caller : Environment) (known : R.known s.importer span) :
    R.Upholds false s (parameterFrame binding scope caller span) fun _ _ => True := by
  apply Upholds.bind (.addFrame orderly (.empty _))
  intro params t orderly grows _
  have known := R.knownLater known grows
  apply Upholds.bind (defineParams_upholds orderly params scope caller known binding.bindings)
  intro _ u orderly grows _
  apply Upholds.bind (define_upholds orderly params _ _ (R.knownLater known grows))
  exact fun _ _ orderly _ _ => .pure orderly trivial

theorem matchCandidate_upholds (orderly : R.Orderly s) (caller : Environment) (args : List Argument)
    (known : R.known s.importer span) (candidate : Candidate) :
    R.Upholds false s (matchCandidate caller args span candidate) fun outcome _ =>
      ∀ m, outcome = .ok (some m) → m.callable = candidate.callable := by
  unfold matchCandidate
  split
  · apply Upholds.bind (emit_upholds orderly _)
    exact fun _ _ orderly _ _ => .pure orderly (by simp)
  · apply Upholds.bind (parameterFrame_upholds orderly _ _ caller known)
    intro params t orderly _ _
    apply Upholds.bind (defaultGroup_upholds _ _ orderly)
    intro group u orderly _ _
    refine .pure orderly fun m matched => ?_
    cases group <;> cases matched
    rfl

theorem matchCandidates_upholds (caller : Environment) (args : List Argument)
    (candidates : List Candidate) (orderly : R.Orderly s) (known : R.known s.importer span)
    (under : ∀ c ∈ candidates, R.Offers s.importer c.callable) :
    R.Upholds false s (matchCandidates caller args span candidates) fun selection s' =>
      ∀ m ∈ selection.matched, R.Offers s'.importer m.callable := by
  induction candidates generalizing s with
  | nil => exact .pure orderly (by simp)
  | cons candidate rest ih =>
    apply Upholds.bind (matchCandidate_upholds orderly caller args known candidate)
    intro outcome t orderly grows same
    have later : ∀ c ∈ rest, R.Offers t.importer c.callable := fun c member =>
      (under c (List.mem_cons_of_mem _ member)).mono grows
    apply Upholds.bind (ih orderly (R.knownLater known grows) later)
    intro others u orderly grows' othersUnder
    split
    · exact .pure orderly othersUnder
    · exact .pure orderly othersUnder
    · rename_i found
      refine .pure orderly fun m member => ?_
      cases List.mem_cons.mp member with
      | inl isFound =>
        rw [isFound, same _ rfl]
        exact (under candidate List.mem_cons_self).mono (grows.trans grows')
      | inr other => exact othersUnder m other

/-! ## Expanding calls -/

theorem exportsOf_upholds (env : Environment) (es : List Entry) (orderly : R.Orderly s)
    (under : ∀ e ∈ es, R.rule s.importer e.toPlaced) :
    R.Upholds false s (exportsOf env es) fun rules s' => ∀ p ∈ rules, R.rule s'.importer p := by
  induction es generalizing s with
  | nil => exact .pure orderly (by simp)
  | cons e es ih =>
    have first := under e List.mem_cons_self
    unfold exportsOf
    split
    · rename_i d isRule
      have known := R.position first
      rw [isRule] at known
      apply Upholds.bind (dereference_upholds env ⟨d, e.site⟩ orderly known)
      intro v t orderly grows _
      have made : R.Upholds false t makeSite fun _ _ => True :=
        ⟨orderly.congr ⟨rfl, rfl, rfl, rfl⟩, .rfl, trivial⟩
      apply Upholds.bind made
      intro site u orderly grows' _
      apply Upholds.bind (ih orderly (R.restLater under (grows.trans grows')))
      intro others v orderly grows'' othersUnder
      refine .pure orderly fun p member => ?_
      cases List.mem_cons.mp member with
      | inl own =>
        rw [own]
        exact R.definition site (R.knownLater known ((grows.trans grows').trans grows''))
      | inr other => exact othersUnder p other
    · apply Upholds.bind (ih orderly (R.restLater under .rfl))
      intro others t orderly grows othersUnder
      refine .pure orderly fun p member => ?_
      cases List.mem_cons.mp member with
      | inl own =>
        rw [own]
        exact R.mono first grows
      | inr other => exact othersUnder p other
    · exact ih orderly (R.restLater under .rfl)

theorem exportTo_upholds (caller : Option FrameId) (bodyEnv : Environment)
    (params body : FrameId) : R.Sound false (exportTo caller bodyEnv params body) := by
  intro s orderly
  unfold exportTo
  split
  · exact .pure orderly trivial
  · apply Upholds.ofState
    apply Upholds.bind (exportsOf_upholds bodyEnv _ orderly (orderly.frames body).rules)
    intro rules t orderly _ under
    exact Upholds.ofState (.changeFrame orderly fun governs => governs.prependExports under ..)

theorem chosenGroup_upholds (matched : List MatchedCandidate) (call : MixinCall) :
    R.Sound false (chosenGroup matched call) :=
  sound_composes.chosenGroup (fun _ _ _ orderly => .failWith orderly _) matched call

theorem unmatched_upholds (call : MixinCall) (candidates : Nat)
    (failures : List Mixin.MatchFailure) : R.Sound false (unmatched call candidates failures) := by
  intro s orderly
  unfold unmatched
  split
  · exact .failWith orderly _
  · split
    · exact .failWith orderly _
    · apply Upholds.bind (emit_upholds orderly _)
      exact fun _ _ orderly _ _ => .pure orderly trivial

variable (R) in
/-- The evaluator upholds the regime. -/
def EvaluatesUnder (evaluate : BlockEvaluator) : Prop :=
  ∀ env ctx, R.Sound true (evaluate env ctx)

section Blocks

variable {evaluate : BlockEvaluator} (evaluates : EvaluatesUnder R evaluate)

include evaluates

theorem expandBody_upholds (orderly : R.Orderly s) (ctx : Context) (nesting : Nat)
    (caller : Option FrameId) {m : MatchedCandidate}
    (under : R.Offers s.importer m.callable) :
    R.Upholds false s (expandBody evaluate ctx nesting caller m) fun _ _ => True := by
  unfold expandBody
  refine Upholds.ofState (Upholds.ofSetting ?_)
  dsimp only
  split
  · exact .failWith orderly _
  · apply Upholds.bind (Upholds.change orderly ⟨rfl, rfl, rfl, rfl⟩)
    intro _ t orderly grows _
    apply Upholds.bind (emit_upholds orderly _)
    intro _ u orderly grows' _
    have body : R.Upholds false u (evaluateBody evaluate ctx nesting m) fun _ _ => True := by
      apply Upholds.bind (.addFrame orderly (.ofBlock (under.mono (grows.trans grows')).block nesting))
      intro body t orderly _ _
      apply Upholds.bind (expandImports_upholds body _ false orderly).loosen
      intro _ u orderly _ _
      apply Upholds.bind (evaluates _ ctx orderly).loosen
      exact fun _ _ orderly _ _ => .pure orderly trivial
    apply Upholds.bind body
    intro evaluated v orderly _ _
    apply Upholds.bind (exportTo_upholds caller _ _ _ orderly)
    exact fun _ _ orderly _ _ => .pure orderly trivial

theorem expandAll_upholds (ctx : Context) (nesting : Nat) (caller : Option FrameId)
    (ms : List MatchedCandidate) (orderly : R.Orderly s)
    (under : ∀ m ∈ ms, R.Offers s.importer m.callable) :
    R.Upholds false s (expandAll evaluate ctx nesting caller ms) fun _ _ => True := by
  induction ms generalizing s with
  | nil => exact .pure orderly trivial
  | cons m ms ih =>
    have entered : R.Orderly { s with expanding := m.callable.site :: s.expanding } :=
      orderly.congr ⟨rfl, rfl, rfl, rfl⟩
    have expanded : R.Upholds false s (whileExpanding m.callable.site
        (expandBody evaluate ctx nesting caller m)) fun _ _ => True :=
      .between ⟨rfl, rfl, rfl, rfl⟩ (fun _ => ⟨rfl, rfl, rfl, rfl⟩)
        (expandBody_upholds evaluates entered ctx nesting caller (under m List.mem_cons_self))
    apply Upholds.bind expanded
    intro first t orderly grows _
    apply Upholds.bind (ih orderly fun m' later =>
      (under m' (List.mem_cons_of_mem _ later)).mono grows)
    exact fun _ _ orderly _ _ => .pure orderly trivial

theorem resolveCall_upholds (orderly : R.Orderly s) (env : Environment) (ctx : Context)
    (nesting : Nat) (known : R.known s.importer call.span) :
    R.Upholds false s (resolveCall evaluate env ctx nesting call) fun _ _ => True := by
  apply Upholds.bind (values_upholds.evaluateArguments env call.args orderly)
  intro args t orderly grows _
  apply Upholds.bind (findCandidates_upholds env call.path orderly)
  intro candidates u orderly grows' under
  split
  · exact .failWith orderly _
  · apply Upholds.bind (emit_upholds orderly _)
    intro _ v orderly grows'' _
    have known := R.knownLater known ((grows.trans grows').trans grows'')
    apply Upholds.bind (matchCandidates_upholds env args candidates orderly known
      fun c member => (under c member).mono grows'')
    intro selection w orderly _ under
    split
    · exact unmatched_upholds call _ _ orderly
    · apply Upholds.bind (chosenGroup_upholds selection.matched call orderly)
      intro group w' orderly grows _
      apply expandAll_upholds evaluates _ nesting _ _ orderly
      exact fun m member => (under m (List.mem_filter.mp member).1).mono grows

theorem expandCalls_upholds (env : Environment) (ctx : Context) (es : List Entry)
    (orderly : R.Orderly s) (under : ∀ e ∈ es, R.rule s.importer e.toPlaced) :
    R.Upholds true s (expandCalls evaluate env ctx es) fun _ _ => True := by
  induction es generalizing s with
  | nil => exact .pure orderly trivial
  | cons e es ih =>
    unfold expandCalls
    split
    · rename_i call isCall
      have known := R.position (under e List.mem_cons_self)
      rw [isCall] at known
      apply Upholds.bind (Upholds.change orderly ⟨rfl, rfl, rfl, rfl⟩)
      intro _ t orderly grows _
      have known := R.knownLater known grows
      have expanded : R.Upholds true t (callMixin evaluate env ctx e.nesting call)
          fun _ _ => True := by
        apply Upholds.bind (setSpan_upholds orderly known)
        intro _ u orderly grows _
        have known := R.knownLater known grows
        exact ((resolveCall_upholds evaluates orderly env ctx e.nesting known).locatedAt
          known).insideOf _
      apply Upholds.bind expanded
      intro first u orderly grows' _
      apply Upholds.bind (ih orderly (R.restLater under (grows.trans grows')))
      exact fun _ _ orderly _ _ => .pure orderly trivial
    · exact ih orderly (R.restLater under .rfl)

/-! ## Evaluating blocks -/

omit evaluates in
theorem enterBlock_upholds (orderly : R.Orderly s) (env : Environment)
    (under : R.Block s.importer site rules) (nesting : Nat) :
    R.Upholds true s (enterBlock env site rules nesting) fun _ _ => True := by
  apply Upholds.bind (.addFrame orderly (.ofBlock under nesting))
  intro id t orderly _ _
  apply Upholds.bind (expandImports_upholds id _ false orderly)
  exact fun _ _ orderly _ _ => .pure orderly trivial

omit evaluates in
theorem effectiveSelectors_upholds (ancestors selectors : List Selector) (orderly : R.Orderly s)
    (known : R.known s.importer span) :
    R.Upholds true s (effectiveSelectors ancestors selectors span) fun _ _ => True := by
  apply Upholds.ofSetting
  dsimp only
  split
  · exact .fail orderly (R.placed _ known)
  · split
    · exact .pure orderly trivial
    · apply Upholds.bind (emit_upholds orderly _)
      exact fun _ _ orderly _ _ => .pure orderly trivial

theorem evaluateRule_upholds (orderly : R.Orderly s) (env : Environment) (ctx : Context)
    (rule : R.rule s.importer e.toPlaced) :
    R.Upholds true s (evaluateRule evaluate env ctx e) fun _ _ => True := by
  have known := R.position rule
  have block : ∀ rules, e.rule.block? = some rules → ∀ {t : Evaluation},
      s.importer.Grows t.importer → R.Block t.importer e.site rules :=
    fun rules isBlock _ grows => Block.mono (R.block rule isBlock) grows
  unfold evaluateRule
  cases isRule : e.rule with
  | declaration d =>
    rw [isRule] at known
    apply Upholds.bind (setSpan_upholds orderly known)
    intro _ t orderly grows _
    apply Upholds.bind ((values_upholds.value env d.value orderly).locatedAt
      (R.knownLater known grows))
    exact fun _ _ orderly _ _ => .pure orderly trivial
  | «variable» d =>
    rw [isRule] at known
    apply Upholds.bind (setSpan_upholds orderly known)
    intro _ t orderly grows _
    have known := R.knownLater known grows
    apply Upholds.bind ((dereference_upholds env ⟨d, e.site⟩ orderly known).locatedAt known)
    exact fun _ _ orderly _ _ => .pure orderly trivial
  | ruleset selectors rules span =>
    rw [isRule] at known block
    apply Upholds.bind (effectiveSelectors_upholds ctx.selectors selectors orderly known)
    intro effective t orderly grows _
    apply Upholds.bind ((enterBlock_upholds orderly env (block rules rfl grows)
      e.nesting).insideOf _)
    intro inner u orderly _ _
    apply Upholds.bind ((evaluates inner _ orderly).insideOf _)
    exact fun _ _ orderly _ _ => .pure orderly trivial
  | mixin head rules => exact .pure orderly trivial
  | call c => exact .pure orderly trivial
  | fileImport i =>
    rw [isRule] at known
    apply Upholds.bind ((values_upholds.value env i.path orderly).locatedAt known)
    intro path t orderly grows _
    apply Upholds.bind (evaluatePrelude_upholds env i.media orderly (R.knownLater known grows))
    exact fun _ _ orderly _ _ => .pure orderly trivial
  | media features rules span =>
    rw [isRule] at known block
    apply Upholds.bind ((values_upholds.value env features orderly).locatedAt known)
    intro own t orderly grows _
    apply Upholds.bind (enterBlock_upholds orderly env (block rules rfl grows) e.nesting)
    intro inner u orderly _ _
    apply Upholds.bind (evaluates inner _ orderly)
    exact fun _ _ orderly _ _ => .pure orderly trivial
  | atStatement name prelude span =>
    rw [isRule] at known
    apply Upholds.bind (evaluatePrelude_upholds env prelude orderly known)
    exact fun _ _ orderly _ _ => .pure orderly trivial
  | atBlock name prelude rules span =>
    rw [isRule] at known block
    apply Upholds.bind (evaluatePrelude_upholds env prelude orderly known)
    intro prelude t orderly grows _
    apply Upholds.bind (enterBlock_upholds orderly env (block rules rfl grows) e.nesting)
    intro inner u orderly _ _
    apply Upholds.bind ((evaluates inner _ orderly).insideOf _)
    exact fun _ _ orderly _ _ => .pure orderly trivial

theorem evaluateEntries_upholds (env : Environment) (ctx : Context) (es : List Entry)
    (expansions : List Output) (orderly : R.Orderly s)
    (under : ∀ e ∈ es, R.rule s.importer e.toPlaced) :
    R.Upholds true s (evaluateEntries evaluate env ctx es expansions) fun _ _ => True := by
  induction es generalizing s expansions with
  | nil => exact .pure orderly trivial
  | cons e es ih =>
    unfold evaluateEntries
    split
    · apply Upholds.bind (ih _ orderly (R.restLater under .rfl))
      exact fun _ _ orderly _ _ => .pure orderly trivial
    · apply Upholds.bind (evaluateRule_upholds evaluates orderly env ctx
        (under e List.mem_cons_self))
      intro own t orderly grows _
      apply Upholds.bind (ih _ orderly (R.restLater under grows))
      exact fun _ _ orderly _ _ => .pure orderly trivial

theorem blockWith_upholds : EvaluatesUnder R (blockWith evaluate) := by
  intro env ctx t orderly
  unfold blockWith
  split
  · exact .pure orderly trivial
  · rename_i id _
    apply Upholds.ofState
    apply Upholds.bind (expandCalls_upholds evaluates env ctx _ orderly (orderly.frames id).rules)
    intro expansions u orderly _ _
    exact Upholds.ofState (evaluateEntries_upholds evaluates env ctx _ expansions orderly
      (orderly.frames id).rules)

end Blocks

theorem blockWithin_upholds (n : Nat) : EvaluatesUnder R (blockWithin n) := by
  induction n with
  | zero => exact fun _ _ _ orderly => .exhausted orderly
  | succ n ih => exact blockWith_upholds ih

end Eval

/-! ## Sheets -/

namespace Compiler

def mainImporter (setting : Setting) (sheet : Stylesheet) : Importer :=
  match setting.mainPath sheet with
  | some path => Importer.setMain {} path
  | none => {}

theorem mainImporter_files (setting : Setting) (sheet : Stylesheet) :
    (mainImporter setting sheet).files = [setting.mainPath sheet] := by
  unfold mainImporter
  split
  · rename_i isAt
    rw [isAt]
    rfl
  · rename_i isAt
    rw [isAt]

theorem mainImporter_tables (setting : Setting) (sheet : Stylesheet) :
    (mainImporter setting sheet).tables = mainImporter setting sheet := by
  unfold mainImporter
  split <;> rfl

theorem registerSheet_starts (setting : Setting) (sheet : Stylesheet) :
    Eval.Ends setting {} (registerSheet sheet)
      (fun _ s => ∃ events, s = { importer := mainImporter setting sheet, events })
      (fun _ _ => False) := by
  unfold registerSheet mainImporter Setting.mainPath
  cases sheet.path with
  | none => exact Eval.Ends.pure ⟨_, rfl⟩
  | some path =>
    apply Eval.Ends.ofSetting
    simp only [Option.bind_some]
    cases setting.loader.normalize path with
    | error message => exact ⟨_, rfl⟩
    | ok canonical => exact ⟨_, rfl⟩

section

variable (sheet : Stylesheet) (start : R.holds (mainImporter setting sheet) [])
  (under : ∀ i, R.Block i (.written 0 []) sheet.rules)

include start under

theorem openSheet_obeys : Eval.Ends setting {} (openSheet sheet)
    (fun _ s => R.Orderly s ∧ (mainImporter setting sheet).Grows s.importer)
    (R.Failed true { importer := mainImporter setting sheet }) := by
  refine Eval.Ends.bind (registerSheet_starts setting sheet) (fun _ t registered => ?_) nofun
  obtain ⟨events, rfl⟩ := registered
  have orderly : R.Orderly { importer := mainImporter setting sheet, events } := by
    refine ⟨?_, fun id => ?_, .inl rfl⟩
    · rw [mainImporter_tables]
      exact start
    · rw [Frames.get_of_size_le (Nat.zero_le id)]
      exact .empty _
  have opened : R.Upholds true { importer := mainImporter setting sheet, events } (do
      let root ← Eval.addFrame (Frame.ofBlock (.written 0 []) sheet.rules 0)
      let env : Environment := { frames := [root] }
      let rules := ruleBound (← Eval.setting).loader sheet
      Eval.expandImports root env true
      Eval.replayDeferred root (2 * rules + 2)
      pure env) fun _ _ => True := by
    apply Upholds.bind (.addFrame orderly (.ofBlock (under _) 0))
    intro root t orderly _ _
    apply Upholds.ofSetting
    apply Upholds.bind (Eval.expandImports_upholds root _ true orderly)
    intro _ u orderly _ _
    apply Upholds.bind (Eval.replayDeferred_upholds root _ orderly)
    exact fun _ _ orderly _ _ => .pure orderly trivial
  exact Eval.Ends.mono opened (fun _ _ ended => ⟨ended.1, ended.2.1⟩) fun _ _ failed =>
    { failed with }

theorem resolveSheet_obeys : Eval.Ends setting {} (resolveSheet sheet) (fun _ s => R.Orderly s)
    fun f s => R.law s.trace.openings ∧ R.fails true f s.importer ∧
      s.importer.filePath 0 = setting.mainPath sheet := by
  have resolved : Eval.Ends setting {} (resolveSheet sheet) (fun _ s => R.Orderly s)
      (R.Failed true { importer := mainImporter setting sheet }) := by
    refine Eval.Ends.seq (openSheet_obeys sheet start under) (fun env t ended => ?_)
    obtain ⟨orderly, grows⟩ := ended
    refine Eval.Ends.ofSetting (Eval.Ends.ofSetting ?_)
    refine Eval.Ends.seq (Upholds.extend (s := { importer := mainImporter setting sheet }) grows
      (Eval.blockWithin_upholds _ env {} orderly)) (fun _ _ ended => ?_)
    exact Eval.Ends.pure ended.1
  refine resolved.mono (fun _ _ orderly => orderly) fun f s failed => ?_
  refine ⟨failed.law, failed.fails, ?_⟩
  obtain ⟨later, all⟩ := failed.grows.files
  simp [Importer.filePath, ← all, mainImporter_files]

theorem resolveSheet_lawful : R.law (resolveSheet sheet setting {}).2.trace.openings := by
  have obeys := resolveSheet_obeys sheet start under
  rcases run : resolveSheet sheet setting {} with ⟨f | rules, s⟩
  · exact (obeys.failure run).1
  · exact R.lawful (obeys.result run).holds

end

end Compiler

end StyleResolution
