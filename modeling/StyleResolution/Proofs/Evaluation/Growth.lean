import StyleResolution.Proofs.Evaluation.Locality

/-! # What is never forgotten

Files that were loaded and calls that were noted are remembered to the end, whatever a computation
does and however it ends. Since this holds of every computation there is, it is a class, and it is
inferred where it is needed.
-/

namespace StyleResolution

/-- The second state remembers the files and the calls of the first one. -/
structure Grows (s s' : Evaluation) : Prop where
  cache : s.importer.cache <:+ s'.importer.cache
  callings : s.trace.callings <:+ s'.trace.callings

instance : IsPreorder Evaluation Grows where
  refl _ := ⟨List.suffix_rfl, List.suffix_rfl⟩
  trans _ _ _ first second :=
    ⟨first.cache.trans second.cache, first.callings.trans second.callings⟩

theorem Local.grows {own : Frame → Frame → Prop} (h : Local limit o own s s') : Grows s s' :=
  ⟨h.cache, h.callings⟩

theorem Splices.grows {id : FrameId} {s s' : Evaluation} (splices : Splices id s s') : Grows s s' :=
  ⟨splices.cache, splices.callings ▸ List.suffix_rfl⟩

theorem Loads.grows (loads : Loads s s') : Grows s s' :=
  ⟨loads.cache, loads.callings ▸ List.suffix_rfl⟩

namespace Eval

variable {α β : Type} {setting : Setting}

/-- The computation forgets no file and no call. -/
class Growing (setting : Setting) (x : Eval α) : Prop where
  keeps : Keeps setting Grows x

theorem Growing.of_local (h : Keeps setting (Local limit o own) x) : Growing setting x :=
  ⟨fun s => (h s).grows⟩

theorem Growing.of_splices {id : FrameId} {x : Eval α} (h : Keeps setting (Splices id) x) :
    Growing setting x :=
  ⟨fun s => (h s).grows⟩

theorem Growing.of_loads (h : Keeps setting Loads x) : Growing setting x :=
  ⟨fun s => (h s).grows⟩

/-! ## Ways to put computations together -/

instance (a : α) : Growing setting (pure a : Eval α) :=
  ⟨.pure a⟩

instance (f : Failure) : Growing setting (fail f : Eval α) :=
  ⟨.fail f⟩

instance (cause : Cause) : Growing setting (failWith cause : Eval α) :=
  ⟨.failWith cause⟩

instance : Growing setting state :=
  ⟨.ofState⟩

instance : Growing setting Eval.setting :=
  ⟨.ofSetting⟩

instance Growing.bind {x : Eval β} {next : β → Eval α} [first : Growing setting x]
    [later : ∀ b, Growing setting (next b)] : Growing setting (x >>= next) :=
  ⟨.bind first.keeps fun b => (later b).keeps⟩

instance {c : Prop} [Decidable c] {x y : Eval α} [first : Growing setting x]
    [second : Growing setting y] : Growing setting (if c then x else y) := by
  split
  · exact first
  · exact second

instance {x : Eval α} [h : Growing setting x] (span : Span) : Growing setting (locatedAt span x) :=
  ⟨h.keeps.locatedAt span⟩

instance {x : Eval α} [h : Growing setting x] (label : Unit → String) :
    Growing setting (insideOf label x) :=
  ⟨h.keeps.insideOf label⟩

instance {x : Eval α} [h : Growing setting x] : Growing setting (whileImporting x) :=
  ⟨h.keeps.between fun _ _ grows => ⟨grows.cache, grows.callings⟩⟩

instance {f : β → Eval α} [h : ∀ b, Growing setting (f b)] (bs : List β) :
    Growing setting (mapList f bs) :=
  ⟨.mapList (fun b => (h b).keeps) bs⟩

/-! ## Single steps -/

instance (e : Event) : Growing setting (emit e) :=
  .of_loads (emit_loads e)

instance (id : FrameId) : Growing setting (frame id) :=
  .of_loads (frame_quiet id).loads

instance (f : Frame) : Growing setting (addFrame f) :=
  .of_local (addFrame_local f)

instance (id : FrameId) (f : Frame → Frame) : Growing setting (changeFrame id f) :=
  .of_local (changeFrame_others id f)

instance : Growing setting makeSite :=
  .of_local (makeSite_local none)

/-! ## Values -/

instance (env : Environment) (v : Value) : Growing setting (value env v) :=
  .of_local (value_local none env v)

instance (env : Environment) (v : Variable) : Growing setting (dereference env v) :=
  .of_loads (dereference_quiet env v).loads

instance (env : Environment) (span : Span) (prelude : Option Value) :
    Growing setting (evaluatePrelude env span prelude) :=
  .of_local (evaluatePrelude_local env span prelude)

/-! ## Imports -/

instance (i : Import) (path : String) : Growing setting (noteOpening i path (openImport i path)) :=
  .of_loads (noteOpening_loads i path)

instance (id : FrameId) (env : Environment) (defer : Bool) (levels position count : Nat) :
    Growing setting (expandWithin id env defer levels position count) :=
  .of_splices (expandWithin_splices id env defer levels position count)

instance (id : FrameId) (env : Environment) (defer : Bool) (levels position count : Nat) :
    Growing setting (expandRange (expandWithin id env defer levels) id env defer position count) :=
  .of_splices (expandRange_splices (expandWithin_splices id env defer levels) env defer position count)

instance (id : FrameId) (env : Environment) (defer : Bool) :
    Growing setting (expandImports id env defer) :=
  .of_splices (expandImports_splices id env defer)

instance : Growing setting takeDeferred :=
  .of_splices (takeDeferred_splices 0)

instance (queue : List DeferredImport) : Growing setting (deferAll queue) :=
  .of_splices (deferAll_splices 0 queue)

instance (root : FrameId) (pending : List DeferredImport) (pass : Pass) :
    Growing setting (replayPass root pending pass) :=
  .of_splices (replayPass_splices root pending pass)

instance (root : FrameId) : Growing setting (replayOnce root) :=
  .of_splices (replayOnce_splices root)

instance (root : FrameId) (width : Nat) : Growing setting (replayDeferred root width) :=
  .of_splices (replayDeferred_splices root width)

/-! ## Calls -/

instance (path : List String) (id : FrameId) : Growing setting (searchFrame path id) :=
  .of_local (searches_local.searchFrame path id)

instance (path : List String) (f : Frame) (cs : List Callable) :
    Growing setting (searchNamespaces (searchFrame path) f cs) :=
  .of_local (searchNamespaces_local (searches_local.searchFrame path) f cs)

instance (path : List String) (captured : List (List FrameId)) (stack : List FrameId) :
    Growing setting (searchStack path captured stack) :=
  .of_local (searches_local.searchStack path captured stack)

instance (path : List String) (allStacks : List (List FrameId)) :
    Growing setting (searchStacks path allStacks) := by
  induction allStacks with
  | nil => exact inferInstanceAs (Growing setting (pure []))
  | cons stack captured ih =>
    unfold searchStacks
    infer_instance

instance (env : Environment) (path : List String) : Growing setting (findCandidates env path) :=
  .of_local (searches_local.findCandidates env path)

instance (id : FrameId) (name : String) (v : Value) (span : Span) :
    Growing setting (define id name v span) :=
  .of_local (define_others id name v span)

instance (params : FrameId) (scope caller : Environment) (span : Span)
    (bindings : List (String × Mixin.Bound)) :
    Growing setting (defineParams params scope caller span bindings) :=
  .of_local (defineParams_others params scope caller span bindings)

instance (callable : Callable) (scope : Environment) :
    Growing setting (defaultGroup callable scope) :=
  .of_local (defaultGroup_local callable scope)

instance (caller : Environment) (args : List Argument) (span : Span) (candidates : List Candidate) :
    Growing setting (matchCandidates caller args span candidates) :=
  .of_local (calls_local.matchCandidates caller args span candidates)

instance (matched : List MatchedCandidate) (call : MixinCall) :
    Growing setting (chosenGroup matched call) :=
  .of_local (chosenGroup_local matched call)

instance (call : MixinCall) (candidates : Nat) (failures : List Mixin.MatchFailure) :
    Growing setting (unmatched call candidates failures) :=
  .of_local (calls_local.unmatched call candidates failures)

instance (env : Environment) (es : List Entry) : Growing setting (exportsOf env es) :=
  .of_local (calls_local.exportsOf env es)

instance (caller : Option FrameId) (bodyEnv : Environment) (params body : FrameId) :
    Growing setting (exportTo caller bodyEnv params body) :=
  .of_local (exportTo_local caller bodyEnv params body)

/-! ## Blocks -/

instance (n : Nat) (env : Environment) (ctx : Context) : Growing setting (blockWithin n env ctx) :=
  .of_local (blockWithin_local n env ctx)

instance (n : Nat) (ctx : Context) (nesting : Nat) (caller : Option FrameId)
    (ms : List MatchedCandidate) :
    Growing setting (expandAll (blockWithin n) ctx nesting caller ms) :=
  .of_local (expandAll_local (blockWithin_local n) ctx nesting caller ms)

instance (n : Nat) (env : Environment) (ctx : Context) (nesting : Nat) (call : MixinCall) :
    Growing setting (callMixin (blockWithin n) env ctx nesting call) :=
  .of_local (callMixin_local (blockWithin_local n) env ctx nesting call)

instance (n : Nat) (env : Environment) (ctx : Context) (es : List Entry) :
    Growing setting (expandCalls (blockWithin n) env ctx es) :=
  .of_local (expandCalls_local (blockWithin_local n) env ctx es)

instance (n : Nat) (env : Environment) (ctx : Context) (e : Entry) :
    Growing setting (evaluateRule (blockWithin n) env ctx e) :=
  .of_local (evaluateRule_local (blockWithin_local n) env ctx e)

instance (n : Nat) (env : Environment) (ctx : Context) (es : List Entry)
    (expansions : List Output) :
    Growing setting (evaluateEntries (blockWithin n) env ctx es expansions) :=
  .of_local (evaluateEntries_local (blockWithin_local n) env ctx es expansions)

instance (env : Environment) (site : Site) (rules : List Rule) (nesting : Nat) :
    Growing setting (enterBlock env site rules nesting) := by
  unfold enterBlock
  infer_instance

end Eval

end StyleResolution
