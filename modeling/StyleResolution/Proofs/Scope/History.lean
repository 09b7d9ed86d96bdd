import StyleResolution.Proofs.Evaluation.Finishing

/-! # Look-ups are never stale

Frames are shared by many environments, so a frame may be changed through one of them and looked at
through another. The index that a look-up keeps is dropped by every change. So a look-up answers as
a scan of the rules would as they stand, whatever was changed and looked up before, and in whatever
order.
-/

namespace StyleResolution

open Eval

/-! ## Scans of the rules -/

def Placed.answering (name : String) (p : Placed) : Option Callable :=
  match p.rule with
  | .mixin head rules => if head.name = name then some (.mixin p.site head rules) else none
  | .ruleset selectors rules _ =>
    if selectors.any (·.mixinName == some name) then some (.ruleset p.site selectors rules)
    else none
  | _ => none

theorem Placed.answering_eq (name : String) (p : Placed) :
    p.answering name = p.asCallable.filter (·.answersTo name) := by
  unfold answering asCallable
  cases p.rule with
  | mixin head rules => simp only [Option.filter_some, Callable.answersTo, beq_iff_eq]
  | ruleset selectors rules span =>
    -- a ruleset that answers to some name has a class or an id
    cases answers : selectors.any (·.mixinName == some name) with
    | true =>
      have has : selectors.any (·.mixinName.isSome) = true := by
        obtain ⟨selector, member, named⟩ := List.any_eq_true.mp answers
        exact List.any_eq_true.mpr ⟨selector, member, by simp [eq_of_beq named]⟩
      simp only [has, if_true, Option.filter_some, Callable.answersTo, answers]
    | false =>
      simp only [answers, Bool.false_eq_true, if_false]
      split
      · simp only [Option.filter_some, Callable.answersTo, answers, Bool.false_eq_true,
          if_false]
      · rfl
  | _ => rfl

namespace FrameData

def lastDefinition (d : FrameData) (name : String) : Option Variable :=
  d.rules.reverse.findSome? (·.definitionOf name)

def answering (d : FrameData) (name : String) : List Callable :=
  d.rules.filterMap (·.answering name)

/-- Some rules are replaced by others of one nesting, and all other rules keep the nesting they had.
    Positions behind the last rule count as the end. -/
structure Spliced (position remove : Nat) (new : List Placed) (nesting : Nat) (d d' : FrameData) :
    Prop where
  rules : d'.rules = d.rules.take (min position d.size) ++ new ++
    d.rules.drop (min (position + remove) d.size)
  nestings : d'.nestings = d.nestings.take (min position d.size) ++
    List.replicate new.length nesting ++ d.nestings.drop (min (position + remove) d.size)
  pairs : d'.rules.zip d'.nestings = (d.rules.zip d.nestings).take (min position d.size) ++
    new.map (·, nesting) ++ (d.rules.zip d.nestings).drop (min (position + remove) d.size)

theorem spliceAt_spliced {d : FrameData} (parallel : d.Parallel) (position remove : Nat)
    (new : List Placed) (nesting : Nat) :
    Spliced position remove new nesting d (d.spliceAt position remove new nesting) := by
  have start : min position (min (position + remove) d.rules.length) =
      min position d.rules.length := by omega
  have rules : (d.spliceAt position remove new nesting).rules = d.rules.take (min position d.size) ++
      new ++ d.rules.drop (min (position + remove) d.size) := by
    simp only [spliceAt, replaced, start, size]
  have nestings : (d.spliceAt position remove new nesting).nestings =
      d.nestings.take (min position d.size) ++ List.replicate new.length nesting ++
        d.nestings.drop (min (position + remove) d.size) := by
    simp only [spliceAt, replaced, start, size]
  refine ⟨rules, nestings, ?_⟩
  unfold Parallel at parallel
  have inserted : new.zip (List.replicate new.length nesting) = new.map (·, nesting) := by
    clear rules nestings
    induction new with
    | nil => rfl
    | cons p new ih => simp [List.replicate_succ, ih]
  rw [rules, nestings, List.zip_append (by simp [parallel]), List.zip_append (by simp [parallel]), inserted]
  simp [List.zip, List.take_zipWith, List.drop_zipWith]

end FrameData

namespace Frame.Fresh

variable {f : Frame}

theorem definitionOf (fresh : f.Fresh) (name : String) :
    f.names.definitionOf name = f.lastDefinition name := by
  rw [fresh, Index.definitionOf_ofRules, FrameData.lastDefinition, ← List.head?_filterMap]
  simp

theorem callablesNamed (fresh : f.Fresh) (name : String) :
    f.names.callablesNamed name = f.answering name := by
  rw [fresh, Index.callablesNamed, Index.callables_ofRules, List.filter_filterMap]
  simp only [FrameData.answering, Placed.answering_eq]

end Frame.Fresh

/-! ## Changes and look-ups -/

/-- What can be done with frames. -/
inductive FrameStep where
  | make (rules : List Placed) (nesting : Nat)
  | splice (id : FrameId) (position remove : Nat) (rules : List Placed)
  | spliceAt (id : FrameId) (position remove : Nat) (rules : List Placed) (nesting : Nat)
  | push (id : FrameId) (rule : Placed)
  | prepend (id : FrameId) (rules : List Placed)
  /-- Rules of the frame `source` are exported to another one. -/
  | prependExports (id : FrameId) (rules : List Placed) (closure : List FrameId) (source : FrameId)
  /-- Names are looked up in a frame. -/
  | consult (id : FrameId)
  /-- A variable is looked up in an environment. -/
  | lookup (env : Environment) (name : String)
  deriving Repr

namespace FrameStep

def perform : FrameStep → Eval Unit
  | .make rules nesting => do
    let _ ← addFrame (Frame.ofPlaced rules nesting)
    pure ()
  | .splice id position remove rules => changeFrame id (·.splice position remove rules)
  | .spliceAt id position remove rules nesting =>
    changeFrame id (·.spliceAt position remove rules nesting)
  | .push id rule => changeFrame id (·.push rule)
  | .prepend id rules => changeFrame id (·.prepend rules)
  | .prependExports id rules closure source => do
    let exporting ← frame source
    changeFrame id (·.prependExports rules closure exporting)
  | .consult id => do
    let _ ← Eval.consult id
    pure ()
  | .lookup env name => do
    let _ ← lookupIn name env.chain
    pure ()

def performAll : List FrameStep → Eval Unit
  | [] => pure ()
  | step :: steps => do
    step.perform
    performAll steps

/-- The scopes after names were looked up in some of them: their indexes are kept, up to the first
    one that has the name. -/
def keepIndexes (name : String) : List FrameId → List FrameData → List FrameData
  | [], store => store
  | id :: ids, store =>
    let kept := store.modify id FrameData.indexed
    if ((store.getD id FrameData.empty).names.definitionOf name).isSome then kept
    else keepIndexes name ids kept

/-- The step on scopes whose rules and nestings are two lists, each changed by itself. -/
def act (store : List FrameData) : FrameStep → List FrameData
  | .make rules nesting => store ++ [FrameData.ofPlaced rules nesting]
  | .splice id position remove rules => store.modify id (·.splice position remove rules)
  | .spliceAt id position remove rules nesting =>
    store.modify id (·.spliceAt position remove rules nesting)
  | .push id rule => store.modify id (·.push rule)
  | .prepend id rules => store.modify id (·.prepend rules)
  | .prependExports id rules closure source =>
    store.modify id (·.prependExports rules closure (store.getD source FrameData.empty))
  | .consult id => store.modify id FrameData.indexed
  | .lookup env name => keepIndexes name env.chain store

/-- The step keeps every frame's names those of its rules. -/
def Refreshes (setting : Setting) (x : Eval Unit) : Prop :=
  Eval.Keeps setting (fun s s' => s.frames.Fresh → s'.frames.Fresh) x

end FrameStep

namespace Frame

theorem Fresh.prepend {f : Frame} (fresh : f.Fresh) (rules : List Placed) :
    (f.prepend rules).Fresh := by
  rw [Frame.prepend_eq]
  split
  · exact fresh
  · exact Fresh.spliceAt ..

end Frame

theorem Frames.Fresh.of_quiet (fresh : s.frames.Fresh) (quiet : Quiet s s') : s'.frames.Fresh :=
  fun id => (fresh id).of_indexed (quiet.frame id)

namespace FrameStep

variable {setting : Setting} {s : Evaluation}

theorem changeFrame_refreshes {id : FrameId} {change : Frame → Frame}
    (keeps : ∀ f : Frame, f.Fresh → (change f).Fresh) :
    Refreshes setting (changeFrame id change) := by
  intro s fresh
  exact Frames.forall_get_modify fresh (keeps _ (fresh id))

theorem perform_refreshes (step : FrameStep) : Refreshes setting step.perform := by
  cases step with
  | make rules nesting =>
    intro s fresh
    exact Frames.forall_get_add fresh (Frame.Fresh.ofPlaced rules nesting)
  | splice | spliceAt | push =>
    exact changeFrame_refreshes fun f _ => Frame.Fresh.spliceAt ..
  | prepend id rules => exact changeFrame_refreshes fun f fresh => fresh.prepend rules
  | prependExports id rules closure source =>
    intro s fresh
    exact Frames.forall_get_modify fresh ((fresh id).prependExports rules closure _)
  | consult id =>
    intro s fresh
    have quiet : Eval.Keeps setting Quiet (FrameStep.consult id).perform :=
      Eval.Keeps.bind (Eval.consult_quiet id) fun _ => Eval.Keeps.pure ()
    exact fresh.of_quiet (quiet s)
  | lookup env name =>
    intro s fresh
    have quiet : Eval.Keeps setting Quiet (FrameStep.lookup env name).perform :=
      Eval.Keeps.bind (values_quiet.lookupIn name env.chain) fun _ => Eval.Keeps.pure ()
    exact fresh.of_quiet (quiet s)

theorem performAll_refreshes (steps : List FrameStep) : Refreshes setting (performAll steps) := by
  have : IsPreorder Evaluation fun s s' => s.frames.Fresh → s'.frames.Fresh :=
    { refl := fun _ fresh => fresh, trans := fun _ _ _ first second fresh => second (first fresh) }
  induction steps with
  | nil => exact Eval.Keeps.pure ()
  | cons step steps ih => exact Eval.Keeps.bind step.perform_refreshes fun _ => ih

theorem fresh_after (steps : List FrameStep) :
    (performAll steps setting {}).2.frames.Fresh := by
  apply performAll_refreshes steps
  intro id
  rw [Frames.get_of_size_le (Nat.zero_le id)]
  exact Frame.Fresh.ofPlaced [] 0

end FrameStep

namespace Eval

variable {setting : Setting}

/-- A look-up in an environment finds what the frames have, whether indexes are kept or not. -/
theorem lookupIn_ends (name : String) (ids : List FrameId) (s : Evaluation) :
    Ends setting s (lookupIn name ids) (fun found _ => found = s.frames.variableIn name ids)
      (fun _ _ => False) := by
  induction ids generalizing s with
  | nil => exact .pure rfl
  | cons id ids ih =>
    refine Ends.bind ((consult_ends id).and ((consult_quiet id).ends setting s)) ?_
      fun _ _ never => never.1.elim
    intro index t consulted
    obtain ⟨rfl, quiet⟩ := consulted
    simp only [Frames.variableIn]
    cases (s.frames.get id).names.definitionOf name with
    | some v => exact Ends.pure rfl
    | none =>
      have same : t.frames.variableIn name ids = s.frames.variableIn name ids := by
        clear ih
        induction ids with
        | nil => rfl
        | cons next ids ih => simp only [Frames.variableIn, (quiet.frame next).names, ih]
      exact .imp (ih t) (fun _ _ found => found.trans same)

theorem Ends.outcome_eq (h : Ends setting s x (fun b _ => b = a) fun _ _ => False) :
    (x setting s).1 = .ok a := by
  rcases run : x setting s with ⟨f | b, t⟩
  · exact (h.failure run).elim
  · rw [h.result run]

end Eval

/-! ## Frames and the two lists in them -/

def Frames.data (store : Frames) : List FrameData :=
  store.frames.toList.map (·.toFrameData)

namespace Frames

variable (store : Frames)

theorem getD_data (id : FrameId) :
    store.data.getD id FrameData.empty = (store.get id).toFrameData := by
  simp only [data, get, List.getD_eq_getElem?_getD, List.getElem?_map, Array.getElem?_toList]
  cases store.frames[id]? <;> rfl

theorem data_add (f : Frame) : (store.add f).2.data = store.data ++ [f.toFrameData] := by
  simp [data, add]

theorem data_modify (id : FrameId) {change : Frame → Frame} {act : FrameData → FrameData}
    (same : ∀ f, (change f).toFrameData = act f.toFrameData) :
    (store.modify id change).data = store.data.modify id act := by
  apply List.ext_getElem?
  intro j
  simp only [data, modify, List.getElem?_map, Array.getElem?_toList, Array.getElem?_modify,
    List.getElem?_modify]
  cases store.frames[j]? with
  | none => split <;> simp
  | some f => split <;> simp [same]

end Frames

namespace FrameData

theorem indexed_of_kept {d : FrameData} {i : Index} (kept : d.index = some i) : d.indexed = d := by
  cases d
  simp_all [indexed, names]

end FrameData

namespace FrameStep

variable {setting : Setting} {s : Evaluation}

theorem perform_ok (step : FrameStep) : (step.perform setting s).1 = .ok () := by
  cases step with
  | consult id =>
    refine Eval.Ends.outcome_eq (Eval.Ends.seq (consult_ends id) ?_)
    exact fun _ _ _ => Eval.Ends.pure rfl
  | lookup env name =>
    refine Eval.Ends.outcome_eq
      (.seq (lookupIn_ends name env.chain s) ?_)
    exact fun _ _ _ => Eval.Ends.pure rfl
  | _ => rfl

theorem performAll_cons (step : FrameStep) (steps : List FrameStep) :
    performAll (step :: steps) setting s = performAll steps setting (step.perform setting s).2 := by
  have ok : step.perform setting s = (.ok (), (step.perform setting s).2) :=
    Prod.ext step.perform_ok rfl
  exact bind_of_ok ok

theorem modify_eq_self {store : List FrameData} {id : FrameId} {change : FrameData → FrameData}
    (fixed : ∀ d, store[id]? = some d → change d = d) : store.modify id change = store := by
  apply List.ext_getElem?
  intro j
  rw [List.getElem?_modify]
  split
  · rename_i same
    subst same
    cases found : store[id]? with
    | none => rfl
    | some d => simp [fixed d found]
  · simp

theorem consult_data (id : FrameId) :
    (Eval.consult id setting s).2.frames.data = s.frames.data.modify id FrameData.indexed := by
  unfold Eval.consult
  simp only [frame, bind_apply, state, pure_apply]
  cases kept : (s.frames.get id).index with
  | none => exact Frames.data_modify _ _ fun _ => rfl
  | some index =>
    refine Eq.symm (modify_eq_self fun d found => FrameData.indexed_of_kept (i := index) ?_)
    rw [← kept, ← congrArg FrameData.index (s.frames.getD_data id), List.getD_eq_getElem?_getD, found]
    rfl

theorem lookupIn_data (name : String) (ids : List FrameId) :
    (lookupIn name ids setting s).2.frames.data = keepIndexes name ids s.frames.data := by
  induction ids generalizing s with
  | nil => rfl
  | cons id ids ih =>
    have consulted : Eval.consult id setting s =
        (.ok (s.frames.get id).names, (Eval.consult id setting s).2) :=
      Prod.ext (consult_ends id).outcome_eq rfl
    rw [lookupIn, bind_of_ok consulted, keepIndexes, ← consult_data, Frames.getD_data]
    cases (s.frames.get id).names.definitionOf name with
    | some v => rfl
    | none => exact ih

theorem discarded_state (x : Eval α) :
    ((do let _ ← x; pure () : Eval Unit) setting s).2 = (x setting s).2 := by
  rw [bind_apply]
  rcases x setting s with ⟨_ | _, _⟩ <;> rfl

theorem perform_data (step : FrameStep) :
    (step.perform setting s).2.frames.data = step.act s.frames.data := by
  cases step with
  | make rules nesting => exact Frames.data_add ..
  | splice | spliceAt | push | prepend => exact Frames.data_modify _ _ fun _ => rfl
  | prependExports id rules closure source =>
    refine Frames.data_modify _ _ fun _ => ?_
    rw [Frames.getD_data]
    rfl
  | consult id => exact (congrArg (·.frames.data) (discarded_state _)).trans (consult_data id)
  | lookup env name =>
    exact (congrArg (·.frames.data) (discarded_state _)).trans (lookupIn_data name env.chain)

theorem performAll_data (steps : List FrameStep) :
    (performAll steps setting s).2.frames.data = steps.foldl act s.frames.data := by
  induction steps generalizing s with
  | nil => rfl
  | cons step steps ih => rw [performAll_cons, ih, perform_data, List.foldl_cons]

end FrameStep

/-! ## What look-ups find -/

theorem Frames.Fresh.variableIn {store : Frames} (fresh : store.Fresh) (name : String)
    (ids : List FrameId) :
    store.variableIn name ids = ids.findSome? fun id => (store.get id).lastDefinition name := by
  induction ids with
  | nil => rfl
  | cons id ids ih =>
    simp only [Frames.variableIn, List.findSome?_cons, (fresh id).definitionOf, ih]
    cases (store.get id).lastDefinition name <;> rfl

/-- The first definition of the name that a scan meets: in the frames from the innermost one on, and
    then in the same way in the environments that were captured. -/
def Environment.firstDefinition (env : Environment) (store : List FrameData) (name : String) :
    Option Variable :=
  env.allStacks.findSome? fun stack =>
    stack.findSome? fun id => (store.getD id FrameData.empty).lastDefinition name

theorem Frames.Fresh.resolve {store : Frames} (fresh : store.Fresh) (env : Environment)
    (name : String) : env.resolve store name = env.firstDefinition store.data name := by
  rw [Environment.resolve, fresh.variableIn, Environment.chain, Environment.firstDefinition]
  simp only [Frames.getD_data]
  induction env.allStacks with
  | nil => rfl
  | cons stack others ih =>
    rw [List.flatten_cons, List.findSome?_append, List.findSome?_cons, ih]
    cases stack.findSome? fun id => (store.get id).lastDefinition name <;> rfl

/-- Whatever was done with frames, there are as many nestings as rules, a splice replaces what it is
    told to and gives exactly the new rules the nesting it is told, and look-ups answer as scans of
    the rules do as they stand: in a frame the last definition of a name, and all callables that
    answer to it; in an environment the first definition on the way outwards. The steps are those on
    two lists side by side, and evaluation performs them on its frames. -/
theorem lookups_are_never_stale (setting : Setting) (steps : List FrameStep) :
    let store := steps.foldl FrameStep.act []
    let s := (FrameStep.performAll steps setting {}).2
    s.frames.data = store ∧
    (∀ d ∈ store, d.nestings.length = d.rules.length) ∧
    (∀ id d, store[id]? = some d → ∀ position remove rules nesting,
      let store' := FrameStep.act store (.spliceAt id position remove rules nesting)
      (∃ d', store'[id]? = some d' ∧ FrameData.Spliced position remove rules nesting d d') ∧
        ∀ other ≠ id, store'[other]? = store[other]?) ∧
    (∀ id d, store[id]? = some d → ∀ name,
      (consult id setting s).1 = .ok d.names ∧
      d.names.definitionOf name = d.lastDefinition name ∧
      d.names.callablesNamed name = d.answering name) ∧
    ∀ (env : Environment) name,
      (lookupIn name env.chain setting s).1 = .ok (env.resolve s.frames name) ∧
      env.resolve s.frames name = env.firstDefinition store name := by
  intro store s
  have fresh : s.frames.Fresh := FrameStep.fresh_after steps
  have data : s.frames.data = store := FrameStep.performAll_data steps
  have parallel : ∀ d ∈ store, d.Parallel := by
    rw [← data]
    intro d member
    obtain ⟨f, -, rfl⟩ := List.mem_map.mp member
    exact f.parallel
  refine ⟨data, parallel, ?_, ?_, ?_⟩
  · intro id d found position remove rules nesting
    refine ⟨⟨_, ?_, FrameData.spliceAt_spliced (parallel d (List.mem_of_getElem? found)) ..⟩, ?_⟩
    · simp [FrameStep.act, found]
    · intro other apart
      simp [FrameStep.act, Ne.symm apart]
  · intro id d found name
    obtain rfl : (s.frames.get id).toFrameData = d := by
      rw [← Frames.getD_data, data, List.getD_eq_getElem?_getD, found, Option.getD_some]
    exact ⟨(Eval.consult_ends id).outcome_eq, (fresh id).definitionOf name,
      (fresh id).callablesNamed name⟩
  · intro env name
    exact ⟨(lookupIn_ends name env.chain s).outcome_eq, data ▸ fresh.resolve env name⟩

/-- A definition is looked up, replaced by two others, and looked up again. -/
def redefinition : List FrameStep :=
  [.make [⟨.variable ⟨"x", .keyword "a", Span.none⟩, .written 0 [0]⟩] 0,
    .consult 0,
    .splice 0 0 1 [⟨.variable ⟨"x", .keyword "b", Span.none⟩, .written 1 [0]⟩,
      ⟨.variable ⟨"x", .keyword "c", Span.none⟩, .written 1 [1]⟩],
    .lookup { frames := [0] } "x"]

theorem redefinition_is_seen :
    let store := redefinition.foldl FrameStep.act []
    let store' := FrameStep.act store (.spliceAt 0 1 8 [] 3)
    ∃ d d', store[0]? = some d ∧ store'[0]? = some d' ∧ FrameData.Spliced 1 8 [] 3 d d' ∧
      d'.nestings = [0] ∧ d'.rules.length = 1 ∧
      (d.names.definitionOf "x").map (·.site) = some (.written 1 [1]) := by
  obtain ⟨-, -, splices, consults, -⟩ := lookups_are_never_stale {} redefinition
  have inside : ((redefinition.foldl FrameStep.act [])[0]?).isSome = true := by decide +kernel
  obtain ⟨d, found⟩ := Option.isSome_iff_exists.mp inside
  obtain ⟨⟨d', found', spliced⟩, -⟩ := splices 0 d found 1 8 [] 3
  have cut : ((FrameStep.act (redefinition.foldl FrameStep.act []) (.spliceAt 0 1 8 [] 3))[0]?).map
      (fun d => (d.nestings, d.rules.length)) = some ([0], 1) := by
    decide +kernel
  have scanned : ((redefinition.foldl FrameStep.act [])[0]?).bind
      (fun d => (d.lastDefinition "x").map (·.site)) = some (.written 1 [1]) := by
    decide +kernel
  simp only [found', Option.map_some, Option.some.injEq, Prod.mk.injEq] at cut
  refine ⟨d, d', found, found', spliced, cut.1, cut.2, ?_⟩
  rw [(consults 0 d found "x").2.1]
  simpa [found] using scanned

end StyleResolution
