import Mathlib.Data.List.Basic
import StyleResolution.Proofs.Mixin.Candidates

/-! # The closures of exported mixins

A mixin that an expansion exported is found with a closure: the frames of that expansion, or the
closure that it had in the exporting body already. Closures are kept per definition and not per
entry. All expansions of a mixin share the definitions in its body, so where a frame takes exports
from several of them, the newest closure of a definition counts for all its entries.
-/

namespace StyleResolution

open Eval

theorem Frame.prependExports_closureOf (f : Frame) (rules : List Placed) (closure : List FrameId)
    (source : Frame) (site : Site) :
    (f.prependExports rules closure source).closureOf site =
      if ∃ p ∈ rules, FrameData.isMixin p.rule = true ∧ p.site = site then
        some ((source.closureOf site).getD closure)
      else f.closureOf site := by
  rw [FrameData.closureOf, prependExports_closures, List.lookup_append]
  split
  · rename_i exported
    obtain ⟨p, member, mixin, rfl⟩ := exported
    -- all entries of one definition take the same closure
    have among : p.site ∈ ((rules.filter fun p => FrameData.isMixin p.rule).map (·.site)).reverse := by
      simpa using ⟨p, ⟨member, mixin⟩, rfl⟩
    have graph := List.lookup_graph (fun site => (source.closureOf site).getD closure) among
    rw [List.map_reverse, List.map_map] at graph
    exact congrArg (Option.or · _) graph
  · rename_i apart
    have unknown : (((rules.filter fun p => FrameData.isMixin p.rule).map fun p =>
        (p.site, (source.closureOf p.site).getD closure)).reverse).lookup site = none := by
      simp only [List.lookup_eq_none_iff, List.mem_reverse, List.mem_map, List.mem_filter]
      rintro _ ⟨p, ⟨member, mixin⟩, rfl⟩
      exact bne_iff_ne.mpr fun same => apart ⟨p, member, mixin, same.symm⟩
    rw [unknown]
    rfl

theorem Frame.mem_rules_spliceAt {f : Frame} (member : p ∈ f.rules) (position : Nat)
    (rules : List Placed) (nesting : Nat) : p ∈ (f.spliceAt position 0 rules nesting).rules := by
  dsimp only [Frame.spliceAt]
  rw [(FrameData.spliceAt_spliced f.parallel position 0 rules nesting).rules, Nat.add_zero]
  rw [← List.take_append_drop (min position f.size) f.rules, List.mem_append] at member
  simp only [List.mem_append]
  tauto

theorem Frame.mem_rules_prependExports {f : Frame} {p : Placed} {rules : List Placed}
    (member : p ∈ rules ∨ p ∈ f.rules) (closure : List FrameId) (source : Frame) :
    p ∈ (f.prependExports rules closure source).rules := by
  rw [prependExports_rules, List.mem_append]
  exact member

theorem Frames.get_modify {store : Frames} {id : FrameId} (inside : id < store.size)
    (target : FrameId) (change : Frame → Frame) :
    (store.modify target change).get id = if target = id then change (store.get id) else store.get id := by
  split
  · rename_i same
    exact same ▸ Frames.get_modify_self (same ▸ inside) change
  · rename_i apart
    exact Frames.get_modify_of_ne store (Ne.symm apart) change

namespace FrameStep

variable {setting : Setting} {id : FrameId} {site : Site} {s : Evaluation}

def closes (id : FrameId) (site : Site) (s : Evaluation) : FrameStep → Option (List FrameId)
  | .prependExports target rules closure source =>
    if target = id ∧ ∃ p ∈ rules, FrameData.isMixin p.rule = true ∧ p.site = site then
      some (((s.frames.get source).closureOf site).getD closure)
    else none
  | _ => none

/-- The closure that the last of the steps to export a mixin to a frame gives it. -/
def newestClosure (setting : Setting) (id : FrameId) (site : Site) :
    Evaluation → List FrameStep → Option (List FrameId)
  | _, [] => none
  | s, step :: steps =>
    (newestClosure setting id site (step.perform setting s).2 steps).or (step.closes id site s)

/-- Whether the step may remove rules from the frame. -/
def removesFrom (id : FrameId) : FrameStep → Bool
  | .splice target _ _ _ | .spliceAt target _ _ _ _ => target == id
  | _ => false

def change (id : FrameId) (s : Evaluation) (f : Frame) : FrameStep → Frame
  | .splice target position remove rules =>
    if target = id then f.splice position remove rules else f
  | .spliceAt target position remove rules nesting =>
    if target = id then f.spliceAt position remove rules nesting else f
  | .push target rule => if target = id then f.push rule else f
  | .prepend target rules => if target = id then f.prepend rules else f
  | .prependExports target rules closure source =>
    if target = id then f.prependExports rules closure (s.frames.get source) else f
  | .make _ _ | .consult _ | .lookup _ _ => f

theorem perform_frame (step : FrameStep) (setting : Setting) (inside : id < s.frames.size) :
    id < (step.perform setting s).2.frames.size ∧
      (step.change id s (s.frames.get id)).Indexed ((step.perform setting s).2.frames.get id) := by
  cases step with
  | make rules nesting =>
    refine ⟨?_, .inl (Frames.get_add_of_lt inside _)⟩
    exact Nat.lt_of_lt_of_eq (Nat.lt_succ_of_lt inside) (Frames.size_add s.frames _).symm
  | consult other =>
    have quiet : Eval.Keeps setting Quiet (FrameStep.consult other).perform :=
      Eval.Keeps.bind (consult_quiet other) fun _ => Eval.Keeps.pure ()
    exact ⟨(quiet s).size ▸ inside, (quiet s).frame id⟩
  | lookup env name =>
    have quiet : Eval.Keeps setting Quiet (FrameStep.lookup env name).perform :=
      Eval.Keeps.bind (values_quiet.lookupIn name env.chain) fun _ => Eval.Keeps.pure ()
    exact ⟨(quiet s).size ▸ inside, (quiet s).frame id⟩
  | splice | spliceAt | push | prepend | prependExports =>
    exact ⟨Nat.lt_of_lt_of_eq inside (Frames.size_modify ..).symm, .inl (Frames.get_modify inside ..)⟩

theorem change_closureOf (step : FrameStep) (f : Frame) :
    (step.change id s f).closureOf site = (step.closes id site s).or (f.closureOf site) := by
  cases step with
  | prependExports target rules closure source =>
    simp only [change, closes]
    by_cases here : target = id
    · rw [if_pos here, Frame.prependExports_closureOf]
      simp only [here, true_and]
      split <;> rfl
    · rw [if_neg here, if_neg fun both => here both.1]
      rfl
  | splice | spliceAt | push =>
    simp only [change]
    split <;> rfl
  | prepend target rules =>
    simp only [change, Frame.prepend_eq]
    split
    · split <;> rfl
    · rfl
  | _ => rfl

theorem mem_change_rules {step : FrameStep} (keeps : step.removesFrom id = false) {f : Frame}
    (member : p ∈ f.rules) : p ∈ (step.change id s f).rules := by
  cases step with
  | splice target | spliceAt target =>
    have apart : target ≠ id := by simpa [removesFrom] using keeps
    simpa only [change, if_neg apart] using member
  | push target rule =>
    simp only [change]
    split
    · exact Frame.mem_rules_spliceAt member ..
    · exact member
  | prepend target rules =>
    simp only [change, Frame.prepend_eq]
    split
    · split
      · exact member
      · exact Frame.mem_rules_spliceAt member ..
    · exact member
  | prependExports target rules closure source =>
    simp only [change]
    split
    · exact Frame.mem_rules_prependExports (.inr member) closure _
    · exact member
  | _ => exact member

/-- After any steps, a mixin of a frame has the closure that the last export of it to the frame gave
    it, and otherwise the one it had. -/
theorem performAll_closureOf (steps : List FrameStep) (inside : id < s.frames.size) :
    ((performAll steps setting s).2.frames.get id).closureOf site =
      (newestClosure setting id site s steps).or ((s.frames.get id).closureOf site) := by
  induction steps generalizing s with
  | nil => rfl
  | cons step steps ih =>
    obtain ⟨insideThen, changed⟩ := step.perform_frame setting inside
    rw [performAll_cons, ih insideThen, FrameData.closureOf, changed.closures, ← FrameData.closureOf,
      change_closureOf, newestClosure, Option.or_assoc]

theorem mem_performAll_rules (keep : ∀ step ∈ steps, step.removesFrom id = false)
    (inside : id < s.frames.size) (member : p ∈ (s.frames.get id).rules) :
    p ∈ ((performAll steps setting s).2.frames.get id).rules := by
  induction steps generalizing s with
  | nil => exact member
  | cons step steps ih =>
    obtain ⟨insideThen, changed⟩ := step.perform_frame setting inside
    rw [performAll_cons]
    refine ih (fun later isLater => keep later (List.mem_cons_of_mem _ isLater)) insideThen ?_
    rw [changed.rules]
    exact mem_change_rules (keep step List.mem_cons_self) member

end FrameStep

theorem Eval.searchFrame_single {setting : Setting} {s : Evaluation} {id : FrameId}
    (fresh : (s.frames.get id).Fresh) (name : String) :
    (searchFrame [name] id setting s).1 =
      .ok (((s.frames.get id).answering name).map fun c => ⟨c, closureIn (s.frames.get id) c⟩) := by
  apply Ends.outcome_eq
  refine Ends.bind ((consult_ends id).and ((consult_quiet id).ends setting s)) ?_
    fun _ _ never => never.1
  rintro index t ⟨rfl, quiet⟩
  refine .ofState (.pure ?_)
  rw [fresh.callablesNamed]
  refine List.map_congr_left fun c _ => ?_
  cases c with
  | mixin site head rules => simp only [closureIn, FrameData.closureOf, (quiet.frame id).closures]
  | ruleset site selectors rules => rfl

/-- A mixin that was exported to a frame is found there as long as it is not removed, with the
    closure that the last export of its definition to the frame gave it. So it is found with the
    closure of its own expansion, or the one it had before, if and only if no later export of the
    same definition to the frame comes with another one. -/
theorem exported_mixins_take_the_newest_closure (setting : Setting) (earlier later : List FrameStep)
    (id source : FrameId) (rules : List Placed) (closure : List FrameId) (p : Placed)
    (head : MixinHead) (body : List Rule)
    (inside : id < (FrameStep.performAll earlier setting {}).2.frames.size)
    (member : p ∈ rules) (isMixin : p.rule = .mixin head body)
    (keep : ∀ step ∈ later, step.removesFrom id = false) :
    let s := (FrameStep.performAll earlier setting {}).2
    let own := ((s.frames.get source).closureOf p.site).getD closure
    let exported := ((FrameStep.prependExports id rules closure source).perform setting s).2
    let newest := FrameStep.newestClosure setting id p.site exported later
    ∃ found, (searchFrame [head.name] id setting
        (FrameStep.performAll later setting exported).2).1 = .ok found ∧
      (∃ r ∈ found, r.callable = .mixin p.site head body) ∧
      (∀ r ∈ found, r.callable = .mixin p.site head body → r.between = newest.getD own) ∧
      ((∀ r ∈ found, r.callable = .mixin p.site head body → r.between = own) ↔
        ∀ other, newest = some other → other = own) := by
  intro s own exported newest
  let f := (FrameStep.performAll later setting exported).2.frames.get id
  have fresh : f.Fresh := FrameStep.performAll_refreshes later exported
    (FrameStep.perform_refreshes _ s (FrameStep.fresh_after earlier)) id
  obtain ⟨insideThen, changed⟩ :=
    (FrameStep.prependExports id rules closure source).perform_frame setting inside
  rw [FrameStep.change, if_pos rfl] at changed
  have takes : f.closureOf p.site = some (newest.getD own) := by
    rw [FrameStep.performAll_closureOf later insideThen, FrameData.closureOf, changed.closures,
      ← FrameData.closureOf, Frame.prependExports_closureOf,
      if_pos ⟨p, member, by rw [isMixin]; rfl, rfl⟩]
    exact Option.or_some
  have stays : p ∈ f.rules := by
    refine FrameStep.mem_performAll_rules keep insideThen ?_
    rw [changed.rules]
    exact Frame.mem_rules_prependExports (.inl member) closure _
  have answers : p.answering head.name = some (.mixin p.site head body) := by
    simp only [Placed.answering, isMixin, if_true]
  have found := List.mem_map_of_mem (f := fun c => (⟨c, closureIn f c⟩ : Reached))
    (List.mem_filterMap.mpr ⟨p, stays, answers⟩)
  have between : ∀ r ∈ (f.answering head.name).map fun c => (⟨c, closureIn f c⟩ : Reached),
      r.callable = .mixin p.site head body → r.between = newest.getD own := by
    intro r reached same
    obtain ⟨c, -, rfl⟩ := List.mem_map.mp reached
    subst same
    rw [closureIn, takes, Option.getD_some]
  refine ⟨_, searchFrame_single fresh head.name, ⟨_, found, rfl⟩, between, ?_, ?_⟩
  · intro keepsOwn other isNewest
    have same := (between _ found rfl).symm.trans (keepsOwn _ found rfl)
    rwa [isNewest] at same
  · intro unchanged r reached same
    rw [between r reached same]
    cases isNewest : newest with
    | none => rfl
    | some other => exact unchanged other isNewest

/-- `.inner() { }`, a definition in the body of a mixin. -/
def innerMixin : Placed :=
  ⟨.mixin ⟨".inner", [], none, Span.none⟩ [], .written 0 [0, 0]⟩

/-- `.other() { }`, another definition there. -/
def otherMixin : Placed :=
  ⟨.mixin ⟨".other", [], none, Span.none⟩ [], .written 0 [1, 0]⟩

/-- An export of another definition, and a look-up, leave the closure as it is. -/
theorem innerMixin_keeps_its_closure :
    ∃ found, (searchFrame [".inner"] 0 {} (FrameStep.performAll
        [.make [] 0, .prependExports 0 [innerMixin] [1, 2] 1, .prependExports 0 [otherMixin] [3, 4] 3,
          .consult 0] {} {}).2).1 = .ok found ∧
      (∃ r ∈ found, r.callable = .mixin (.written 0 [0, 0]) ⟨".inner", [], none, Span.none⟩ []) ∧
      ∀ r ∈ found, r.callable = .mixin (.written 0 [0, 0]) ⟨".inner", [], none, Span.none⟩ [] →
        r.between = [1, 2] := by
  obtain ⟨found, searched, reached, -, own⟩ := exported_mixins_take_the_newest_closure {}
    [.make [] 0] [.prependExports 0 [otherMixin] [3, 4] 3, .consult 0] 0 1 [innerMixin] [1, 2]
    innerMixin ⟨".inner", [], none, Span.none⟩ [] (by decide +kernel) List.mem_cons_self rfl
    (by decide)
  refine ⟨found, searched, reached, own.mpr fun other newest => ?_⟩
  have untouched : FrameStep.newestClosure {} 0 innerMixin.site
      ((FrameStep.prependExports 0 [innerMixin] [1, 2] 1).perform {}
        (FrameStep.performAll [.make [] 0] {} {}).2).2
      [.prependExports 0 [otherMixin] [3, 4] 3, .consult 0] = none := by
    decide +kernel
  cases untouched.symm.trans newest

/-- Two expansions export the same definition. The entry of the first one is found with the closure
    of the second one. -/
theorem innerMixin_loses_its_closure :
    ((searchFrame [".inner"] 0 {} (FrameStep.performAll
        [.make [] 0, .prependExports 0 [innerMixin] [1, 2] 1,
          .prependExports 0 [innerMixin] [3, 4] 3] {} {}).2).1.toOption.map
      (·.map fun r => (r.callable.site, r.between))) =
        some [(.written 0 [0, 0], [3, 4]), (.written 0 [0, 0], [3, 4])] := by
  decide +kernel

end StyleResolution
