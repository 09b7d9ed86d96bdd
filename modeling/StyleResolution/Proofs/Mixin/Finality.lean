import StyleResolution.Proofs.Mixin.Candidates
import StyleResolution.Proofs.Mixin.Matching
import StyleResolution.Proofs.Normal.Lasting
import StyleResolution.Proofs.Normal.Sheet

/-! # Values that cross a call

A call evaluates its arguments before they are bound, and the fallbacks of parameters that take none.
An expanded body exports its variables with their values. On both ways a value becomes a definition,
and is evaluated again where the definition is referred to. The value is final if it lasts.
-/

namespace StyleResolution

open Eval

theorem exists_of_forall₂ (related : List.Forall₂ R as bs) (member : b ∈ bs) : ∃ a ∈ as, R a b := by
  induction related with
  | nil => cases member
  | cons first _ ih =>
    rcases List.mem_cons.mp member with rfl | later
    · exact ⟨_, List.mem_cons_self, first⟩
    · obtain ⟨a, isLater, same⟩ := ih later
      exact ⟨a, List.mem_cons_of_mem _ isLater, same⟩

namespace Mixin

variable {params : List Param} {args : List Argument} {P : Value → Prop}

theorem slotAt_mem (holds : slotAt params args i = some v) : v ∈ args.map (·.value) := by
  rw [slotAt, Option.or_eq_some_iff] at holds
  rcases holds with named | ⟨-, positional⟩
  · obtain ⟨a, last, rfl⟩ := Option.map_eq_some_iff.mp named
    exact List.mem_map_of_mem (List.mem_of_mem_filter (List.mem_of_getLast? last))
  · split at positional
    · have member := List.mem_of_getElem? positional
      obtain ⟨a, inside, rfl⟩ := List.mem_map.mp member
      exact List.mem_map_of_mem (List.mem_of_mem_filter inside)
    · cases positional

theorem leftover_mem (member : v ∈ leftover params args) : v ∈ args.map (·.value) := by
  obtain ⟨a, inside, rfl⟩ := List.mem_map.mp (List.mem_of_mem_drop member)
  exact List.mem_map_of_mem (List.mem_of_mem_filter inside)

theorem bind_eq_ok (bound : bind params args = .ok binding) :
    binding = ⟨(params.mapIdx (boundAt params args)).flatten, args.map (·.value)⟩ := by
  cases assigned : assign params args with
  | error f =>
    unfold bind at bound
    rw [assigned] at bound
    cases bound
  | ok a =>
    obtain ⟨-, rfl⟩ := assign_iff_fits.mp assigned
    rw [bind_of_assign assigned] at bound
    cases bound
    rfl

theorem supplied_of_boundAt (member : (name, .supplied v) ∈ boundAt params args i p) :
    v ∈ args.map (·.value) ∨
      ∃ items, v = .spaceList items ∧ ∀ item ∈ items, item ∈ args.map (·.value) := by
  cases p with
  | positional n =>
    obtain ⟨w, holds, same⟩ := List.mem_map.mp member
    cases same
    exact .inl (slotAt_mem (Option.mem_toList.mp holds))
  | named n fallback =>
    rw [boundAt, List.mem_singleton] at member
    cases holds : slotAt params args i with
    | none =>
      rw [holds] at member
      cases member
    | some w =>
      rw [holds] at member
      cases member
      exact .inl (slotAt_mem holds)
  | pattern expected => cases member
  | «variadic» n =>
    cases n with
    | none => cases member
    | some n =>
      cases List.mem_singleton.mp member
      exact .inr ⟨_, rfl, fun _ => leftover_mem⟩

theorem supplied_of_bind (bound : bind params args = .ok binding)
    (member : (name, .supplied v) ∈ binding.bindings) : v ∈ args.map (·.value) ∨
      ∃ items, v = .spaceList items ∧ ∀ item ∈ items, item ∈ args.map (·.value) := by
  rw [bind_eq_ok bound, List.mem_flatten] at member
  obtain ⟨own, isOwn, inside⟩ := member
  obtain ⟨i, _, rfl⟩ := List.mem_mapIdx.mp isOwn
  exact supplied_of_boundAt inside

end Mixin

/-! ## Definitions for parameters -/

theorem Frame.rules_push (f : Frame) (p : Placed) : (f.push p).rules = f.rules ++ [p] := by
  rw [← map_toPlaced_entries, entries_push, List.map_append, map_toPlaced_entries]
  rfl

def Mixin.Bound.Means (setting : Setting) (env : Environment) : Mixin.Bound → Value → Prop
  | .supplied v, w => w = v
  | .fallback v, w => ∃ s t, Eval.value env v setting s = (.ok w, t)

namespace Eval

variable {setting : Setting} {s t : Evaluation}

theorem boundValue_means (run : boundValue params scope caller bound setting s = (.ok w, t)) :
    bound.Means setting ((scope.push params).capture caller) w ∧ Quiet s t := by
  cases bound with
  | supplied v =>
    cases run
    exact ⟨rfl, .refl s⟩
  | fallback v =>
    have keeps : Keeps setting Quiet (value ((scope.push params).capture caller) v) :=
      value_quiet _ v
    have quiet := keeps s
    rw [boundValue] at run
    rw [run] at quiet
    exact ⟨⟨s, t, run⟩, quiet⟩

theorem define_rules {id : FrameId} (inside : id < s.frames.size) {name : String} {v : Value}
    {span : Span} (run : define id name v span setting s = (.ok (), t)) :
    id < t.frames.size ∧ (t.frames.get id).rules.map (·.rule) =
      (s.frames.get id).rules.map (·.rule) ++ [.variable ⟨name, v, span⟩] := by
  cases run
  refine ⟨Nat.lt_of_lt_of_eq inside (Frames.size_modify ..).symm, ?_⟩
  change ((s.frames.modify id _).get id).rules.map _ = _
  rw [Frames.get_modify_self inside, Frame.rules_push, List.map_append]
  rfl

theorem defineParams_rules {id : FrameId} {scope caller : Environment} {span : Span}
    {bindings : List (String × Mixin.Bound)} (inside : id < s.frames.size)
    (run : defineParams id scope caller span bindings setting s = (.ok (), t)) :
    id < t.frames.size ∧ ∃ values : List Value,
      List.Forall₂ (fun b w => b.2.Means setting ((scope.push id).capture caller) w) bindings values ∧
      (t.frames.get id).rules.map (·.rule) = (s.frames.get id).rules.map (·.rule) ++
        List.zipWith (fun b w => .variable ⟨b.1, w, span⟩) bindings values := by
  induction bindings generalizing s with
  | nil =>
    cases run
    exact ⟨inside, [], .nil, by simp⟩
  | cons b rest ih =>
    obtain ⟨name, bound⟩ := b
    obtain ⟨w, u, valued, later⟩ := bind_eq_ok run
    obtain ⟨_, v, defined, last⟩ := bind_eq_ok later
    obtain ⟨means, quiet⟩ := boundValue_means valued
    obtain ⟨insideThen, rules⟩ := define_rules (quiet.size ▸ inside) defined
    obtain ⟨insideLast, values, meant, allRules⟩ := ih insideThen last
    refine ⟨insideLast, w :: values, .cons means meant, ?_⟩
    rw [allRules, rules, (quiet.frame id).rules]
    simp

/-- The frame of the parameters defines them in order, and then `@arguments`. -/
theorem parameterFrame_rules {binding : Mixin.Binding} {scope caller : Environment} {span : Span}
    {id : FrameId} (run : parameterFrame binding scope caller span setting s = (.ok id, t)) :
    ∃ values : List Value,
      List.Forall₂ (fun b w => b.2.Means setting ((scope.push id).capture caller) w)
        binding.bindings values ∧
      (t.frames.get id).rules.map (·.rule) =
        List.zipWith (fun b w => .variable ⟨b.1, w, span⟩) binding.bindings values ++
          [.variable ⟨"arguments", .spaceList binding.arguments, span⟩] := by
  obtain ⟨new, u, added, later⟩ := bind_eq_ok run
  obtain ⟨_, v, defined, later⟩ := bind_eq_ok later
  obtain ⟨_, w, last, result⟩ := bind_eq_ok later
  cases result
  cases added
  have inside : s.frames.size < (s.frames.add Frame.empty).2.size := by simp
  obtain ⟨insideThen, values, meant, rules⟩ := defineParams_rules inside defined
  obtain ⟨-, allRules⟩ := define_rules insideThen last
  refine ⟨values, meant, ?_⟩
  have new : (((s.frames.add Frame.empty).2.get s.frames.size).rules).map (·.rule) =
      [] := by
    rw [Frames.get_add_self]
    rfl
  rw [allRules, rules]
  exact congrArg (· ++ _ ++ _) new

theorem evaluateArguments_values (run : evaluateArguments env given setting s = (.ok args, t)) :
    List.Forall₂ (fun a b => b.name = a.name ∧
      ∃ s' t', value env a.value setting s' = (.ok b.value, t')) given args := by
  induction given generalizing s t args with
  | nil =>
    cases run
    exact .nil
  | cons a given ih =>
    obtain ⟨b, u, first, later⟩ := bind_eq_ok run
    obtain ⟨bs, v, rest, result⟩ := bind_eq_ok later
    obtain ⟨w, u', valued, named⟩ := bind_eq_ok first
    cases named
    cases result
    exact .cons ⟨rfl, s, _, valued⟩ (ih rest)

/-! ## Exported definitions -/

theorem dereference_gives (closed : Closed setting V) (env : Environment) (v : Variable) :
    Gives setting V (dereference env v) :=
  .bind (.any _) fun n _ => dereferenceWithin_gives closed env (n + 2) v

theorem exportsOf_variables (run : exportsOf env entries setting s = (.ok rules, t)) :
    ∃ values : List Value,
      List.Forall₂ (fun v w => ∃ s' t', dereference env v setting s' = (.ok w, t'))
        (entries.filterMap (·.asVariable)) values ∧
      (rules.filterMap (·.asVariable)).map (·.definition) =
        List.zipWith (fun v w => ⟨v.definition.name, w, v.definition.span⟩)
          (entries.filterMap (·.asVariable)) values := by
  induction entries generalizing s t rules with
  | nil =>
    cases run
    exact ⟨[], .nil, rfl⟩
  | cons e entries ih =>
    unfold exportsOf at run
    cases isRule : e.rule with
    | «variable» d =>
      simp only [isRule] at run
      obtain ⟨w, u, valued, later⟩ := bind_eq_ok run
      obtain ⟨site, u', made, later⟩ := bind_eq_ok later
      obtain ⟨others, u'', rest, result⟩ := bind_eq_ok later
      cases result
      obtain ⟨values, meant, definitions⟩ := ih rest
      have own : e.asVariable = some ⟨d, e.site⟩ := by rw [Placed.asVariable, isRule]
      refine ⟨w :: values, ?_, ?_⟩
      · simp only [List.filterMap_cons, own]
        exact .cons ⟨s, u, valued⟩ meant
      · simp only [List.filterMap_cons, own, List.zipWith_cons_cons, ← definitions]
        rfl
    | mixin head body =>
      simp only [isRule] at run
      obtain ⟨others, u, rest, result⟩ := bind_eq_ok run
      cases result
      have other : e.asVariable = none := by rw [Placed.asVariable, isRule]
      simp only [List.filterMap_cons, other]
      exact ih rest
    | _ =>
      simp only [isRule] at run
      have other : e.asVariable = none := by rw [Placed.asVariable, isRule]
      simp only [List.filterMap_cons, other]
      exact ih run

end Eval

/-- A value that crosses a call as an argument, a fallback or an exported variable becomes a
    definition of its own. The definition is final if and only if the value lasts: if it has
    no closed hole in a string, and every operation in it is stuck or stays outside parentheses under
    strict math. In particular, without strict math or without operations in parentheses a value is
    final if its strings have no closed holes. -/
theorem crossing_values_are_final_if_they_last (setting : Setting)
    (library : setting.LibraryLasts) :
    (∀ w : Value, w.Final setting ↔ w.Lasting setting false) ∧
    (∀ (env : Environment) (given args : List Argument) (params : List Param)
      (binding : Mixin.Binding) (scope : Environment) (span : Span) (id : FrameId)
      (s s' t t' : Evaluation),
      evaluateArguments env given setting s = (.ok args, s') →
      Mixin.bind params args = .ok binding →
      parameterFrame binding scope env span setting t = (.ok id, t') →
      ∃ values : List Value,
        List.Forall₂ (fun a b => b.name = a.name ∧
          ∃ u u', value env a.value setting u = (.ok b.value, u')) given args ∧
        List.Forall₂ (fun b w => b.2.Means setting ((scope.push id).capture env) w)
          binding.bindings values ∧
        (t'.frames.get id).rules.map (·.rule) =
          List.zipWith (fun b w => .variable ⟨b.1, w, span⟩) binding.bindings values ++
            [.variable ⟨"arguments", .spaceList (args.map (·.value)), span⟩] ∧
        ∀ w ∈ .spaceList (args.map (·.value)) :: values, w.isFilled = true →
          setting.options.strictMath = false ∨ w.calculates false = false → w.Final setting) ∧
    ∀ (env : Environment) (entries : List Entry) (rules : List Placed) (s s' : Evaluation),
      exportsOf env entries setting s = (.ok rules, s') →
      ∃ values : List Value,
        List.Forall₂ (fun v w => ∃ u u', dereference env v setting u = (.ok w, u'))
          (entries.filterMap (·.asVariable)) values ∧
        (rules.filterMap (·.asVariable)).map (·.definition) =
          List.zipWith (fun v w => ⟨v.definition.name, w, v.definition.span⟩)
            (entries.filterMap (·.asVariable)) values ∧
        ∀ w ∈ values, w.isFilled = true →
          setting.options.strictMath = false ∨ w.calculates false = false → w.Final setting := by
  have closed := Value.closed_evaluated library
  have final : ∀ w : Value, w.Evaluated setting → w.isFilled = true →
      setting.options.strictMath = false ∨ w.calculates false = false → w.Final setting :=
    fun w evaluated filled steady => (evaluated.lasts filled steady).final
  refine ⟨fun w => ⟨fun isFinal => isFinal.lasting library, Value.Lasting.final⟩, ?_, ?_⟩
  · intro env given args params binding scope span id s s' t t' evaluated bound framed
    have arguments := evaluateArguments_values evaluated
    obtain ⟨values, meant, rules⟩ := parameterFrame_rules framed
    have fromArguments : ∀ v ∈ args.map (·.value), v.Evaluated setting := by
      intro v member
      obtain ⟨b, isArgument, rfl⟩ := List.mem_map.mp member
      obtain ⟨a, -, -, u, u', run⟩ := exists_of_forall₂ arguments isArgument
      exact (value_gives closed env a.value).result run
    have fromBindings : ∀ w ∈ values, w.Evaluated setting := by
      intro w member
      obtain ⟨⟨name, b⟩, isBinding, means⟩ := exists_of_forall₂ meant member
      cases b with
      | fallback v =>
        obtain ⟨u, u', run⟩ := means
        exact (value_gives closed _ v).result run
      | supplied v =>
        cases means
        rcases Mixin.supplied_of_bind bound isBinding with isArgument | ⟨items, rfl, areArguments⟩
        · exact fromArguments _ isArgument
        · exact .list fun item isItem => fromArguments item (areArguments item isItem)
    refine ⟨values, arguments, meant, by rwa [Mixin.bind_eq_ok bound] at rules ⊢, ?_⟩
    intro w member
    refine final w ?_
    rcases List.mem_cons.mp member with rfl | isValue
    · exact .list fromArguments
    · exact fromBindings w isValue
  · intro env entries rules s s' exported
    obtain ⟨values, meant, definitions⟩ := exportsOf_variables exported
    refine ⟨values, meant, definitions, fun w member => final w ?_⟩
    obtain ⟨v, -, u, u', run⟩ := exists_of_forall₂ meant member
    exact (dereference_gives closed env v).result run

theorem libraryLasts_of_none (options : Options) (loader : Sources) :
    Setting.LibraryLasts { options, loader } := by
  intro name args result given
  cases given

/-- A hole that is opened and not closed is text. -/
theorem unclosed_hole_is_final :
    Setting.LibraryLasts {} ∧ (Value.quoted "@\x7bb" none).Final {} := by
  have library := libraryLasts_of_none {} ({} : Loader)
  refine ⟨library, ((crossing_values_are_final_if_they_last {} library).1 _).mpr ?_⟩
  exact .quoted none (by decide)

def defining (name : String) (v : Value) : Evaluation :=
  { frames := ⟨#[Frame.ofBlock (.written 0 []) [.variable ⟨name, v, Span.none⟩] 0]⟩ }

/-- An at-sign that is filled in may open a hole, which is filled in turn when the string is referred
    to. Under strict math, a sum that a variable stands for is kept, and calculated once it has come
    to stand in parentheses. -/
theorem reopened_hole_and_kept_sum_are_not_final :
    (((value ⟨[0], []⟩ (.quoted "@\x7bat\x7d\x7bb\x7d" (some '"')) {}
        (defining "at" (.quoted "@" (some '"')))).1.toOption.map Value.text) =
        some "\"@\x7bb\x7d\"" ∧
      ¬ (Value.quoted "@\x7bb\x7d" (some '"')).Final {}) ∧
    ∀ a b : Float,
      (∃ t, value ⟨[0], []⟩ (.paren (.variable "sum")) { options := { strictMath := true } }
        (defining "sum" (.operation .add (.number a) (.number b))) =
          (.ok (.paren (.operation .add (.number a) (.number b))), t)) ∧
      ¬ (Value.paren (.operation .add (.number a) (.number b))).Final
        { options := { strictMath := true } } := by
  refine ⟨⟨by decide +kernel, fun final => ?_⟩, fun a b => ⟨⟨_, rfl⟩, fun final => ?_⟩⟩
  · cases final.lasting (libraryLasts_of_none {} ({} : Loader)) with
    | quoted _ unsplit => exact absurd unsplit (by decide)
  · cases final.lasting (libraryLasts_of_none { strictMath := true } ({} : Loader)) with
    | paren inner _ =>
      cases inner with
      | operation _ _ kept =>
        rcases kept with outside | stuck
        · cases outside.1
        · cases stuck.1

end StyleResolution
