import StyleResolution.Proofs.Scope.Blocks
import StyleResolution.Proofs.Selector.Instances
import StyleResolution.Proofs.Sheet.Origin

/-! # Rulesets have selectors

Every ruleset that is read has a selector, and each of its selectors has an element. Combining with
the selectors around it keeps that up, and replaces every `&`.
-/

namespace StyleResolution

namespace Selector

def Filled (selectors : List Selector) : Prop :=
  ∀ s ∈ selectors, s.elements ≠ []

instance (selectors : List Selector) : Decidable (Filled selectors) :=
  inferInstanceAs (Decidable (∀ s ∈ selectors, s.elements ≠ []))

/-! ## Reading selectors -/

theorem readCompound_ne_nil (combinator : Combinator) :
    (readCompound combinator).Results (· ≠ []) :=
  .bind fun _ => .bind fun _ => .pure (List.cons_ne_nil _ _)

theorem read_filled : read.Results (·.elements ≠ []) :=
  .bind fun _ => (readCompound_ne_nil _).andThen fun _ some => .bind fun _ =>
    .pure (List.append_ne_nil_of_left_ne_nil some _)

theorem readList_filled : readList.Results fun selectors => selectors ≠ [] ∧ Filled selectors :=
  read_filled.sepBy1

/-! ## Combining selectors -/

theorem fill_ne_nil (some : es ≠ []) (filled : Filled chosen) : fill es chosen ≠ [] := by
  cases es with
  | nil => exact absurd rfl some
  | cons e es =>
    unfold fill
    split
    · rename_i a later _
      have own : a.elements ≠ [] := filled a List.mem_cons_self
      exact List.append_ne_nil_of_left_ne_nil (by simpa using own) _
    · exact List.cons_ne_nil _ _

theorem any_isWildcard_modifyHead (same : ∀ e, (f e).isWildcard = e.isWildcard) (es : List Element) :
    (es.modifyHead f).any Element.isWildcard = es.any Element.isWildcard := by
  cases es <;> simp [same]

theorem any_isWildcard_fill (enough : es.countP Element.isWildcard ≤ chosen.length)
    (plain : ∀ a ∈ chosen, a.hasWildcard = false) :
    (fill es chosen).any Element.isWildcard = false := by
  induction es generalizing chosen with
  | nil => rfl
  | cons e es ih =>
    cases wildcard : e.isWildcard with
    | false =>
      rw [List.countP_cons_of_neg (by simp [wildcard])] at enough
      simp [fill, wildcard, ih enough plain]
    | true =>
      rw [List.countP_cons_of_pos wildcard] at enough
      cases chosen with
      | nil => simp at enough
      | cons a later =>
        have own : a.elements.any Element.isWildcard = false := plain a List.mem_cons_self
        have others := ih (Nat.le_of_succ_le_succ enough) fun b member =>
          plain b (List.mem_cons_of_mem a member)
        simp only [fill, wildcard, List.any_append, others, Bool.or_false]
        refine (any_isWildcard_modifyHead ?_ _).trans own
        exact fun _ => rfl

section Instances

variable {ancestors : List Selector} {s t : Selector}

theorem instances_ne_nil (nonempty : ancestors ≠ []) : instances ancestors s ≠ [] := by
  rw [ne_eq, ← List.length_eq_zero_iff, length_instances]
  exact (Nat.pow_pos (List.length_pos_iff.mpr nonempty)).ne'

theorem mem_of_chosen {choice : List Nat} (member : a ∈ choice.filterMap (ancestors[·]?)) :
    a ∈ ancestors := by
  obtain ⟨i, -, found⟩ := List.mem_filterMap.mp member
  exact List.mem_of_getElem? found

theorem elements_ne_nil_of_mem_instances (filled : Filled ancestors)
    (member : t ∈ instances ancestors s) : t.elements ≠ [] := by
  unfold instances at member
  split at member
  · obtain ⟨a, inside, rfl⟩ := List.mem_map.mp member
    exact List.append_ne_nil_of_left_ne_nil (filled a inside) _
  · rename_i some
    obtain ⟨choice, -, rfl⟩ := List.mem_map.mp member
    refine fill_ne_nil ?_ fun a chosen => filled a (mem_of_chosen chosen)
    intro none
    exact some (by simp [wildcardCount, none])

theorem hasWildcard_of_mem_instances (plain : ∀ a ∈ ancestors, a.hasWildcard = false)
    (member : t ∈ instances ancestors s) : t.hasWildcard = false := by
  unfold instances at member
  split at member
  · rename_i none
    obtain ⟨a, inside, rfl⟩ := List.mem_map.mp member
    have own : s.elements.any Element.isWildcard = false := by
      simpa [wildcardCount, List.countP_eq_zero] using none
    have front : a.elements.any Element.isWildcard = false := plain a inside
    simp only [hasWildcard, List.any_append, front, Bool.false_or]
    refine (any_isWildcard_modifyHead ?_ _).trans own
    exact fun _ => rfl
  · obtain ⟨choice, chosen, rfl⟩ := List.mem_map.mp member
    obtain ⟨long, inside⟩ := mem_choices.mp chosen
    -- All numbers of the choice are those of ancestors, so there is one for each `&`.
    have all : ∀ i ∈ choice, (ancestors[i]?).isSome = true := by
      simpa using inside
    have length : (choice.filterMap (ancestors[·]?)).length = s.wildcardCount := by
      rw [List.length_filterMap_eq_countP, List.countP_eq_length.mpr (by simpa using all), long]
    exact any_isWildcard_fill length.ge fun a chosen => plain a (mem_of_chosen chosen)

end Instances

section Combine

variable {ancestors current combined : List Selector} {limit : Nat}

theorem eq_instances_of_combine (nonempty : ancestors ≠ [])
    (ok : combine ancestors current limit = .ok combined) :
    combined = current.flatMap (instances ancestors) := by
  unfold combine at ok
  rw [if_neg (by simpa using nonempty), expandAll_eq nonempty] at ok
  split at ok
  · cases ok
  · split at ok <;> cases ok
    rfl

/-- Combining fails only if there are too many selectors, where all selectors around have elements. -/
theorem combine_ne_emptyAncestor (filled : Filled ancestors) :
    combine ancestors current limit ≠ .error .emptyAncestor := by
  unfold combine
  split
  · simp
  · rename_i some
    have hasElements : ancestors.any (·.elements.isEmpty) = false := by
      simpa [Filled] using filled
    rw [if_neg (by simp [hasElements]), expandAll_eq (by simpa using some)]
    split <;> simp

theorem combine_filled (around : Filled ancestors) (some : current ≠ []) (filled : Filled current)
    (ok : combine ancestors current limit = .ok combined) : combined ≠ [] ∧ Filled combined := by
  by_cases top : ancestors = []
  · simp only [combine, top, List.isEmpty_nil, if_true] at ok
    cases ok
    exact ⟨some, filled⟩
  · rw [eq_instances_of_combine top ok]
    constructor
    · obtain ⟨s, rest, rfl⟩ := List.exists_cons_of_ne_nil some
      exact List.append_ne_nil_of_left_ne_nil (instances_ne_nil top) _
    · intro t member
      obtain ⟨s, -, inside⟩ := List.mem_flatMap.mp member
      exact elements_ne_nil_of_mem_instances around inside

theorem combine_plain (nonempty : ancestors ≠ []) (plain : ∀ a ∈ ancestors, a.hasWildcard = false)
    (ok : combine ancestors current limit = .ok combined) : ∀ s ∈ combined, s.hasWildcard = false := by
  rw [eq_instances_of_combine nonempty ok]
  intro t member
  obtain ⟨s, -, inside⟩ := List.mem_flatMap.mp member
  exact hasWildcard_of_mem_instances plain inside

end Combine

end Selector

/-! ## Rules -/

namespace Rule

def Headed (r : Rule) : Prop :=
  ∀ selectors, r.selectors? = some selectors → selectors ≠ [] ∧ Selector.Filled selectors

/-- The rulesets among the rules, at whatever depth, have selectors with elements. -/
def AllHeaded (rules : List Rule) : Prop :=
  ∀ r ∈ partsOf rules, r.Headed

theorem Headed.plain {r : Rule} (none : r.selectors? = none) : r.Headed :=
  fun selectors isRuleset => by simp [none] at isRuleset

theorem Headed.ruleset {selectors : List Selector} (some : selectors ≠ [])
    (filled : Selector.Filled selectors) (rules : List Rule) (span : Span) :
    (Rule.ruleset selectors rules span).Headed := by
  rintro _ ⟨⟩
  exact ⟨some, filled⟩

namespace AllHeaded

theorem iff_parts : AllHeaded rules ↔ ∀ r ∈ rules, ∀ p ∈ r.parts, p.Headed := by
  constructor
  · exact fun h r member p part => h p (mem_partsOf.mpr ⟨r, member, part⟩)
  · intro h p inside
    obtain ⟨r, member, part⟩ := mem_partsOf.mp inside
    exact h r member p part

theorem nil : AllHeaded [] :=
  iff_parts.mpr (by simp)

theorem append (first : AllHeaded front) (second : AllHeaded back) : AllHeaded (front ++ back) := by
  rw [iff_parts] at first second ⊢
  exact List.forall_mem_append.mpr ⟨first, second⟩

theorem subset (h : AllHeaded rules) (within : others ⊆ rules) : AllHeaded others :=
  iff_parts.mpr fun r member => iff_parts.mp h r (within member)

theorem singleton (own : r.Headed) (inside : ∀ rules, r.block? = some rules → AllHeaded rules) :
    AllHeaded [r] := by
  refine iff_parts.mpr (List.forall_mem_singleton.mpr fun p part => ?_)
  cases r with
  | declaration | «variable» | call | fileImport | atStatement =>
    cases List.mem_singleton.mp part
    exact own
  | ruleset _ rules _ | mixin _ rules | media _ rules _ | atBlock _ _ rules _ =>
    cases List.mem_cons.mp part with
    | inl self =>
      rw [self]
      exact own
    | inr within => exact inside rules rfl p within

theorem declarations (ds : List Declaration) : AllHeaded (ds.map .declaration) := by
  rw [iff_parts]
  intro r member p part
  obtain ⟨d, -, rfl⟩ := List.mem_map.mp member
  cases List.mem_singleton.mp part
  exact .plain rfl

end AllHeaded

end Rule

theorem Eval.rulesetOf_headed (some : selectors ≠ []) (filled : Selector.Filled selectors)
    (body : Output) (span : Span) : Rule.AllHeaded (rulesetOf selectors body span) := by
  unfold rulesetOf
  split
  · exact .nil
  · refine .singleton (.ruleset some filled _ span) ?_
    rintro _ ⟨⟩
    exact .declarations body.declarations

theorem Eval.mediaBody_headed (filled : Selector.Filled selectors)
    (inside : Rule.AllHeaded body.rules) (span : Span) :
    Rule.AllHeaded (mediaBody selectors body span) := by
  refine .append ?_ (inside.subset (List.filter_subset_self _))
  split
  · exact .declarations body.declarations
  · rename_i some
    exact rulesetOf_headed (by simpa using some) filled body span

theorem Stylesheet.allHeaded_of_read {source : String} {file : Nat} {path : Option Path}
    {sheet : Stylesheet} (read : Stylesheet.read source file path = .ok sheet) :
    Rule.AllHeaded sheet.rules := by
  intro r member selectors isRuleset
  obtain ⟨s, rest, found⟩ := (readIn_of_read read r member).selectors selectors isRuleset
  exact Selector.readList_filled s selectors rest found

end StyleResolution
