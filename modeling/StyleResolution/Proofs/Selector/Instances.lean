import Mathlib.Algebra.BigOperators.Group.List.Basic
import Mathlib.Algebra.Order.Ring.Nat
import StyleResolution.Selector.Combination

/-! # Combination is substitution

What a nested selector stands for can be said without partial selectors and without a limit. A
selector with `&` stands for its instances: an ancestor is chosen for every `&`, independently of the
others, and put in its place. A selector without `&` stands for itself behind each ancestor.

Combining selectors gives all instances in order, unless there are more than the limit allows. The
limit is checked while instances are still being built, but as there is at least one ancestor, their
number never decreases, so that only the total matters.
-/

namespace StyleResolution.Selector

/-! ## Instances -/

/-- All ways to choose one of `count` things `n` times, each thing given by its number. -/
def choices (count : Nat) : Nat → List (List Nat)
  | 0 => [[]]
  | n + 1 => (List.range count).flatMap fun first => (choices count n).map (first :: ·)

/-- The elements, where each `&` is replaced by the elements of the next selector. The first one of
    these takes the combinator of the `&`. -/
def fill : List Element → List Selector → List Element
  | [], _ => []
  | e :: es, chosen =>
    match e.isWildcard, chosen with
    | true, a :: later =>
      a.elements.modifyHead (fun first => { first with combinator := e.combinator }) ++ fill es later
    | _, _ => e :: fill es chosen

def instanceAt (ancestors : List Selector) (s : Selector) (choice : List Nat) : Selector :=
  ⟨fill s.elements (choice.filterMap (ancestors[·]?))⟩

def led (e : Element) : Element :=
  { e with combinator := if e.combinator = .attached then .descendant else e.combinator }

/-- All that a nested selector stands for. -/
def instances (ancestors : List Selector) (s : Selector) : List Selector :=
  if s.wildcardCount = 0 then ancestors.map fun a => ⟨a.elements ++ s.elements.modifyHead led⟩
  else (choices ancestors.length s.wildcardCount).map (instanceAt ancestors s)

/-- The number of instances of a selector, given the number of ancestors. -/
def instanceCount (ancestors : Nat) (s : Selector) : Nat :=
  ancestors ^ max 1 s.wildcardCount

/-! ## Choices -/

theorem mem_choices : choice ∈ choices count n ↔ choice.length = n ∧ ∀ i ∈ choice, i < count := by
  induction n generalizing choice with
  | zero =>
    simp only [choices, List.mem_singleton, List.length_eq_zero_iff]
    exact ⟨by rintro rfl; simp, And.left⟩
  | succ n ih =>
    cases choice with
    | nil => simp [choices]
    | cons first later =>
      simp only [choices, List.mem_flatMap, List.mem_range, List.mem_map, List.cons.injEq,
        List.length_cons, Nat.add_right_cancel_iff, List.forall_mem_cons]
      constructor
      · rintro ⟨_, inside, _, chosen, rfl, rfl⟩
        exact ⟨(ih.mp chosen).1, inside, (ih.mp chosen).2⟩
      · rintro ⟨long, inside, others⟩
        exact ⟨first, inside, later, ih.mpr ⟨long, others⟩, rfl, rfl⟩

/-- Choices come in lexicographic order, so that the first number varies slowest. -/
theorem choices_sorted (count n : Nat) : (choices count n).Pairwise (· < ·) := by
  induction n with
  | zero => simp [choices]
  | succ n ih =>
    refine List.pairwise_flatMap.mpr ⟨fun first _ => ?_, ?_⟩
    · exact List.pairwise_map.mpr (ih.imp fun before => List.cons_lt_cons_iff.mpr (.inr ⟨rfl, before⟩))
    · refine List.pairwise_lt_range.imp fun before => ?_
      intro choice member choice' member'
      obtain ⟨later, -, rfl⟩ := List.mem_map.mp member
      obtain ⟨later', -, rfl⟩ := List.mem_map.mp member'
      exact List.cons_lt_cons_iff.mpr (.inl before)

theorem length_choices (count n : Nat) : (choices count n).length = count ^ n := by
  induction n with
  | zero => rfl
  | succ n ih => simp [choices, List.length_flatMap, ih, Nat.pow_succ, Nat.mul_comm]

theorem length_instances (ancestors : List Selector) (s : Selector) :
    (instances ancestors s).length = instanceCount ancestors.length s := by
  unfold instances instanceCount
  split
  · rename_i none
    simp [none]
  · rename_i some
    rw [List.length_map, length_choices, Nat.max_eq_right (Nat.pos_of_ne_zero some)]

theorem flatMap_range_length (items : List α) (f : α → List β) :
    (List.range items.length).flatMap (fun i => (items[i]?).elim [] f) = items.flatMap f := by
  induction items with
  | nil => rfl
  | cons a as ih =>
    rw [List.length_cons, List.range_succ_eq_map, List.flatMap_cons, List.flatMap_map,
      List.flatMap_cons, ← ih]
    rfl

/-! ## Expanding one selector -/

theorem substitute_eq (combinator : Combinator) (a : Selector) :
    substitute combinator a =
      a.elements.modifyHead (fun first => { first with combinator }) := by
  unfold substitute
  cases a.elements <;> rfl

theorem behind_eq (a s : Selector) : behind a s = ⟨a.elements ++ s.elements.modifyHead led⟩ := by
  unfold behind asDescendant
  cases s.elements with
  | nil => rfl
  | cons e es =>
    simp only [List.modifyHead_cons, led]
    split <;> simp_all

def completions (ancestors : List Selector) (es done : List Element) : List (List Element) :=
  (choices ancestors.length (es.countP Element.isWildcard)).map fun choice =>
    done ++ fill es (choice.filterMap (ancestors[·]?))

theorem completions_nil (ancestors : List Selector) :
    completions ancestors [] = fun done => [done] := by
  funext done
  simp [completions, choices, fill]

theorem completions_wildcard (ancestors : List Selector) (wildcard : e.isWildcard = true)
    (es : List Element) : completions ancestors (e :: es) = fun done => ancestors.flatMap fun a =>
      completions ancestors es (done ++ substitute e.combinator a) := by
  funext done
  rw [← flatMap_range_length ancestors, completions, List.countP_cons_of_pos wildcard, choices,
    List.map_flatMap]
  refine List.flatMap_congr fun i inside => ?_
  have inside := List.mem_range.mp inside
  simp [List.getElem?_eq_getElem inside, fill, wildcard, substitute_eq, completions]

theorem completions_other (ancestors : List Selector) (other : e.isWildcard = false)
    (es : List Element) :
    completions ancestors (e :: es) = fun done => completions ancestors es (done ++ [e]) := by
  funext done
  rw [completions, List.countP_cons_of_neg (by simp [other])]
  simp [fill, other, completions]

theorem checkLimit_bind (count limit : Nat) (next : Unit → Except CombineError α) :
    (checkLimit count limit >>= next) =
      if count ≤ limit then next () else .error (.tooMany limit) := by
  unfold checkLimit
  by_cases exceeds : limit < count
  · rw [if_pos exceeds, if_neg (Nat.not_le_of_lt exceeds)]
    rfl
  · rw [if_neg exceeds, if_pos (Nat.le_of_not_lt exceeds)]
    rfl

/-- Partial selectors are completed in all ways if there are no more of them than the limit allows.
    Without a `&` there is nothing to check. -/
theorem expandElements_eq (nonempty : ancestors ≠ []) (limit : Nat) (es : List Element)
    (partials : List (List Element)) : expandElements ancestors limit partials es =
      if es.countP Element.isWildcard = 0 ∨
          partials.length * ancestors.length ^ es.countP Element.isWildcard ≤ limit then
        .ok (partials.flatMap (completions ancestors es))
      else .error (.tooMany limit) := by
  have positive : 0 < ancestors.length := List.length_pos_iff.mpr nonempty
  induction es generalizing partials with
  | nil => simp [expandElements, completions_nil]
  | cons e es ih =>
    rw [expandElements, expandElement]
    cases wildcard : e.isWildcard with
    | false =>
      rw [List.countP_cons_of_neg (by simp [wildcard]), completions_other ancestors wildcard]
      simp only [Bool.false_eq_true, if_false, pure_bind, ih, List.length_map, List.flatMap_map]
    | true =>
      rw [List.countP_cons_of_pos wildcard, completions_wildcard ancestors wildcard]
      generalize es.countP Element.isWildcard = later at ih ⊢
      have total : partials.length * ancestors.length * ancestors.length ^ later =
          partials.length * ancestors.length ^ (later + 1) := by
        rw [Nat.mul_assoc, ← Nat.pow_succ']
      have length : (partials.flatMap fun done =>
          ancestors.map fun a => done ++ substitute e.combinator a).length =
            partials.length * ancestors.length := by
        simp [List.length_flatMap]
      -- What is counted here can only grow, so it exceeds the limit only if the total does.
      have grows : partials.length * ancestors.length ≤
          partials.length * ancestors.length ^ (later + 1) := by
        rw [← total]
        exact Nat.le_mul_of_pos_right _ (Nat.pow_pos positive)
      simp only [if_true, checkLimit_bind]
      by_cases now : partials.length * ancestors.length ≤ limit
      · have within : (later = 0 ∨ partials.length * ancestors.length ^ (later + 1) ≤ limit) ↔
            later + 1 = 0 ∨ partials.length * ancestors.length ^ (later + 1) ≤ limit := by
          refine ⟨fun h => .inr (h.elim (fun none => ?_) id), fun h => .inr (by omega)⟩
          rwa [none, Nat.zero_add, Nat.pow_one]
        simp only [if_pos now, pure_bind, ih, length, total, within, List.flatMap_assoc,
          List.flatMap_map]
      · rw [if_neg now, if_neg (by omega)]
        rfl

/-- A selector is expanded to its instances if there are no more of them than the limit allows.
    Without a `&` there is nothing to check. -/
theorem expand_eq (nonempty : ancestors ≠ []) (limit : Nat) (s : Selector) :
    expand ancestors limit s =
      if s.wildcardCount = 0 ∨ instanceCount ancestors.length s ≤ limit then
        .ok (instances ancestors s)
      else .error (.tooMany limit) := by
  have has : s.hasWildcard = true ↔ s.wildcardCount ≠ 0 := by
    simp [hasWildcard, wildcardCount, List.countP_eq_zero]
  unfold expand
  by_cases none : s.wildcardCount = 0
  · have without : s.hasWildcard = false := by
      rw [Bool.eq_false_iff, ne_eq, has, not_not]
      exact none
    simp only [without, none, instances, behind_eq]
    rfl
  · have count : instanceCount ancestors.length s = ancestors.length ^ s.wildcardCount := by
      rw [instanceCount, Nat.max_eq_right (Nat.pos_of_ne_zero none)]
    rw [if_pos (has.mpr none), expandElements_eq nonempty, count, instances, if_neg none]
    simp only [List.length_singleton, Nat.one_mul, List.flatMap_singleton, completions,
      List.nil_append]
    unfold wildcardCount
    split
    · simp [instanceAt, Function.comp_def]
    · rfl

/-! ## Expanding all selectors -/

theorem expandAll_eq (nonempty : ancestors ≠ []) (limit : Nat) (current done : List Selector) :
    expandAll ancestors limit done current =
      if current = [] ∨ done.length + (current.map (instanceCount ancestors.length)).sum ≤ limit then
        .ok (done ++ current.flatMap (instances ancestors))
      else .error (.tooMany limit) := by
  induction current generalizing done with
  | nil => simp [expandAll]
  | cons s rest ih =>
    have total : (done ++ instances ancestors s).length +
        (rest.map (instanceCount ancestors.length)).sum =
          done.length + ((s :: rest).map (instanceCount ancestors.length)).sum := by
      simp [length_instances, Nat.add_assoc]
    rw [expandAll, expand_eq nonempty]
    split
    · change (checkLimit _ limit >>= fun _ => expandAll ancestors limit (done ++ _) rest) = _
      rw [checkLimit_bind, ih, total, List.flatMap_cons, List.append_assoc, ← List.length_append]
      -- Without further selectors, what is counted here is the total.
      have last : rest = [] → (done ++ instances ancestors s).length =
          done.length + ((s :: rest).map (instanceCount ancestors.length)).sum := by
        rintro rfl
        simpa using total
      grind
    · rename_i exceeds
      rw [if_neg]
      · rfl
      · simp only [List.map_cons, List.sum_cons, reduceCtorEq, false_or]
        omega

/-- The selectors of a nested ruleset are the instances of its own selectors, in order, if there are
    no more of them than the limit allows. The choices of ancestors that the instances are for come in
    lexicographic order. -/
theorem combine_gives_instances (ancestors current : List Selector) (limit : Nat)
    (nonempty : ancestors ≠ []) (elements : ∀ a ∈ ancestors, a.elements ≠ []) :
    (combine ancestors current limit =
      if (current.map fun s => ancestors.length ^ max 1 s.wildcardCount).sum ≤ limit then
        .ok (current.flatMap (instances ancestors))
      else .error (.tooMany limit)) ∧
    ∀ n, (choices ancestors.length n).Pairwise (· < ·) ∧
      ∀ choice, choice ∈ choices ancestors.length n ↔
        choice.length = n ∧ ∀ i ∈ choice, i < ancestors.length := by
  refine ⟨?_, fun n => ⟨choices_sorted _ n, fun _ => mem_choices⟩⟩
  have hasElements : ancestors.any (·.elements.isEmpty) = false := by
    simpa using elements
  unfold combine
  rw [if_neg (by simpa using nonempty), if_neg (by simp [hasElements]), expandAll_eq nonempty]
  have within : (current = [] ∨
      ([] : List Selector).length + (current.map (instanceCount ancestors.length)).sum ≤ limit) ↔
        (current.map fun s => ancestors.length ^ max 1 s.wildcardCount).sum ≤ limit := by
    rw [List.length_nil, Nat.zero_add]
    exact ⟨fun h => h.elim (by rintro rfl; simp) id, .inr⟩
  simp only [within, List.nil_append]

def ofClass (combinator : Combinator) (name : String) : Selector :=
  ⟨[⟨combinator, .literal name⟩]⟩

/-- Under `.a, .b`, the selectors `& + &, > .d` stand for six selectors. -/
theorem siblings_give_six_instances :
    [ofClass .attached ".a", ofClass .attached ".b"] ≠ [] ∧
      combine [ofClass .attached ".a", ofClass .attached ".b"]
          [⟨[⟨.attached, .wildcard⟩, ⟨.adjacent, .wildcard⟩]⟩, ofClass .child ".d"] 6 =
        .ok [⟨[⟨.attached, .literal ".a"⟩, ⟨.adjacent, .literal ".a"⟩]⟩,
          ⟨[⟨.attached, .literal ".a"⟩, ⟨.adjacent, .literal ".b"⟩]⟩,
          ⟨[⟨.attached, .literal ".b"⟩, ⟨.adjacent, .literal ".a"⟩]⟩,
          ⟨[⟨.attached, .literal ".b"⟩, ⟨.adjacent, .literal ".b"⟩]⟩,
          ⟨[⟨.attached, .literal ".a"⟩, ⟨.child, .literal ".d"⟩]⟩,
          ⟨[⟨.attached, .literal ".b"⟩, ⟨.child, .literal ".d"⟩]⟩] ∧
      combine [ofClass .attached ".a", ofClass .attached ".b"]
          [⟨[⟨.attached, .wildcard⟩, ⟨.adjacent, .wildcard⟩]⟩, ofClass .child ".d"] 5 =
        .error (.tooMany 5) := by
  have elements : ∀ a ∈ [ofClass .attached ".a", ofClass .attached ".b"], a.elements ≠ [] := by
    decide
  refine ⟨by decide, ?_, ?_⟩
  · exact (combine_gives_instances _ _ 6 (by decide) elements).1.trans (by decide)
  · exact (combine_gives_instances _ _ 5 (by decide) elements).1.trans (by decide)

end StyleResolution.Selector
