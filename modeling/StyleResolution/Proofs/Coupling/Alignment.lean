import Mathlib.Data.List.Forall2
import StyleResolution.Proofs.Scope.Blocks

/-! # Aligned sequences of rules

Two sheets that are to be compiled alike are written almost alike: block by block, the rules of the
one belong to the rules of the other in their order. `Aligned` allows for two differences. A variable
definition and a rule behind it may have changed places, and one rule may have been replaced by a
sequence of others.
-/

namespace StyleResolution

open Compiler

namespace Rule

def withBlock (inner : List Rule) : Rule → Rule
  | .ruleset selectors _ span => .ruleset selectors inner span
  | .mixin head _ => .mixin head inner
  | .media features _ span => .media features inner span
  | .atBlock name prelude _ span => .atBlock name prelude inner span
  | r => r

theorem withBlock_of_block? {r : Rule} {inner : List Rule} (has : r.block? = some inner) :
    r.withBlock inner = r := by
  cases r <;> simp_all [block?, withBlock]

/-- The first rule defines a variable and may change places with the second one, which is no import
    and no other definition of the variable. -/
def Passes (v r : Rule) : Prop :=
  ∃ d, v = .variable d ∧ isImport r = false ∧ ∀ d', r = .variable d' → d'.name ≠ d.name

end Rule

variable {α β : Type}

/-- The items of the first list belong to those of the second one, in their order, except that
    items whose rules may pass each other may have changed places and that an item may have been
    replaced as `cut` says. -/
inductive Aligned (rule : α → Rule) (cut : α → List α → Prop) (R : α → α → Prop) :
    List α → List α → Prop where
  | nil : Aligned rule cut R [] []
  | cons {a a' : α} {as as' : List α} (first : R a a') (rest : Aligned rule cut R as as') :
      Aligned rule cut R (a :: as) (a' :: as')
  | swap {v v' r r' : α} {as as' : List α} (passes : (rule v).Passes (rule r)) (first : R v v')
      (second : R r r') (rest : Aligned rule cut R as as') :
      Aligned rule cut R (v :: r :: as) (r' :: v' :: as')
  | cut {a : α} {new as as' : List α} (replaced : cut a new) (rest : Aligned rule cut R as as') :
      Aligned rule cut R (a :: as) (new ++ as')

namespace Aligned

variable {rule : α → Rule} {cut : α → List α → Prop} {R : α → α → Prop} {as as' bs bs' : List α}

theorem append (first : Aligned rule cut R as as') (second : Aligned rule cut R bs bs') :
    Aligned rule cut R (as ++ bs) (as' ++ bs') := by
  induction first with
  | nil => exact second
  | cons same _ ih => exact .cons same ih
  | swap passes same sameToo _ ih => exact .swap passes same sameToo ih
  | cut replaced _ ih =>
    rw [List.cons_append, List.append_assoc]
    exact .cut replaced ih

theorem refl (h : ∀ a ∈ as, R a a) : Aligned rule cut R as as := by
  induction as with
  | nil => exact .nil
  | cons a as ih =>
    simp only [List.forall_mem_cons] at h
    exact .cons h.1 (ih h.2)

section

variable (aligned : Aligned rule cut R as as')

include aligned

theorem map {rule' : β → Rule} {cut' : β → List β → Prop} {R' : β → β → Prop} {f : α → β}
    (rules : ∀ a, rule' (f a) = rule a) (related : ∀ a a', R a a' → R' (f a) (f a'))
    (replaced : ∀ a new, cut a new → cut' (f a) (new.map f)) :
    Aligned rule' cut' R' (as.map f) (as'.map f) := by
  induction aligned with
  | nil => exact .nil
  | cons same _ ih => exact .cons (related _ _ same) ih
  | swap passes same sameToo _ ih =>
    exact .swap (by simpa only [rules] using passes) (related _ _ same) (related _ _ sameToo) ih
  | cut isCut _ ih =>
    rw [List.map_cons, List.map_append]
    exact .cut (replaced _ _ isCut) ih

theorem mono {R' : α → α → Prop} (weaker : ∀ a a', R a a' → R' a a') :
    Aligned rule cut R' as as' := by
  have mapped : Aligned rule cut R' (as.map id) (as'.map id) :=
    aligned.map (fun _ => rfl) weaker fun _ new isCut => (List.map_id new).symm ▸ isCut
  simpa only [List.map_id] using mapped

/-- What is read off the items one by one is related item by item, if it is not read off items that
    may pass each other, that were replaced or that stand in the place of others. -/
theorem filterMap {f : α → Option β} {S : β → β → Prop}
    (related : ∀ a a', R a a' → Option.Rel S (f a) (f a'))
    (apart : ∀ a b, (rule a).Passes (rule b) → f a = none ∨ f b = none)
    (gone : ∀ a new, cut a new → f a = none ∧ ∀ b ∈ new, f b = none) :
    List.Forall₂ S (as.filterMap f) (as'.filterMap f) := by
  have keep : ∀ {a a' : α} {xs ys : List β}, R a a' → List.Forall₂ S xs ys →
      List.Forall₂ S ((f a).toList ++ xs) ((f a').toList ++ ys) := by
    intro a a' xs ys same rest
    have read := related a a' same
    generalize f a = b at read ⊢
    generalize f a' = b' at read ⊢
    cases read with
    | some both => exact .cons both rest
    | none => exact rest
  have unread : ∀ {a a' : α}, R a a' → f a = none → f a' = none := by
    intro a a' same nothing
    have read := related a a' same
    rw [nothing] at read
    generalize f a' = b' at read ⊢
    cases read
    rfl
  have split : ∀ (a : α) (bs : List α),
      (a :: bs).filterMap f = (f a).toList ++ bs.filterMap f := by
    intro a bs
    cases read : f a <;> simp [read]
  induction aligned with
  | nil => exact .nil
  | cons same _ ih =>
    rw [split, split]
    exact keep same ih
  | @swap v v' r r' bs bs' passes same sameToo _ ih =>
    rw [split, split, split, split]
    rcases apart v r passes with nothing | nothing
    · rw [nothing, unread same nothing]
      exact keep sameToo ih
    · rw [nothing, unread sameToo nothing]
      exact keep same ih
  | @cut a new bs bs' replaced _ ih =>
    obtain ⟨notCut, notNew⟩ := gone a new replaced
    rw [split, notCut, List.filterMap_append, List.filterMap_eq_nil_iff.mpr notNew]
    exact ih

theorem length_eq (exact_ : ∀ a new, ¬ cut a new) :
    as.length = as'.length := by
  induction aligned with
  | nil => rfl
  | cons _ _ ih => simp only [List.length_cons, ih]
  | swap _ _ _ _ ih => simp only [List.length_cons, ih]
  | cut replaced _ _ => exact absurd replaced (exact_ _ _)

end

end Aligned

/-! ## Imports in aligned sequences -/

/-- Neither side of an alignment hides an import: related items are imports both or neither, and
    nothing that was replaced or put in its place is one. -/
structure ImportsMatch (rule : α → Rule) (cut : α → List α → Prop) (R : α → α → Prop) : Prop where
  same : ∀ a a', R a a' → isImport (rule a') = isImport (rule a)
  cut : ∀ a new, cut a new → isImport (rule a) = false ∧
    ∀ b ∈ new, isImport (rule b) = false

namespace Aligned

variable {rule : α → Rule} {cut : α → List α → Prop} {R : α → α → Prop} {as as' : List α}

theorem not_isImport_of_passes (passes : v.Passes r) :
    isImport v = false ∧ isImport r = false := by
  obtain ⟨d, rfl, notImport, -⟩ := passes
  exact ⟨rfl, notImport⟩

theorem split (aligned : Aligned rule cut R as as') (imports : ImportsMatch rule cut R)
    (at_ : as = front ++ a :: back) (isImport : isImport (rule a) = true) :
    ∃ front' a' back', as' = front' ++ a' :: back' ∧ Aligned rule cut R front front' ∧ R a a' ∧
      Aligned rule cut R back back' := by
  induction aligned generalizing front with
  | nil => simp at at_
  | @cons b b' bs bs' same rest ih =>
    cases front with
    | nil =>
      obtain ⟨rfl, rfl⟩ := List.cons.inj at_
      exact ⟨[], b', bs', rfl, .nil, same, rest⟩
    | cons c front =>
      obtain ⟨rfl, behind⟩ := List.cons.inj at_
      obtain ⟨front', a', back', rfl, fronts, item, backs⟩ := ih behind
      exact ⟨b' :: front', a', back', rfl, .cons same fronts, item, backs⟩
  | @swap v v' r r' bs bs' passes same sameToo rest ih =>
    obtain ⟨notFirst, notSecond⟩ := not_isImport_of_passes passes
    rcases front with _ | ⟨c, _ | ⟨d, front⟩⟩
    · obtain ⟨rfl, -⟩ := List.cons.inj at_
      simp [notFirst] at isImport
    · obtain ⟨rfl, behind⟩ := List.cons.inj at_
      obtain ⟨rfl, -⟩ := List.cons.inj behind
      simp [notSecond] at isImport
    · obtain ⟨rfl, behind⟩ := List.cons.inj at_
      obtain ⟨rfl, further⟩ := List.cons.inj behind
      obtain ⟨front', a', back', rfl, fronts, item, backs⟩ := ih further
      exact ⟨r' :: v' :: front', a', back', rfl, .swap passes same sameToo fronts, item, backs⟩
  | @cut b new bs bs' replaced rest ih =>
    cases front with
    | nil =>
      obtain ⟨rfl, -⟩ := List.cons.inj at_
      simp [(imports.cut _ _ replaced).1] at isImport
    | cons c front =>
      obtain ⟨rfl, behind⟩ := List.cons.inj at_
      obtain ⟨front', a', back', rfl, fronts, item, backs⟩ := ih behind
      exact ⟨new ++ front', a', back', by simp, .cut replaced fronts, item, backs⟩

theorem map_isImport (aligned : Aligned rule cut R as as') (imports : ImportsMatch rule cut R)
    (exact_ : ∀ a new, ¬ cut a new) :
    as'.map (fun a => isImport (rule a)) = as.map fun a => isImport (rule a) := by
  induction aligned with
  | nil => rfl
  | cons same _ ih => simp only [List.map_cons, imports.same _ _ same, ih]
  | swap passes same sameToo _ ih =>
    obtain ⟨notFirst, notSecond⟩ := not_isImport_of_passes passes
    simp only [List.map_cons, imports.same _ _ same, imports.same _ _ sameToo, notFirst, notSecond,
      ih]
  | cut replaced _ _ => exact absurd replaced (exact_ _ _)

theorem imports (aligned : Aligned rule cut R as as') (imports : ImportsMatch rule cut R) :
    List.Forall₂ R (as.filter fun a => isImport (rule a))
      (as'.filter fun a => isImport (rule a)) := by
  rw [← List.filterMap_eq_filter]
  apply aligned.filterMap
  · intro a a' same
    simp only [Option.guard, imports.same a a' same]
    split
    · exact .some same
    · exact .none
  · intro a b passes
    simp [Option.guard, (not_isImport_of_passes passes).1]
  · intro a new replaced
    obtain ⟨notCut, notNew⟩ := imports.cut a new replaced
    exact ⟨by simp [Option.guard, notCut], fun b member => by simp [Option.guard, notNew b member]⟩

end Aligned

end StyleResolution
