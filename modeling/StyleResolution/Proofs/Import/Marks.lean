import Mathlib.Data.List.Forall2
import Mathlib.Data.List.Perm.Basic
import Mathlib.Data.List.ReduceOption
import StyleResolution.Proofs.Import.Ledger

/-! # The marks of a ledger and the queues

The marks say which deferred imports stand in the root and where. A moment is intact if the imports
that wait are exactly those. This module has the effect of queueing, of splicing and of shifting
locations on the two sides.
-/

namespace StyleResolution

open DeferredImport

/-- All deferred imports that wait, and no others, stand in the root where they are said to, and
    nothing was lost. -/
structure Moment.Intact (m : Moment) : Prop where
  /-- No two imports wait at the same place. -/
  distinct : (m.waiting.map (·.location)).Nodup
  /-- The rule at the place is the import that was queued, and it is still to be evaluated in the
      scope and at the nesting it was queued with. -/
  inPlace : ∀ d ∈ m.waiting, ∃ q ∈ m.ledger.issued, m.ledger.marks[d.location]? = some (some q) ∧
    m.rules[d.location]? = some q.entry ∧ d.scope = q.scope ∧ d.depth = q.depth
  /-- Every queued import that stands in the root is waited for. -/
  waitedFor : ∀ (position : Nat) (q : Queued), m.ledger.marks[position]? = some (some q) →
    ∃ d ∈ m.waiting, d.location = position
  /-- Every queued import either stands in the root, at one place, or was spliced, once. -/
  accounted : (m.ledger.spliced ++ m.ledger.marks.reduceOption).Perm m.ledger.issued
  numbered : m.ledger.issued.map (·.number) = List.range m.ledger.issued.length
  imports : ∀ q ∈ m.ledger.issued, ∃ i, q.entry.rule = .fileImport i
  nothingDropped : m.ledger.dropped = []

def standingFrom : Nat → List (Option Queued) → List DeferredImport
  | _, [] => []
  | position, none :: marks => standingFrom (position + 1) marks
  | position, some q :: marks =>
    ⟨position, q.scope, q.depth⟩ :: standingFrom (position + 1) marks

theorem standingFrom_append (position : Nat) (front back : List (Option Queued)) :
    standingFrom position (front ++ back) =
      standingFrom position front ++ standingFrom (position + front.length) back := by
  induction front generalizing position with
  | nil => rfl
  | cons mark front ih =>
    have later : position + (front.length + 1) = position + 1 + front.length := by omega
    cases mark <;> simp [standingFrom, ih, later]

@[simp] theorem standingFrom_replicate_none (position count : Nat) :
    standingFrom position (List.replicate count none) = [] := by
  induction count generalizing position with
  | zero => rfl
  | succ count ih => exact ih _

theorem mem_standingFrom {position : Nat} : d ∈ standingFrom position marks ↔
      ∃ offset q, marks[offset]? = some (some q) ∧ d = ⟨position + offset, q.scope, q.depth⟩ := by
  induction marks generalizing position with
  | nil => simp [standingFrom]
  | cons mark marks ih =>
    -- the first mark is at offset zero, and the others are one further than in the tail
    have split : (∃ offset q, (mark :: marks)[offset]? = some (some q) ∧
          d = ⟨position + offset, q.scope, q.depth⟩) ↔
        (∃ q, mark = some q ∧ d = ⟨position, q.scope, q.depth⟩) ∨
          d ∈ standingFrom (position + 1) marks := by
      rw [ih]
      constructor
      · rintro ⟨_ | offset, q, found, rfl⟩
        · exact .inl ⟨q, by simpa using found, rfl⟩
        · exact .inr ⟨offset, q, by simpa using found, by simp; omega⟩
      · rintro (⟨q, rfl, rfl⟩ | ⟨offset, q, found, rfl⟩)
        · exact ⟨0, q, rfl, rfl⟩
        · exact ⟨offset + 1, q, by simpa using found, by simp; omega⟩
    rw [split]
    cases mark <;> simp [standingFrom]

theorem location_bounds {position : Nat} (member : d ∈ standingFrom position marks) :
    position ≤ d.location ∧ d.location < position + marks.length := by
  obtain ⟨offset, q, found, rfl⟩ := mem_standingFrom.mp member
  obtain ⟨inside, -⟩ := List.getElem?_eq_some_iff.mp found
  simp only
  omega

theorem nodup_locations (position : Nat) (marks : List (Option Queued)) :
    ((standingFrom position marks).map (·.location)).Nodup := by
  induction marks generalizing position with
  | nil => exact List.nodup_nil
  | cons mark marks ih =>
    cases mark with
    | none => exact ih _
    | some q =>
      refine List.nodup_cons.mpr ⟨?_, ih _⟩
      simp only [List.mem_map, not_exists, not_and]
      intro d member here
      have := (location_bounds member).1
      omega

theorem exists_mark_of_waits (waits : (d :: others).Perm (standingFrom 0 marks)) :
    ∃ front q back, marks = front ++ some q :: back ∧ front.length = d.location ∧
      others.Perm (standingFrom 0 front ++ standingFrom (front.length + 1) back) := by
  obtain ⟨offset, q, found, rfl⟩ := mem_standingFrom.mp (waits.subset List.mem_cons_self)
  obtain ⟨inside, there⟩ := List.getElem?_eq_some_iff.mp found
  have cut : marks = marks.take offset ++ some q :: marks.drop (offset + 1) := by
    rw [← there, List.getElem_cons_drop, List.take_append_drop]
  have length : (marks.take offset).length = offset := List.length_take_of_le (Nat.le_of_lt inside)
  refine ⟨marks.take offset, q, marks.drop (offset + 1), cut, by simp [length], ?_⟩
  rw [cut, standingFrom_append, length, Nat.zero_add] at waits
  rw [length]
  exact (waits.trans List.perm_middle).cons_inv

/-! ## Shifting locations -/

theorem shiftAll_front (delta : Int) (front : List (Option Queued)) :
    shiftAll front.length delta (standingFrom 0 front) = standingFrom 0 front := by
  unfold shiftAll
  conv_rhs => rw [← List.map_id (standingFrom 0 front)]
  refine List.map_congr_left fun d member => ?_
  have := (location_bounds member).2
  simp only [shift, id_eq, ite_eq_right_iff]
  omega

/-- Imports behind a splice are moved by as much as the rules they stand for, as long as there are
    not more rules than locations. -/
theorem shiftAll_back {position : Nat} (behind : position ≤ start) (count : Nat)
    (marks : List (Option Queued))
    (fits : start + count + marks.length ≤ maxLocation) :
    shiftAll position ((count : Int) - 1) (standingFrom (start + 1) marks) =
      standingFrom (start + count) marks := by
  induction marks generalizing start with
  | nil => rfl
  | cons mark marks ih =>
    simp only [List.length_cons] at fits
    have tail := @ih (start + 1) (by omega) (by omega)
    rw [Nat.add_right_comm start 1 count] at tail
    cases mark with
    | none => exact tail
    | some q =>
      have moved : moved (start + 1) ((count : Int) - 1) = start + count := by
        unfold moved
        omega
      simp only [standingFrom, shiftAll, List.map_cons, List.cons.injEq]
      refine ⟨?_, tail⟩
      simp [shift, Nat.lt_succ_of_le behind, moved]

/-- After a splice at the end of `front`, all imports stand where their rules stand. -/
theorem shiftAll_standing (front back : List (Option Queued)) (count : Nat)
    (fits : front.length + count + back.length ≤ maxLocation)
    (waits : queue.Perm (standingFrom 0 front ++ standingFrom (front.length + 1) back)) :
    (shiftAll front.length ((count : Int) - 1) queue).Perm
      (standingFrom 0 front ++ standingFrom (front.length + count) back) := by
  have moved : (shiftAll front.length ((count : Int) - 1) queue).Perm
      (shiftAll front.length ((count : Int) - 1)
        (standingFrom 0 front ++ standingFrom (front.length + 1) back)) :=
    waits.map _
  have apart : shiftAll front.length ((count : Int) - 1)
        (standingFrom 0 front ++ standingFrom (front.length + 1) back) =
      standingFrom 0 front ++ standingFrom (front.length + count) back := by
    rw [shiftAll, List.map_append]
    exact congrArg₂ _ (shiftAll_front _ front) (shiftAll_back (Nat.le_refl _) count back fits)
  rwa [apart] at moved

/-! ## Sound ledgers -/

namespace Ledger

/-- The ledger is right about the rules of the root. -/
structure Sound (l : Ledger) (rules : List Entry) : Prop where
  aligned : List.Forall₂ (fun mark e => ∀ q, mark = some q → q.entry = e) l.marks rules
  accounted : (l.spliced ++ l.marks.reduceOption).Perm l.issued
  numbered : l.issued.map (·.number) = List.range l.issued.length
  imports : ∀ q ∈ l.issued, ∃ i, q.entry.rule = .fileImport i
  nothingDropped : l.dropped = []

variable {l : Ledger} {rules : List Entry}

theorem aligned_iff {marks : List (Option Queued)} :
    List.Forall₂ (fun mark e => ∀ q, mark = some q → q.entry = e) marks rules ↔
      marks.length = rules.length ∧ ∀ (position : Nat) (q : Queued),
        marks[position]? = some (some q) → rules[position]? = some q.entry := by
  rw [List.forall₂_iff_get]
  refine and_congr_right fun same => forall_congr' fun position => ?_
  constructor
  · intro aligned q marked
    obtain ⟨inside, there⟩ := List.getElem?_eq_some_iff.mp marked
    have inside' : position < rules.length := same ▸ inside
    exact List.getElem?_eq_some_iff.mpr ⟨inside', (aligned inside inside' q there).symm⟩
  · intro rule_at inside inside' q there
    have found := rule_at q (List.getElem?_eq_some_iff.mpr ⟨inside, there⟩)
    obtain ⟨_, entry⟩ := List.getElem?_eq_some_iff.mp found
    exact entry.symm

theorem start_sound (rules : List Entry) : (start rules.length).Sound rules where
  aligned := aligned_iff.mpr ⟨by simp [start], by simp [start, List.getElem?_replicate]⟩
  accounted := by
    simp [start, List.reduceOption_replicate_none]
  numbered := rfl
  imports := nofun
  nothingDropped := rfl

theorem Sound.length_eq (sound : l.Sound rules) : l.marks.length = rules.length :=
  sound.aligned.length_eq

theorem Sound.rule_at (sound : l.Sound rules) {position : Nat} {q : Queued}
    (marked : l.marks[position]? = some (some q)) : rules[position]? = some q.entry :=
  (aligned_iff.mp sound.aligned).2 position q marked

theorem Sound.issued_of_marked (sound : l.Sound rules) {position : Nat} {q : Queued}
    (marked : l.marks[position]? = some (some q)) : q ∈ l.issued := by
  refine sound.accounted.mem_iff.mp (List.mem_append_right _ ?_)
  exact List.reduceOption_mem_iff.mpr (List.mem_of_getElem? marked)

theorem Sound.intact (sound : l.Sound rules) {waiting : List DeferredImport}
    (waits : waiting.Perm (standingFrom 0 l.marks)) : Moment.Intact ⟨rules, waiting, l⟩ where
  distinct := (waits.map _).nodup_iff.mpr (nodup_locations 0 l.marks)
  inPlace d member := by
    obtain ⟨offset, q, marked, rfl⟩ := mem_standingFrom.mp (waits.mem_iff.mp member)
    simp only [Nat.zero_add]
    exact ⟨q, sound.issued_of_marked marked, marked, sound.rule_at marked, rfl, rfl⟩
  waitedFor position q marked := by
    refine ⟨⟨position, q.scope, q.depth⟩, waits.mem_iff.mpr (mem_standingFrom.mpr ?_), rfl⟩
    exact ⟨position, q, marked, by simp⟩
  accounted := sound.accounted
  numbered := sound.numbered
  imports := sound.imports
  nothingDropped := sound.nothingDropped

theorem enqueue_marks (shape : l.marks = front ++ none :: back) (e : Entry) (scope : Environment)
    (depth : Nat) : (l.enqueue front.length e scope depth).marks =
      front ++ some ⟨l.issued.length, e, scope, depth⟩ :: back := by
  simp [enqueue, shape]

theorem Sound.enqueue (sound : l.Sound rules) {front back : List (Option Queued)}
    (shape : l.marks = front ++ none :: back) {e : Entry} {i : Import}
    (found : rules[front.length]? = some e) (isImport : e.rule = .fileImport i)
    (scope : Environment) (depth : Nat) : (l.enqueue front.length e scope depth).Sound rules where
  aligned := by
    refine aligned_iff.mpr ⟨by simp [Ledger.enqueue, sound.length_eq], fun position q marked => ?_⟩
    by_cases here : front.length = position
    · subst here
      rw [enqueue_marks shape, List.getElem?_append_right (Nat.le_refl _)] at marked
      obtain rfl : _ = q := by simpa using marked
      exact found
    · rw [Ledger.enqueue, List.getElem?_set_ne here] at marked
      exact sound.rule_at marked
  accounted := by
    have accounted := sound.accounted
    rw [shape, List.reduceOption_append, List.reduceOption_cons_of_none] at accounted
    rw [enqueue_marks shape, List.reduceOption_append, List.reduceOption_cons_of_some,
      ← List.append_assoc]
    refine List.perm_middle.trans ((List.Perm.cons _ ?_).trans (List.perm_append_singleton _ _).symm)
    rwa [List.append_assoc]
  numbered := by
    simp [Ledger.enqueue, sound.numbered, List.range_succ]
  imports := by
    intro q member
    rcases List.mem_append.mp member with old | new
    · exact sound.imports q old
    · obtain rfl := List.mem_singleton.mp new
      exact ⟨i, isImport⟩
  nothingDropped := sound.nothingDropped

theorem replace_marks (shape : l.marks = front ++ mark :: back) (count : Nat) :
    (l.replace front.length count).marks = front ++ List.replicate count none ++ back := by
  simp [replace, shape]

theorem Sound.replace (sound : l.Sound rules) (shape : l.marks = front ++ mark :: back)
    (new : List Entry) : (l.replace front.length new.length).Sound
      (rules.take front.length ++ new ++ rules.drop (front.length + 1)) where
  aligned :=
    List.rel_append (List.rel_append (List.forall₂_take _ sound.aligned)
      (start_sound new).aligned) (List.forall₂_drop _ sound.aligned)
  accounted := by
    rw [replace_marks shape]
    have accounted := sound.accounted
    rw [shape, List.reduceOption_append] at accounted
    have removed : (front ++ mark :: back)[front.length]? = some mark := by simp
    simp only [Ledger.replace, shape, removed, List.reduceOption_append,
      List.reduceOption_replicate_none, List.append_nil, Option.join_some]
    refine List.Perm.trans ?_ accounted
    cases mark with
    | none => simp
    | some q =>
      rw [List.reduceOption_cons_of_some, Option.toList_some, List.append_assoc,
        List.singleton_append]
      exact (List.perm_middle.symm).append_left _
  numbered := sound.numbered
  imports := sound.imports
  nothingDropped := sound.nothingDropped

end Ledger

end StyleResolution
