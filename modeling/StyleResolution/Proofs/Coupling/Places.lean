import StyleResolution.Proofs.Coupling.Imports

/-! # Where deferred imports wait

A deferred import is known by its position alone. In two roots that belong together, imports that
belong together are the imports of the same rank, whatever stands between them, and they stay so when
some import is replaced in both and the positions behind it are moved.
-/

namespace StyleResolution

open Eval

namespace Coupling

variable {K : Coupling} {setting : Setting} {W : World}
  {front front' back back' es es' : List Entry} {e e' : Entry} {n n' l l' : Nat}

theorem eq_of_countP (same : as ++ a :: bs = cs ++ c :: ds) (first : p a = true)
    (second : p c = true) (rank : as.countP p = cs.countP p) : as = cs ∧ a = c ∧ bs = ds := by
  induction as generalizing cs with
  | nil =>
    cases cs with
    | nil => exact ⟨rfl, List.cons.inj same⟩
    | cons x cs =>
      obtain ⟨rfl, -⟩ := List.cons.inj same
      simp [first] at rank
  | cons x as ih =>
    cases cs with
    | nil =>
      obtain ⟨rfl, -⟩ := List.cons.inj same
      simp [second] at rank
    | cons y cs =>
      obtain ⟨rfl, behind⟩ := List.cons.inj same
      simp only [List.countP_cons, Nat.add_right_cancel_iff] at rank
      obtain ⟨rfl, rest⟩ := ih behind rank
      exact ⟨rfl, rest⟩

theorem exists_of_lt_length (same : as ++ a :: bs = cs ++ c :: ds) (less : cs.length < as.length) :
    ∃ mid, as = cs ++ c :: mid ∧ ds = mid ++ a :: bs := by
  rcases List.append_eq_append_iff.mp same with ⟨more, rfl, -⟩ | ⟨more, rfl, rest⟩
  · simp only [List.length_append] at less
    omega
  · cases more with
    | nil => simp at less
    | cons y mid =>
      obtain ⟨rfl, rfl⟩ := List.cons.inj rest
      exact ⟨mid, rfl, rfl⟩

theorem Matched.countP (lawful : K.Lawful setting) (matched : K.Matched W es es') :
    es'.countP (fun e => Compiler.isImport e.rule) = es.countP fun e => Compiler.isImport e.rule := by
  have imports := (Aligned.imports matched (Matched.importsMatch lawful)).length_eq
  rw [List.countP_eq_length_filter, List.countP_eq_length_filter, imports]

theorem Matched.unique (lawful : K.Lawful setting) (fronts : K.Matched W f f')
    (frontsToo : K.Matched W f g') (items : K.EntryLink W x x') (itemsToo : K.EntryLink W x y')
    (isImport : Compiler.isImport x.rule = true) (same : f' ++ x' :: a' = g' ++ y' :: b') :
    f' = g' ∧ x' = y' ∧ a' = b' := by
  refine eq_of_countP (p := fun e : Entry => Compiler.isImport e.rule) same
    ((items.1.isImport lawful).trans isImport) ((itemsToo.1.isImport lawful).trans isImport) ?_
  exact (fronts.countP lawful).trans (frontsToo.countP lawful).symm

namespace Place

theorem bounds (place : K.Place W n n' es es' l l') :
    n ≤ l ∧ l < n + es.length ∧ n' ≤ l' ∧ l' < n' + es'.length := by
  obtain ⟨front, e, back, front', e', back', rfl, rfl, -, -, -, -, rfl, rfl⟩ := place
  simp only [List.length_append, List.length_cons]
  omega

/-- Where nothing was replaced, imports that belong together stand at the same position. -/
theorem same (exact_ : K.Exact) (place : K.Place W n n es es' l l') : l' = l := by
  obtain ⟨front, e, back, front', e', back', -, -, fronts, -, -, -, rfl, rfl⟩ := place
  rw [Aligned.length_eq fronts fun a new isCut => exact_ _ isCut.2.1]

/-- Besides an import, another one stands in front of it or behind it, in both roots. -/
theorem split (lawful : K.Lawful setting) (fronts : K.Matched W front front')
    (backs : K.Matched W back back')
    (place : K.Place W 0 0 (front ++ e :: back) (front' ++ e' :: back') l l')
    (items : K.EntryLink W e e') (other : l ≠ front.length) :
    K.Place W 0 0 front front' l l' ∨
      K.Place W (front.length + 1) (front'.length + 1) back back' l l' := by
  have imports := @Matched.importsMatch K setting W lawful
  obtain ⟨f, x, b, f', x', b', left, right, before, items', isImport, behind, rfl, rfl⟩ := place
  simp only [Nat.zero_add] at other
  rcases Nat.lt_or_gt_of_ne other with inFront | inBack
  · obtain ⟨mid, rfl, -⟩ := exists_of_lt_length left inFront
    obtain ⟨g', y', mid', rfl, beforeToo, itemsToo, between⟩ := fronts.split imports rfl isImport
    rw [List.append_assoc, List.cons_append] at right
    obtain ⟨rfl, rfl, -⟩ := Matched.unique lawful beforeToo before itemsToo items' isImport right
    exact .inl ⟨f, x, mid, g', y', mid', rfl, rfl, beforeToo, itemsToo, isImport, between, by simp,
      by simp⟩
  · obtain ⟨mid, rfl, rfl⟩ := exists_of_lt_length left.symm inBack
    obtain ⟨mid', y', c', rfl, between, itemsToo, behindToo⟩ := backs.split imports rfl isImport
    have beforeToo : K.Matched W (front ++ e :: mid) (front' ++ e' :: mid') :=
      fronts.append (.cons items between)
    rw [← List.cons_append, ← List.append_assoc] at right
    obtain ⟨rfl, rfl, -⟩ := Matched.unique lawful beforeToo before itemsToo items' isImport right
    refine .inr ⟨mid, x, b, mid', y', c', rfl, rfl, between, itemsToo, isImport, behindToo, ?_, ?_⟩
    · simp only [List.length_append, List.length_cons]
      omega
    · simp only [List.length_append, List.length_cons]
      omega

theorem shift_front {d d' : DeferredImport}
    (place : K.Place W 0 0 front front' d.location d'.location) (delta delta' : Int) :
    d.shift front.length delta = d ∧ d'.shift front'.length delta' = d' := by
  have := place.bounds
  simp only [DeferredImport.shift, ite_eq_right_iff]
  exact ⟨fun _ => by omega, fun _ => by omega⟩

/-- An import behind a splice is moved by as much as the rules it stands among. -/
theorem shift_back {d d' : DeferredImport}
    (place : K.Place W (n + 1) (n' + 1) back back' d.location d'.location)
    (fits : n + count + back.length ≤ DeferredImport.maxLocation)
    (fitsToo : n' + count' + back'.length ≤ DeferredImport.maxLocation) :
    K.Place W (n + count) (n' + count') back back' (d.shift n ((count : Int) - 1)).location
      (d'.shift n' ((count' : Int) - 1)).location := by
  obtain ⟨f, x, b, f', x', b', rfl, rfl, before, items, isImport, behind, at_, atToo⟩ := place
  refine ⟨f, x, b, f', x', b', rfl, rfl, before, items, isImport, behind, ?_, ?_⟩
  · simp only [List.length_append, List.length_cons] at fits
    rw [DeferredImport.shift, if_pos (by omega)]
    simp only [DeferredImport.moved]
    omega
  · simp only [List.length_append, List.length_cons] at fitsToo
    rw [DeferredImport.shift, if_pos (by omega)]
    simp only [DeferredImport.moved]
    omega

end Place

/-- Deferred imports that belong together wait in two roots. Where nothing was replaced, they wait at
    the same position, whatever stands there; otherwise an import that belongs to both does. -/
structure Waits (K : Coupling) (W : World) (es es' : List Entry) (d d' : DeferredImport) : Prop where
  scope : EnvLink W d.scope d'.scope
  depth : d'.depth = d.depth
  place : (K.Exact ∧ d'.location = d.location) ∨ K.Place W 0 0 es es' d.location d'.location

namespace Waits

variable {d d' : DeferredImport}

theorem found (lawful : K.Lawful setting) (matched : K.Matched W es es')
    (waits : K.Waits W es es' d d') :
    K.Place W 0 0 es es' d.location d'.location ∨
      (∀ e, es[d.location]? = some e → Compiler.isImport e.rule = false) ∧
        ∀ e, es'[d'.location]? = some e → Compiler.isImport e.rule = false := by
  have imports := @Matched.importsMatch K setting W lawful
  rcases waits.place with ⟨exact_, same⟩ | place
  · have uncut : ∀ e new, ¬ K.cuts e new := fun e new isCut => exact_ _ isCut.2.1
    have kinds := matched.map_isImport imports uncut
    by_cases isImport : ∃ e, es[d.location]? = some e ∧ Compiler.isImport e.rule = true
    · obtain ⟨e, found, isImport⟩ := isImport
      obtain ⟨front, back, rfl, at_⟩ := exists_append_of_getElem? found
      obtain ⟨front', e', back', rfl, fronts, items, backs⟩ := matched.split imports rfl isImport
      have atToo : d'.location = front'.length := by
        rw [same, ← at_, fronts.length_eq uncut]
      exact .inl ⟨front, e, back, front', e', back', rfl, rfl, fronts, items, isImport, backs,
        by simp [at_], by simp [atToo]⟩
    · refine .inr ⟨fun e found => ?_, fun e found => ?_⟩
      · by_contra isImportToo
        exact isImport ⟨e, found, by simpa using isImportToo⟩
      · have kind := congrArg (·[d.location]?) kinds
        rw [same] at found
        simp only [List.getElem?_map, found, Option.map_some] at kind
        obtain ⟨a, there, kind⟩ := Option.map_eq_some_iff.mp kind.symm
        rw [← kind]
        by_contra isImportToo
        exact isImport ⟨a, there, by simpa using isImportToo⟩
  · exact .inl place

theorem shift (lawful : K.Lawful setting) (fronts : K.Matched W front front')
    (items : K.EntryLink W e e') (backs : K.Matched W back back') (news : K.Matched W new new')
    (waits : K.Waits W (front ++ e :: back) (front' ++ e' :: back') d d')
    (apart : ¬ K.Exact → d.location ≠ front.length)
    (fits : ¬ K.Exact → (front ++ new ++ back).length ≤ DeferredImport.maxLocation ∧
      (front' ++ new' ++ back').length ≤ DeferredImport.maxLocation) :
    K.Waits W (front ++ new ++ back) (front' ++ new' ++ back')
      (d.shift front.length ((new.length : Int) - 1))
      (d'.shift front'.length ((new'.length : Int) - 1)) := by
  have kept : ∀ (d : DeferredImport) (position : Nat) (delta : Int),
      (d.shift position delta).scope = d.scope ∧ (d.shift position delta).depth = d.depth := by
    intro d position delta
    unfold DeferredImport.shift
    split <;> exact ⟨rfl, rfl⟩
  refine ⟨?_, ?_, ?_⟩
  · rw [(kept ..).1, (kept ..).1]
    exact waits.scope
  · rw [(kept ..).2, (kept ..).2]
    exact waits.depth
  by_cases exact_ : K.Exact
  · have uncut : ∀ e new, ¬ K.cuts e new := fun e new isCut => exact_ _ isCut.2.1
    have same : d'.location = d.location := waits.place.elim (·.2) fun place => place.same exact_
    refine .inl ⟨exact_, ?_⟩
    rw [← fronts.length_eq uncut, ← news.length_eq uncut]
    simp only [DeferredImport.shift, same]
    split <;> simp [same]
  · have place := waits.place.resolve_left fun h => exact_ h.1
    obtain ⟨fits, fitsToo⟩ := fits exact_
    simp only [List.length_append] at fits fitsToo
    rcases place.split lawful fronts backs items (apart exact_) with inFront | inBack
    · obtain ⟨left, right⟩ := inFront.shift_front ((new.length : Int) - 1) ((new'.length : Int) - 1)
      rw [left, right, List.append_assoc, List.append_assoc]
      exact .inr (inFront.append (news.append backs))
    · refine .inr (Place.behind ?_ (fronts.append news))
      simp only [List.length_append, Nat.zero_add]
      exact inBack.shift_back fits fitsToo

theorem of_stands (stands : K.Stands W 0 0 es es' d d') : K.Waits W es es' d d' :=
  ⟨stands.scope, stands.depth, .inr stands.place⟩

end Waits

end Coupling

end StyleResolution
