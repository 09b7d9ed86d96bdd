import StyleResolution.Proofs.Scope.Store

/-! # The names of a frame are those of its rules

The index of a frame is dropped by every change and built from the rules when it is needed, so
whatever a look-up finds is one of the rules.
-/

namespace StyleResolution

def Placed.definitionOf (name : String) (p : Placed) : Option Variable :=
  p.asVariable.filter (·.definition.name == name)

theorem Placed.asCallable_of_asVariable {p : Placed} (h : p.asVariable = some v) :
    p.asCallable = none := by
  unfold Placed.asVariable at h
  unfold Placed.asCallable
  cases rule : p.rule <;> simp_all

namespace Index

theorem mem_assign (h : pair ∈ assign key value assigned) :
    pair = (key, value) ∨ pair ∈ assigned := by
  induction assigned with
  | nil => simpa [assign] using h
  | cons first rest ih =>
    simp only [assign] at h
    split at h
    · rcases List.mem_cons.mp h with same | later
      · exact .inl same
      · exact .inr (List.mem_cons_of_mem _ later)
    · rcases List.mem_cons.mp h with same | later
      · exact .inr (same ▸ List.mem_cons_self)
      · exact (ih later).imp_right (List.mem_cons_of_mem _)

/-- Everything in the index is one of the rules. -/
structure From (index : Index) (rules : List Placed) : Prop where
  variable_mem : ∀ name v, (name, v) ∈ index.definitions → ∃ p ∈ rules, p.asVariable = some v
  callable_mem : ∀ c ∈ index.callables, ∃ p ∈ rules, p.asCallable = some c

theorem From.add {index : Index} (h : index.From rules) {p : Placed} (inside : p ∈ rules) :
    (index.add p).From rules := by
  unfold Index.add
  split
  · rename_i v isVariable
    refine { h with variable_mem := fun name w member => ?_ }
    rcases mem_assign member with same | earlier
    · cases same
      exact ⟨p, inside, isVariable⟩
    · exact h.variable_mem name w earlier
  · rename_i c isCallable
    refine { h with callable_mem := fun d member => ?_ }
    rcases List.mem_append.mp member with earlier | last
    · exact h.callable_mem d earlier
    · cases List.mem_singleton.mp last
      exact ⟨p, inside, isCallable⟩
  · exact h

theorem from_foldl : ∀ (rest : List Placed) {index : Index},
    index.From rules → (∀ p ∈ rest, p ∈ rules) → (rest.foldl Index.add index).From rules
  | [], _, h, _ => h
  | p :: rest, _, h, inside =>
    from_foldl rest (h.add (inside p List.mem_cons_self))
      fun q later => inside q (List.mem_cons_of_mem _ later)

theorem ofRules_from (rules : List Placed) : (ofRules rules).From rules :=
  from_foldl rules ⟨nofun, nofun⟩ fun _ inside => inside

theorem lookup_assign (key name : String) (value : α) (assigned : List (String × α)) :
    (assign key value assigned).lookup name =
      if key = name then some value else assigned.lookup name := by
  induction assigned with
  | nil =>
    by_cases here : key = name
    · simp [assign, here]
    · simp [assign, List.lookup_cons, here, beq_eq_false_iff_ne.mpr (Ne.symm here)]
  | cons first rest ih =>
    obtain ⟨k, v⟩ := first
    simp only [assign]
    split
    · rename_i same
      obtain rfl := beq_iff_eq.mp same
      simp only [List.lookup_cons]
      by_cases here : k = name
      · simp [here]
      · simp [here, beq_eq_false_iff_ne.mpr (Ne.symm here)]
    · rename_i other
      simp only [List.lookup_cons, ih]
      by_cases here : name = k
      · subst here
        have : key ≠ name := fun same => other (beq_iff_eq.mpr same.symm)
        simp [this]
      · simp [beq_eq_false_iff_ne.mpr here]

theorem definitionOf_add (index : Index) (p : Placed) (name : String) :
    (index.add p).definitionOf name = (p.definitionOf name).or (index.definitionOf name) := by
  unfold Index.add Placed.definitionOf definitionOf
  cases isVariable : p.asVariable with
  | some v =>
    simp only [lookup_assign, Option.filter_some, beq_iff_eq]
    split <;> simp
  | none => cases p.asCallable <;> simp

theorem callables_add (index : Index) (p : Placed) :
    (index.add p).callables = index.callables ++ p.asCallable.toList := by
  unfold Index.add
  cases isVariable : p.asVariable with
  | some v => simp [Placed.asCallable_of_asVariable isVariable]
  | none => cases p.asCallable <;> simp

theorem definitionOf_ofRules (rules : List Placed) (name : String) :
    (ofRules rules).definitionOf name = (rules.filterMap (·.definitionOf name)).getLast? := by
  have fold : ∀ index : Index, (rules.foldl add index).definitionOf name =
      (rules.filterMap (·.definitionOf name)).getLast?.or (index.definitionOf name) := by
    induction rules with
    | nil => exact fun _ => rfl
    | cons p rules ih =>
      intro index
      rw [List.foldl_cons, ih, definitionOf_add, ← Option.or_assoc]
      congr 1
      cases found : p.definitionOf name with
      | none => simp [found]
      | some v =>
        simp only [List.filterMap_cons, found, List.getLast?_cons]
        cases (rules.filterMap (·.definitionOf name)).getLast? <;> rfl
  simpa [ofRules, definitionOf, empty] using fold empty

theorem callables_ofRules (rules : List Placed) :
    (ofRules rules).callables = rules.filterMap (·.asCallable) := by
  have fold : ∀ index : Index,
      (rules.foldl add index).callables = index.callables ++ rules.filterMap (·.asCallable) := by
    induction rules with
    | nil => simp
    | cons p rules ih =>
      intro index
      rw [List.foldl_cons, ih, callables_add]
      cases found : p.asCallable <;> simp [found]
  simpa [ofRules, empty] using fold empty

end Index

def Frame.Fresh (f : Frame) : Prop :=
  f.names = Index.ofRules f.rules

/-- The names of every frame are those of its rules. -/
def Frames.Fresh (store : Frames) : Prop :=
  ∀ id, (store.get id).Fresh

namespace Frame

theorem Fresh.ofPlaced (rules : List Placed) (nesting : Nat) : (Frame.ofPlaced rules nesting).Fresh :=
  rfl

theorem Fresh.spliceAt (f : Frame) (position remove : Nat) (rules : List Placed) (nesting : Nat) :
    (f.spliceAt position remove rules nesting).Fresh :=
  rfl

theorem Fresh.of_indexed {f f' : Frame} (h : f.Fresh) (indexed : f.Indexed f') : f'.Fresh := by
  unfold Fresh
  rw [indexed.names, indexed.rules]
  exact h

theorem Fresh.prependExports {f : Frame} (h : f.Fresh) (rules : List Placed)
    (closure : List FrameId) (source : Frame) : (f.prependExports rules closure source).Fresh := by
  unfold Frame.prependExports
  rw [Frame.prepend_eq]
  split
  · exact h
  · exact Fresh.spliceAt ..

theorem Fresh.variable_mem {f : Frame} (h : f.Fresh) (found : f.names.definitionOf name = some v) :
    ∃ e ∈ f.entries, e.toPlaced.asVariable = some v := by
  rw [h] at found
  obtain ⟨before, after, definitions, -⟩ := List.lookup_eq_some_iff.mp found
  obtain ⟨p, member, isVariable⟩ :=
    (Index.ofRules_from f.rules).variable_mem name v (by simp [definitions])
  obtain ⟨e, inside, rfl⟩ := f.mem_rules.mp member
  exact ⟨e, inside, isVariable⟩

theorem Fresh.callable_mem {f : Frame} (h : f.Fresh) (found : c ∈ f.names.callablesNamed name) :
    ∃ e ∈ f.entries, e.toPlaced.asCallable = some c := by
  rw [h] at found
  obtain ⟨p, member, isCallable⟩ :=
    (Index.ofRules_from f.rules).callable_mem c (List.mem_filter.mp found).1
  obtain ⟨e, inside, rfl⟩ := f.mem_rules.mp member
  exact ⟨e, inside, isCallable⟩

end Frame

end StyleResolution
