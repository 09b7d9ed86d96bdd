import StyleResolution.Scope.Environment

/-! # The store of frames

What a frame looks like after another one was changed or added, and after an index was kept. A
look-up may keep the index of a frame it consults; nothing else of the frame changes then, and the
names it answers to stay the same.
-/

namespace StyleResolution

theorem Placed.ofBlock_rules (site : Site) (rules : List Rule) :
    (Placed.ofBlock site rules).map (·.rule) = rules := by
  apply List.ext_getElem
  · simp [Placed.ofBlock]
  · simp [Placed.ofBlock]

namespace FrameData

/-- The bounds of a splice only matter up to the number of rules. -/
theorem replaced_clamped {items : List α} (position remove : Nat) (new : List α) :
    replaced (min position (min (position + remove) items.length))
        (min (position + remove) items.length) new items =
      items.take position ++ new ++ items.drop (position + remove) := by
  have start : min position (min (position + remove) items.length) = min position items.length := by
    omega
  rw [replaced, start, ← List.take_eq_take_min, ← List.drop_eq_drop_min]

end FrameData

namespace Frame

/-! ## The rules with their nestings -/

variable (f : Frame)

theorem length_nestings : f.nestings.length = f.rules.length :=
  f.parallel

@[simp] theorem length_entries : f.entries.length = f.size := by
  simp [entries, length_nestings, FrameData.size]

theorem map_toPlaced_entries : f.entries.map (·.toPlaced) = f.rules := by
  apply List.ext_getElem?
  intro i
  have := f.length_nestings
  by_cases inside : i < f.rules.length <;> simp [entries, List.getElem?_zipWith] <;> grind

theorem mem_rules : p ∈ f.rules ↔ ∃ e ∈ f.entries, e.toPlaced = p := by
  rw [← f.map_toPlaced_entries, List.mem_map]

theorem map_nesting_entries : f.entries.map (·.nesting) = f.nestings := by
  apply List.ext_getElem?
  intro i
  have := f.length_nestings
  by_cases inside : i < f.rules.length <;> simp [entries, List.getElem?_zipWith] <;> grind

theorem entryAt_eq (position : Nat) : f.entryAt position = f.entries[position]? := by
  have := f.length_nestings
  unfold entryAt entries FrameData.nestingAt
  rw [List.getElem?_zipWith]
  cases at_ : f.rules[position]? with
  | none => rfl
  | some rule =>
    have inside : position < f.nestings.length := by grind
    simp [List.getElem?_eq_getElem inside]

variable {f} in
theorem mem_entries_of_entryAt (found : f.entryAt position = some e) : e ∈ f.entries :=
  List.mem_of_getElem? ((f.entryAt_eq position).symm.trans found)

theorem nestingAt_eq (position : Nat) :
    f.nestingAt position = (f.entries[position]?).elim f.base (·.nesting) := by
  rw [FrameData.nestingAt, ← map_nesting_entries, List.getElem?_map]
  cases f.entries[position]? <;> rfl

theorem zipWith_mk_replicate (rules : List Placed) (nesting : Nat) :
    rules.zipWith Entry.mk (List.replicate rules.length nesting) =
      rules.map fun p => { p with nesting } := by
  induction rules with
  | nil => rfl
  | cons p rules ih => simp [List.replicate_succ, ih]

@[simp] theorem entries_empty : empty.entries = [] :=
  rfl

@[simp] theorem entries_ofPlaced (rules : List Placed) (nesting : Nat) :
    (ofPlaced rules nesting).entries = rules.map fun p => { p with nesting } :=
  zipWith_mk_replicate rules nesting

@[simp] theorem entries_spliceAt (position remove : Nat) (rules : List Placed) (nesting : Nat) :
    (f.spliceAt position remove rules nesting).entries =
      f.entries.take position ++ rules.map (fun p => { p with nesting }) ++
        f.entries.drop (position + remove) := by
  have parallel := f.length_nestings
  unfold entries spliceAt FrameData.spliceAt
  dsimp only
  rw [FrameData.replaced_clamped, ← parallel, FrameData.replaced_clamped]
  simp [List.zipWith_append, parallel, zipWith_mk_replicate, List.take_zipWith, List.drop_zipWith]

@[simp] theorem entries_splice (position remove : Nat) (rules : List Placed) :
    (f.splice position remove rules).entries =
      f.entries.take position ++
        rules.map (fun p => { p with nesting := if 0 < remove then f.nestingAt position else f.base }) ++
          f.entries.drop (position + remove) :=
  f.entries_spliceAt ..

theorem entries_push (rule : Placed) :
    (f.push rule).entries = f.entries ++ [{ rule with nesting := f.base }] := by
  refine (f.entries_splice f.size 0 [rule]).trans ?_
  simp [← length_entries]

theorem prepend_eq (rules : List Placed) :
    f.prepend rules = if rules.isEmpty then f else f.splice 0 0 rules := by
  unfold prepend FrameData.prepend
  split <;> rfl

theorem entries_prepend (rules : List Placed) :
    (f.prepend rules).entries = (rules.map fun p => { p with nesting := f.base }) ++ f.entries := by
  rw [prepend_eq]
  split
  · simp_all
  · exact (f.entries_spliceAt 0 0 rules f.base).trans (by simp)

theorem prependExports_entries (rules : List Placed) (closure : List FrameId) (source : Frame) :
    (f.prependExports rules closure source).entries =
      (rules.map fun p => { p with nesting := f.base }) ++ f.entries :=
  entries_prepend ..

theorem prependExports_rules (rules : List Placed) (closure : List FrameId) (source : Frame) :
    (f.prependExports rules closure source).rules = rules ++ f.rules := by
  rw [← map_toPlaced_entries, prependExports_entries, List.map_append, map_toPlaced_entries]
  simp [Function.comp_def]

/-- The second frame is the first one, possibly with its index kept. -/
def Indexed (f f' : Frame) : Prop :=
  f' = f ∨ f' = f.indexed

@[simp] theorem indexed_indexed (f : Frame) : f.indexed.indexed = f.indexed := rfl

namespace Indexed

theorem refl (f : Frame) : f.Indexed f := .inl rfl

theorem trans {f g h : Frame} (first : f.Indexed g) (second : g.Indexed h) : f.Indexed h := by
  rcases first with rfl | rfl
  · exact second
  · rcases second with rfl | rfl
    · exact .inr rfl
    · exact .inr (indexed_indexed f)

theorem entries {f f' : Frame} (h : f.Indexed f') : f'.entries = f.entries := by
  rcases h with rfl | rfl <;> rfl

theorem rules {f f' : Frame} (h : f.Indexed f') : f'.rules = f.rules := by
  rcases h with rfl | rfl <;> rfl

theorem base {f f' : Frame} (h : f.Indexed f') : f'.base = f.base := by
  rcases h with rfl | rfl <;> rfl

theorem closures {f f' : Frame} (h : f.Indexed f') : f'.closures = f.closures := by
  rcases h with rfl | rfl <;> rfl

theorem names {f f' : Frame} (h : f.Indexed f') : f'.names = f.names := by
  rcases h with rfl | rfl <;> rfl

end Indexed

@[simp] theorem entries_ofBlock (site : Site) (rules : List Rule) (nesting : Nat) :
    (ofBlock site rules nesting).entries =
      (Placed.ofBlock site rules).map fun p => { p with nesting } :=
  entries_ofPlaced ..

theorem mem_ofBlock {site : Site} {rules : List Rule} {nesting : Nat} :
    e ∈ (ofBlock site rules nesting).entries ↔
      ∃ p ∈ Placed.ofBlock site rules, ({ p with nesting } : Entry) = e := by
  rw [entries_ofBlock, List.mem_map]

theorem ofBlock_rules (site : Site) (rules : List Rule) (nesting : Nat) :
    (Frame.ofBlock site rules nesting).entries.map (·.rule) = rules := by
  rw [entries_ofBlock, List.map_map]
  exact Placed.ofBlock_rules site rules

end Frame

namespace Frames

def size (store : Frames) : Nat :=
  store.frames.size

theorem get_modify_self {store : Frames} {id : FrameId} (inside : id < store.size)
    (change : Frame → Frame) : (store.modify id change).get id = change (store.get id) := by
  have inside : id < store.frames.size := inside
  simp [get, modify, Array.getElem?_modify, Array.getElem?_eq_getElem inside]

theorem get_modify_of_ne (store : Frames) {id other : FrameId} (ne : other ≠ id)
    (change : Frame → Frame) : (store.modify id change).get other = store.get other := by
  simp [get, modify, Array.getElem?_modify, ne.symm]

@[simp] theorem size_modify (store : Frames) (id : FrameId) (change : Frame → Frame) :
    (store.modify id change).size = store.size := by
  simp [size, modify]

theorem get_of_size_le {store : Frames} {id : FrameId} (outside : store.size ≤ id) :
    store.get id = Frame.empty := by
  have outside : store.frames.size ≤ id := outside
  simp [get, Array.getElem?_eq_none outside]

theorem get_modify_of_size_le {store : Frames} {id : FrameId} (outside : store.size ≤ id)
    (change : Frame → Frame) (other : FrameId) :
    (store.modify id change).get other = store.get other := by
  by_cases same : other = id
  · subst same
    rw [get_of_size_le outside, get_of_size_le (by simpa using outside)]
  · exact get_modify_of_ne store same change

@[simp] theorem size_add (store : Frames) (frame : Frame) :
    (store.add frame).2.size = store.size + 1 := by
  simp [size, add]

theorem get_add_self (store : Frames) (frame : Frame) :
    (store.add frame).2.get store.size = frame := by
  simp [get, add, size]

theorem get_add_of_lt {store : Frames} {id : FrameId} (inside : id < store.size) (frame : Frame) :
    (store.add frame).2.get id = store.get id := by
  have inside : id < store.frames.size := inside
  simp [get, add, Array.getElem?_push, Nat.ne_of_lt inside]

theorem forall_get_add {store : Frames} {Q : Frame → Prop} (all : ∀ id, Q (store.get id))
    {frame : Frame} (new : Q frame) (id : FrameId) : Q ((store.add frame).2.get id) := by
  rcases Nat.lt_trichotomy id store.size with inside | rfl | outside
  · rw [get_add_of_lt inside]
    exact all id
  · rw [get_add_self]
    exact new
  · rw [get_of_size_le (by simp; omega), ← get_of_size_le (Nat.le_of_lt outside)]
    exact all id

theorem forall_get_modify {store : Frames} {Q : Frame → Prop} (all : ∀ id, Q (store.get id))
    {id : FrameId} {change : Frame → Frame} (changed : Q (change (store.get id))) (other : FrameId) :
    Q ((store.modify id change).get other) := by
  by_cases inside : id < store.size
  · by_cases same : other = id
    · rw [same, get_modify_self inside]
      exact changed
    · rw [get_modify_of_ne store same]
      exact all other
  · rw [get_modify_of_size_le (Nat.le_of_not_lt inside)]
    exact all other

@[simp] theorem size_keepIndex (store : Frames) (id : FrameId) :
    (store.keepIndex id).size = store.size :=
  size_modify ..

theorem keepIndex_indexed (store : Frames) (id other : FrameId) :
    (store.get other).Indexed ((store.keepIndex id).get other) := by
  by_cases inside : id < store.size
  · by_cases same : other = id
    · subst same
      exact .inr (get_modify_self inside Frame.indexed)
    · exact .inl (get_modify_of_ne store same Frame.indexed)
  · exact .inl (get_modify_of_size_le (Nat.le_of_not_lt inside) Frame.indexed other)

end Frames

end StyleResolution
