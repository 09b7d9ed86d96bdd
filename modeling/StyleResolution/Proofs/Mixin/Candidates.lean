import StyleResolution.Proofs.Evaluation.Locality
import StyleResolution.Proofs.Scope.History

/-! # What a call means

A path leads to callables along the rules of a frame, from one block to the next, and no frame has to
be entered to say which they are. A call means the callables that its path leads to in the nearest
frame in which it leads to any, in document order.
-/

namespace StyleResolution

/-- The callables that a path leads to along rules, in document order. -/
def Callable.along : List String → List Placed → List Callable
  | [], _ => []
  | [name], rules => rules.filterMap (·.answering name)
  | name :: next :: rest, rules =>
    ((rules.filterMap (·.answering name)).filter Callable.isNamespace).flatMap fun c =>
      Callable.along (next :: rest) (Placed.ofBlock c.site c.rules)

/-- The callables that a path leads to in the first of the frames in which it leads to any. -/
def Frames.callablesIn (store : Frames) (path : List String) : List FrameId → List Callable
  | [] => []
  | id :: ids =>
    if (Callable.along path (store.get id).rules).isEmpty then store.callablesIn path ids
    else Callable.along path (store.get id).rules

theorem Frame.rules_ofBlock (site : Site) (rules : List Rule) (nesting : Nat) :
    (Frame.ofBlock site rules nesting).rules = Placed.ofBlock site rules :=
  rfl

theorem Frames.callablesIn_append (store : Frames) (path : List String) (ids later : List FrameId) :
    store.callablesIn path (ids ++ later) =
      if (store.callablesIn path ids).isEmpty then store.callablesIn path later
      else store.callablesIn path ids := by
  induction ids with
  | nil => rfl
  | cons id ids ih =>
    simp only [List.cons_append, Frames.callablesIn]
    split
    · exact ih
    · rfl

theorem Local.callablesIn {s t : Evaluation} (same : Local limit none Frame.Grown s t)
    (path : List String) (inside : ∀ id ∈ ids, id < s.frames.size) :
    t.frames.callablesIn path ids = s.frames.callablesIn path ids := by
  induction ids with
  | nil => rfl
  | cons id ids ih =>
    have indexed := same.other id (inside id List.mem_cons_self) nofun
    rw [Frames.callablesIn, Frames.callablesIn, indexed.rules,
      ih fun other member => inside other (List.mem_cons_of_mem _ member)]

/-- The frames in scope are frames of the store, and their indexes are up to date. -/
def Frames.Holds (store : Frames) (ids : List FrameId) : Prop :=
  ∀ id ∈ ids, id < store.size ∧ (store.get id).Fresh

theorem Frames.Holds.moved (held : s.frames.Holds ids) (same : Local limit none Frame.Grown s t) :
    t.frames.Holds ids := by
  intro id member
  obtain ⟨inside, fresh⟩ := held id member
  exact ⟨Nat.lt_of_lt_of_le inside same.size, fresh.of_indexed (same.other id inside nofun)⟩

namespace Eval

variable {setting : Setting} {s : Evaluation}

/-- The search finds the callables, whatever frames it makes. -/
abbrev Finds {α : Type} (setting : Setting) (s : Evaluation) (callable : α → Callable)
    (x : Eval (List α)) (expected : List Callable) : Prop :=
  Ends setting s x (fun found t => found.map callable = expected ∧
    Local setting.options.maxMixinDepth none Frame.Grown s t) fun _ _ => False

theorem Finds.of_ends {callable : α → Callable} {x : Eval (List α)}
    (h : Ends setting s x (fun found _ => found.map callable = expected) fun _ _ => False)
    (keeps : KeepsLocal setting none x) : Finds setting s callable x expected :=
  (h.and (keeps.ends setting s)).mono (fun _ _ both => both) fun _ _ never => never.1

theorem searchNamespaces_finds {search : FrameId → Eval (List Reached)}
    (keeps : ∀ id, KeepsLocal setting none (search id))
    (finds : ∀ id t, (t.frames.get id).Fresh →
      Finds setting t Reached.callable (search id) (Callable.along path (t.frames.get id).rules))
    (f : Frame) (cs : List Callable) :
    Finds setting s Reached.callable (searchNamespaces search f cs)
      (cs.flatMap fun c => Callable.along path (Placed.ofBlock c.site c.rules)) := by
  refine Finds.of_ends ?_ (searchNamespaces_local keeps f cs)
  induction cs generalizing s with
  | nil => exact .pure rfl
  | cons c cs ih =>
    refine .bind_of_ok (addFrame_apply _ setting s) ?_
    have block := Frames.get_add_self s.frames (Frame.ofBlock c.site c.rules 0)
    have entered := finds s.frames.size
      { s with frames := (s.frames.add (Frame.ofBlock c.site c.rules 0)).2 }
    rw [block, Frame.rules_ofBlock] at entered
    refine .seq (entered (Frame.Fresh.ofPlaced _ _)) ?_
    rintro found t ⟨first, -⟩
    refine .seq ih (fun others u rest => .pure ?_)
    rw [List.map_append, rest, List.map_map, List.flatMap_cons, ← first]
    rfl

theorem searchFrame_finds : ∀ (path : List String) (id : FrameId) (s : Evaluation),
    (s.frames.get id).Fresh → Finds setting s Reached.callable (searchFrame path id)
      (Callable.along path (s.frames.get id).rules)
  | [], _, _, _ => Finds.of_ends (.pure rfl) (.pure _)
  | [name], id, s, fresh => by
      refine Finds.of_ends ?_ (searches_local.searchFrame [name] id)
      refine .seq (consult_ends id) ?_
      rintro index t rfl
      refine .ofState (.pure ?_)
      rw [List.map_map, fresh.callablesNamed]
      exact List.map_id _
  | name :: next :: rest, id, s, fresh => by
      refine Finds.of_ends ?_ (searches_local.searchFrame (name :: next :: rest) id)
      refine .seq (consult_ends id) ?_
      rintro index t rfl
      refine .ofState ?_
      have searched := searchNamespaces_finds (s := t) (searches_local.searchFrame (next :: rest))
        (searchFrame_finds (next :: rest)) (t.frames.get id)
        (((s.frames.get id).names.callablesNamed name).filter Callable.isNamespace)
      refine searched.imp (fun found u both => ?_)
      rw [both.1, fresh.callablesNamed]
      rfl

theorem searchStack_finds (path : List String) (captured : List (List FrameId))
    (held : s.frames.Holds stack) :
    Finds setting s Candidate.callable (searchStack path captured stack)
      (s.frames.callablesIn path stack) := by
  refine Finds.of_ends ?_ (searches_local.searchStack path captured stack)
  induction stack generalizing s with
  | nil => exact .pure rfl
  | cons id outer ih =>
    have heldOuter : s.frames.Holds outer :=
      fun other member => held other (List.mem_cons_of_mem _ member)
    refine .seq (searchFrame_finds path id s (held id List.mem_cons_self).2) ?_
    rintro found t ⟨along, same⟩
    simp only [Frames.callablesIn, ← along, List.isEmpty_map]
    split
    · rw [← same.callablesIn path fun other member => (heldOuter other member).1]
      exact ih (heldOuter.moved same)
    · exact .pure (List.map_map ..)

/-- A call means what its path leads to in the nearest frame in which it leads to anything. -/
theorem findCandidates_finds (env : Environment) (path : List String)
    (held : s.frames.Holds env.chain) :
    Finds setting s Candidate.callable (findCandidates env path)
      (s.frames.callablesIn path env.chain) := by
  refine Finds.of_ends ?_ (searches_local.findCandidates env path)
  unfold findCandidates
  unfold Environment.chain at held ⊢
  generalize env.allStacks = stacked at held ⊢
  induction stacked generalizing s with
  | nil => exact .pure rfl
  | cons stack captured ih =>
    have heldStack : s.frames.Holds stack := fun id member =>
      held id (List.mem_append_left _ member)
    have heldCaptured : s.frames.Holds captured.flatten := fun id member =>
      held id (List.mem_append_right _ member)
    refine .seq (searchStack_finds path captured heldStack) ?_
    rintro found t ⟨first, same⟩
    rw [List.flatten_cons, Frames.callablesIn_append, ← first, List.isEmpty_map]
    split
    · rw [← same.callablesIn path fun id member => (heldCaptured id member).1]
      exact ih (heldCaptured.moved same)
    · exact .pure rfl

end Eval

end StyleResolution
