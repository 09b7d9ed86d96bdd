import StyleResolution.Proofs.Coupling.Correspondence

/-! # States that belong together

`Sim` relates the states of two compilations of sheets that belong together, and `Ties` says that
two computations keep it: they end together, in states that are related in a world that has possibly
grown.
-/

namespace StyleResolution

open Eval

def Importer.Same (i j : Importer) : Prop :=
  { i with deferred := [] } = { j with deferred := [] }

namespace Coupling

variable {K : Coupling} {setting : Setting} {W W' : World} {s s' t t' : Evaluation}

/-! ## Frames -/

/-- The frames belong together. -/
structure FrameLink (K : Coupling) (W : World) (f f' : Frame) : Prop where
  entries : K.Matched W f.entries f'.entries
  base : f'.base = f.base
  closures : List.Forall₂ (fun c c' => K.SiteLink W c.1 c'.1 ∧ List.Forall₂ W.ids c.2 c'.2)
    f.closures f'.closures

namespace FrameLink

variable {f f' g g' : Frame}

theorem mono (link : K.FrameLink W f f') (grown : W ≤ W') : K.FrameLink W' f f' where
  entries := link.entries.mono grown
  base := link.base
  closures := link.closures.imp fun _ _ both => ⟨both.1.mono grown, both.2.imp grown.1⟩

theorem of_indexed (link : K.FrameLink W f f') (left : f.Indexed g) (right : f'.Indexed g') :
    K.FrameLink W g g' where
  entries := by
    rw [left.entries, right.entries]
    exact link.entries
  base := by rw [left.base, right.base, link.base]
  closures := by
    rw [left.closures, right.closures]
    exact link.closures

theorem ofBlock
    (aligned : Aligned Placed.rule K.cut K.twin (Placed.ofBlock site rules) (Placed.ofBlock site' rules'))
    (nesting : Nat) :
    K.FrameLink W (Frame.ofBlock site rules nesting) (Frame.ofBlock site' rules' nesting) where
  entries := by
    rw [Frame.entries_ofBlock, Frame.entries_ofBlock]
    exact Matched.ofPlaced (aligned.mono fun _ _ => .twin) nesting
  base := rfl
  closures := .nil

theorem closureOf (link : K.FrameLink W f f') (one : OneToOne (K.SiteLink W))
    (sites : K.SiteLink W site site') :
    Option.Rel (List.Forall₂ W.ids) (f.closureOf site) (f'.closureOf site') := by
  unfold FrameData.closureOf
  have closures := link.closures
  generalize f.closures = cs at closures ⊢
  generalize f'.closures = cs' at closures ⊢
  induction closures with
  | nil => exact .none
  | @cons c c' cs cs' same _ ih =>
    obtain ⟨own, ids⟩ := c
    obtain ⟨own', ids'⟩ := c'
    simp only [List.lookup_cons]
    have found : (site == own) = (site' == own') := by
      rw [Bool.eq_iff_iff, beq_iff_eq, beq_iff_eq]
      exact one sites same.1
    rw [found]
    split
    · exact .some same.2
    · exact ih

end FrameLink

/-! ## States -/

/-- The states of the two compilations belong together. -/
structure Sim (K : Coupling) (W : World) (s t : Evaluation) : Prop where
  ids : OneToOne W.ids
  made : OneToOne W.made
  inside : ∀ i j, W.ids i j → i < s.frames.size ∧ j < t.frames.size
  before : ∀ a b, W.made a b → a < s.made ∧ b < t.made
  frames : ∀ i j, W.ids i j → K.FrameLink W (s.frames.get i) (t.frames.get j)
  fresh : s.frames.Fresh
  freshToo : t.frames.Fresh
  importer : s.importer.Same t.importer
  idle : s.Idle
  idleToo : t.Idle
  expanding : List.Forall₂ (K.SiteLink W) s.expanding t.expanding
  /-- Where calls were replaced, the bodies of callables that are being expanded are not static. -/
  busy : ¬ K.Exact → ∀ site ∈ s.expanding, ∃ inner, K.block site inner ∧ Rule.areStatic inner = false

namespace Sim

section

variable (sim : K.Sim W s t)

include sim

theorem one (lawful : K.Lawful setting) : OneToOne (K.SiteLink W) :=
  lawful.oneToOne sim.made

/-- Frames and definitions that only one of the compilations makes do not matter. -/
theorem extend (left : Extends s s') (right : Extends t t') (same : s'.importer.Same t'.importer) :
    K.Sim W s' t' where
  ids := sim.ids
  made := sim.made
  inside i j linked := by
    obtain ⟨inside, insideToo⟩ := sim.inside i j linked
    exact ⟨Nat.lt_of_lt_of_le inside left.size, Nat.lt_of_lt_of_le insideToo right.size⟩
  before a b linked := by
    have := sim.before a b linked
    have := left.made
    have := right.made
    omega
  frames i j linked :=
    (sim.frames i j linked).of_indexed (left.frame i (sim.inside i j linked).1)
      (right.frame j (sim.inside i j linked).2)
  fresh := left.fresh sim.fresh
  freshToo := right.fresh sim.freshToo
  importer := same
  idle := sim.idle.of_restored left.restored
  idleToo := sim.idleToo.of_restored right.restored
  expanding := by
    have left := left.restored
    have right := right.restored
    simp only [Evaluation.scopedPart, Scoped.mk.injEq] at left right
    rw [left.2.2.2.1, right.2.2.2.1]
    exact sim.expanding
  busy := by
    have left := left.restored
    simp only [Evaluation.scopedPart, Scoped.mk.injEq] at left
    rw [left.2.2.2.1]
    exact sim.busy

theorem quiet (left : Quiet s s') (right : Quiet t t') : K.Sim W s' t' := by
  refine sim.extend left.extends right.extends ?_
  rw [left.importer, right.importer]
  exact sim.importer

theorem extendLeft (left : Extends s s') (same : s'.importer = s.importer) :
    K.Sim W s' t :=
  sim.extend left (.refl t) (same ▸ sim.importer)

theorem extendRight (right : Extends t t') (same : t'.importer = t.importer) :
    K.Sim W s t' :=
  sim.extend (.refl s) right (same ▸ sim.importer)

theorem respan (span span' : Span) :
    K.Sim W { s with span } { t with span := span' } :=
  sim.extend { Extends.refl s with } { Extends.refl t with } sim.importer

theorem logged (e e' : Event) :
    K.Sim W { s with events := s.events.push e } { t with events := t.events.push e' } :=
  sim.extend { Extends.refl s with } { Extends.refl t with } sim.importer

theorem withImporters (same : i.Same j) :
    K.Sim W { s with importer := i } { t with importer := j } where
  ids := sim.ids
  made := sim.made
  inside := sim.inside
  before := sim.before
  frames := sim.frames
  fresh := sim.fresh
  freshToo := sim.freshToo
  importer := same
  idle := { sim.idle with }
  idleToo := { sim.idleToo with }
  expanding := sim.expanding
  busy := sim.busy

theorem add (link : K.FrameLink W f f') (fresh : f.Fresh) (freshToo : f'.Fresh) :
    K.Sim (W.addIds s.frames.size t.frames.size) { s with frames := (s.frames.add f).2 }
      { t with frames := (t.frames.add f').2 } where
  ids := World.oneToOne_insert sim.ids fun i j old =>
    ⟨Nat.ne_of_lt (sim.inside i j old).1, Nat.ne_of_lt (sim.inside i j old).2⟩
  made := sim.made
  inside i j linked := by
    simp only [Frames.size_add]
    rcases linked with old | ⟨rfl, rfl⟩
    · obtain ⟨inside, insideToo⟩ := sim.inside i j old
      exact ⟨Nat.lt_succ_of_lt inside, Nat.lt_succ_of_lt insideToo⟩
    · exact ⟨Nat.lt_succ_self _, Nat.lt_succ_self _⟩
  before := sim.before
  frames i j linked := by
    rcases linked with old | ⟨rfl, rfl⟩
    · obtain ⟨inside, insideToo⟩ := sim.inside i j old
      rw [Frames.get_add_of_lt inside, Frames.get_add_of_lt insideToo]
      exact (sim.frames i j old).mono (W.le_addIds _ _)
    · rw [Frames.get_add_self, Frames.get_add_self]
      exact link.mono (W.le_addIds _ _)
  fresh := Frames.forall_get_add sim.fresh fresh
  freshToo := Frames.forall_get_add sim.freshToo freshToo
  importer := sim.importer
  idle := { sim.idle with }
  idleToo := { sim.idleToo with }
  expanding := sim.expanding.imp fun _ _ link => link.mono (W.le_addIds _ _)
  busy := sim.busy

/-- Frames that belong together are changed in ways that belong together. -/
theorem modify (linked : W.ids i j)
    (link : K.FrameLink W (f (s.frames.get i)) (f' (t.frames.get j)))
    (fresh : (f (s.frames.get i)).Fresh) (freshToo : (f' (t.frames.get j)).Fresh) :
    K.Sim W { s with frames := s.frames.modify i f } { t with frames := t.frames.modify j f' } where
  ids := sim.ids
  made := sim.made
  inside k l linked := by
    simp only [Frames.size_modify]
    exact sim.inside k l linked
  before := sim.before
  frames k l linkedToo := by
    by_cases same : k = i
    · obtain rfl : l = j := (sim.ids linkedToo linked).mp same
      subst same
      obtain ⟨inside, insideToo⟩ := sim.inside k l linkedToo
      rw [Frames.get_modify_self inside, Frames.get_modify_self insideToo]
      exact link
    · have sameToo : l ≠ j := fun h => same ((sim.ids linkedToo linked).mpr h)
      rw [Frames.get_modify_of_ne _ same, Frames.get_modify_of_ne _ sameToo]
      exact sim.frames k l linkedToo
  fresh := Frames.forall_get_modify sim.fresh fresh
  freshToo := Frames.forall_get_modify sim.freshToo freshToo
  importer := sim.importer
  idle := { sim.idle with }
  idleToo := { sim.idleToo with }
  expanding := sim.expanding
  busy := sim.busy

theorem link {a b : Nat} (left : a < s.made) (right : b < t.made)
    (apart : ∀ c d, W.made c d → c ≠ a ∧ d ≠ b) : K.Sim (W.addMade a b) s t where
  ids := sim.ids
  made := World.oneToOne_insert sim.made apart
  inside := sim.inside
  before c d linked := by
    rcases linked with old | ⟨rfl, rfl⟩
    · exact sim.before c d old
    · exact ⟨left, right⟩
  frames i j linked := (sim.frames i j linked).mono (W.le_addMade _ _)
  fresh := sim.fresh
  freshToo := sim.freshToo
  importer := sim.importer
  idle := sim.idle
  idleToo := sim.idleToo
  expanding := sim.expanding.imp fun _ _ link => link.mono (W.le_addMade _ _)
  busy := sim.busy

theorem make :
    K.Sim (W.addMade s.made t.made) { s with made := s.made + 1 } { t with made := t.made + 1 } := by
  have made : K.Sim W { s with made := s.made + 1 } { t with made := t.made + 1 } :=
    sim.extend { Extends.refl s with made := Nat.le_succ _ }
      { Extends.refl t with made := Nat.le_succ _ } sim.importer
  refine made.link (Nat.lt_succ_self _) (Nat.lt_succ_self _) fun c d old => ?_
  have := sim.before c d old
  omega

theorem sameScope (lawful : K.Lawful setting) (envs : EnvLink W env env') :
    SameScope (K.SiteLink W) False env env' s t where
  one := sim.one lawful
  names := envs.chain.imp fun i j linked => by
    rw [sim.fresh i, sim.freshToo j]
    exact (sim.frames i j linked).entries.definitions lawful
  size := False.elim
  parenDepth := sim.idle.parenDepth.trans sim.idleToo.parenDepth.symm
  defaultAnswer := sim.idle.defaultAnswer.trans sim.idleToo.defaultAnswer.symm
  evaluating := by
    rw [sim.idle.evaluating, sim.idleToo.evaluating]
    exact .nil

end

end Sim

/-! ## Computations -/

variable {α α' β β' : Type} {tight causes : Prop}

open Eval

/-- The computations end together, with related results in states that belong together. -/
def Ties (K : Coupling) (tight causes : Prop) (setting : Setting) (W : World) (s t : Evaluation)
    (x : Eval α) (y : Eval β) (R : World → α → β → Prop) : Prop :=
  Tied (K.proviso tight causes) setting s t x y fun a s' b t' =>
    ∃ W', W ≤ W' ∧ R W' a b ∧ K.Sim W' s' t'

theorem Growing.since (growing : Growing setting x) :
    Keeps setting (K.proviso tight causes).Since x :=
  fun s fair => trans_of Grows (growing.keeps s) fair

/-- A state of the first compilation that it passes through may be assumed to be remembered. -/
theorem Tied.assume [growing : Growing setting x]
    (h : Grows s K.final → Tied (K.proviso tight causes) setting s t x y ok) :
    Tied (K.proviso tight causes) setting s t x y ok :=
  fun fair => h (trans_of Grows (growing.keeps s) fair) fair

namespace Ties

variable {R : World → α → β → Prop} {x : Eval α} {y : Eval β}

theorem of_tied
    (h : Tied (K.proviso tight causes) setting s t x y fun a s' b t' => R W a b ∧ K.Sim W s' t') :
    K.Ties tight causes setting W s t x y R :=
  h.mono fun _ _ _ _ related => ⟨W, le_refl W, related⟩

theorem pure (related : R W a b) (sim : K.Sim W s t) :
    K.Ties tight causes setting W s t (Pure.pure a) (Pure.pure b) R :=
  Tied.pure ⟨W, le_refl W, related, sim⟩

theorem fail (same : causes → f.cause = g.cause) :
    K.Ties tight causes setting W s t (fail f) (fail g) R :=
  Tied.fail same

theorem failWith (cause : Cause) :
    K.Ties tight causes setting W s t (failWith cause) (failWith cause) R :=
  Tied.failWith cause

theorem mono (h : K.Ties tight causes setting W s t x y R)
    (weaker : ∀ W' a b, W ≤ W' → R W' a b → R' W' a b) : K.Ties tight causes setting W s t x y R' :=
  Tied.mono h fun a _ b _ ⟨W', grown, related, sim⟩ =>
    ⟨W', grown, weaker W' a b grown related, sim⟩

theorem bind {x : Eval α'} {y : Eval β'} {next : α' → Eval α} {next' : β' → Eval β}
    {mid : World → α' → β' → Prop} (first : K.Ties tight causes setting W s t x y mid)
    (then_ : ∀ W' a b s' t', W ≤ W' → mid W' a b → K.Sim W' s' t' →
      K.Ties tight causes setting W' s' t' (next a) (next' b) R)
    [later : ∀ a, Growing setting (next a)] :
    K.Ties tight causes setting W s t (x >>= next) (y >>= next') R := by
  refine Tied.bind first ?_ fun a => Growing.since (later a)
  rintro a s' b t' ⟨W', grown, related, sim⟩
  refine .mono (then_ W' a b s' t' grown related sim) ?_
  rintro c s'' d t'' ⟨W'', grownToo, result⟩
  exact ⟨W'', le_trans grown grownToo, result⟩

theorem map {f : α → α'} {y : Eval α} (h : K.Ties tight causes setting W s t x y fun _ a b => a = b) :
    K.Ties tight causes setting W s t (x >>= fun a => Pure.pure (f a))
      (y >>= fun a => Pure.pure (f a)) fun _ a b => a = b := by
  refine h.bind ?_
  rintro W' a _ s' t' - rfl sim
  exact .pure rfl sim

theorem ofState (h : K.Ties tight causes setting W s t (next s) (next' t) R) :
    K.Ties tight causes setting W s t (state >>= next) (state >>= next') R := h

theorem ofSetting (h : K.Ties tight causes setting W s t (next setting) (next' setting) R) :
    K.Ties tight causes setting W s t (Eval.setting >>= next) (Eval.setting >>= next') R := h

theorem ofFrame
    (h : K.Ties tight causes setting W s t (next (s.frames.get i)) (next' (t.frames.get j)) R) :
    K.Ties tight causes setting W s t (frame i >>= next) (frame j >>= next') R := h

theorem change (h : K.Ties tight causes setting W (f s) (g t) (next ()) (next' ()) R) :
    K.Ties tight causes setting W s t (change f >>= next) (change g >>= next') R := h

theorem locatedAt (h : K.Ties tight causes setting W s t x y R) (span : Span) :
    K.Ties tight causes setting W s t (locatedAt span x) (locatedAt span y) R :=
  Tied.locatedAt h span span

theorem insideOf (h : K.Ties tight causes setting W s t x y R) (label : Unit → String) :
    K.Ties tight causes setting W s t (insideOf label x) (insideOf label y) R :=
  Tied.insideOf h label label

end Ties

/-- What is the same wherever the same names are in scope is the same in both compilations. -/
theorem Sim.tied_of_alike (sim : K.Sim W s t)
    (alike : Alike (K.SiteLink W) False env env' setting s t x y)
    (left : Finishes setting s x fun _ _ => True) (right : Finishes setting t y fun _ _ => True)
    (quiet : Keeps setting Quiet x) (quietToo : Keeps setting Quiet y) :
    Tied .none setting s t x y fun a s' b t' => a = b ∧ K.Sim W s' t' := by
  have settled : Tied .none setting s t x y _ := .settle alike left right
  refine (settled.keeping quiet quietToo).mono ?_
  rintro a s' b t' ⟨⟨same, -⟩, left, right⟩
  exact ⟨same, sim.quiet left right⟩

variable {env env' : Environment}

section

variable (lawful : K.Lawful setting) (sim : K.Sim W s t) (envs : EnvLink W env env')

include lawful sim envs

theorem value_tied (v : Value) :
    Tied .none setting s t (value env v) (value env' v) fun a s' b t' => a = b ∧ K.Sim W s' t' :=
  sim.tied_of_alike (value_alike v (sim.sameScope lawful envs)) (value_finishes env v sim.fresh)
    (value_finishes env' v sim.freshToo) (value_quiet env v) (value_quiet env' v)

theorem value_ties (v : Value) :
    K.Ties tight causes setting W s t (value env v) (value env' v) fun _ a b => a = b :=
  .of_tied (value_tied lawful sim envs v).of_none

theorem dereference_ties (agree : v.Agree (K.SiteLink W) w) :
    K.Ties tight causes setting W s t (dereference env v) (dereference env' w) fun _ a b => a = b :=
  .of_tied (sim.tied_of_alike (dereference_alike agree (sim.sameScope lawful envs))
    (dereference_finishes env v sim.fresh) (dereference_finishes env' w sim.freshToo)
    (dereference_quiet env v) (dereference_quiet env' w)).of_none

theorem evaluatePrelude_ties (span : Span) (prelude : Option Value) :
    K.Ties tight causes setting W s t (evaluatePrelude env span prelude)
      (evaluatePrelude env' span prelude) fun _ a b => a = b := by
  cases prelude with
  | none => exact .pure rfl sim
  | some v =>
    exact .map ((value_ties lawful sim envs v).locatedAt span)

end

end Coupling

end StyleResolution
