import StyleResolution.Proofs.Coupling.Places
import StyleResolution.Proofs.Import.Blocked

/-! # Replaying deferred imports in roots that belong together

Two roots that belong together defer the same imports in the same order and replay them side by
side. Positions are moved in both by the rules that an import brings, so imports that belong together
still do afterwards, as long as there are not more rules than locations. The latter is read off the
moments that are recorded beside a replay, so both replays are compared with a ledger beside them.
-/

namespace StyleResolution

/-! ## Repeating a step -/

namespace Repetition

variable {m : Type → Type} [Monad m] [LawfulMonad m] (step : m Bool)

/-- The number of steps that `repeatPowersFrom` allows for. -/
def powers (w : Nat) : Nat → Nat → Nat
  | _, 0 => 0
  | start, n + 1 => w ^ start + powers w (start + 1) n

theorem repeatUpTo_add (a b : Nat) : repeatUpTo step (a + b) =
    (do if ← repeatUpTo step a then pure true else repeatUpTo step b) := by
  induction a with
  | zero => simp [repeatUpTo]
  | succ a ih =>
    rw [Nat.add_right_comm, repeatUpTo, ih, repeatUpTo]
    simp only [bind_assoc]
    refine bind_congr fun last => ?_
    cases last <;> simp

theorem repeatUpTo_mul (a b : Nat) :
    repeatUpTo (repeatUpTo step a) b = repeatUpTo step (a * b) := by
  induction b with
  | zero => rfl
  | succ b ih => rw [repeatUpTo, ih, Nat.mul_succ, Nat.add_comm (a * b), repeatUpTo_add]

theorem repeatPower_eq (w n : Nat) : repeatPower w step n = repeatUpTo step (w ^ n) := by
  induction n with
  | zero =>
    simp only [repeatPower, Nat.pow_zero, repeatUpTo]
    conv_lhs => rw [← bind_pure step]
    refine bind_congr fun last => ?_
    cases last <;> rfl
  | succ n ih => rw [repeatPower, ih, repeatUpTo_mul, Nat.pow_succ]

theorem repeatPowersFrom_eq (w start n : Nat) :
    repeatPowersFrom w step start n = repeatUpTo step (powers w start n) := by
  induction n generalizing start with
  | zero => rfl
  | succ n ih => rw [repeatPowersFrom, powers, repeatUpTo_add, repeatPower_eq, ih]

end Repetition

/-! ## Tracked computations side by side -/

namespace Tracked

variable {α α' β β' : Type} {good : Moment → Prop} {P : Proviso} {setting : Setting}
  {s t : Evaluation} {l l' : Ledger}

instance : LawfulMonad Tracked :=
  LawfulMonad.mk' Tracked
    (by
      intro α x
      funext setting s l
      have mapped : (id <$> x) setting s l = (x >>= fun a => Pure.pure a) setting s l := rfl
      rw [mapped, bind_apply]
      rcases x setting s l with ⟨f | a, s', l', before⟩
      · rfl
      · exact congrArg (Run.mk _ s' l') (List.append_nil before))
    (fun _ _ => rfl)
    (by
      intro α β γ x f g
      funext setting s l
      simp only [bind_apply]
      rcases x setting s l with ⟨e | a, s', l', before⟩
      · rfl
      · dsimp only
        rcases f a setting s' l' with ⟨e | b, s'', l'', between⟩
        · rfl
        · simp only [List.append_assoc])

/-- Unless the proviso rules it out, and if all moments are good, the two computations end
    together, whatever their ledgers say. -/
def Tied (good : Moment → Prop) (P : Proviso) (setting : Setting) (s : Evaluation) (l : Ledger)
    (t : Evaluation) (l' : Ledger) (x : Tracked α) (y : Tracked β)
    (ok : α → Evaluation → β → Evaluation → Prop) : Prop :=
  (∀ m ∈ (x setting s l).moments, good m) → (∀ m ∈ (y setting t l').moments, good m) →
    P.fair (x setting s l).state → P.Relates ok ((x setting s l).outcome, (x setting s l).state)
      ((y setting t l').outcome, (y setting t l').state)

def Since (P : Proviso) (setting : Setting) (x : Tracked α) : Prop :=
  ∀ s l, P.fair (x setting s l).state → P.fair s

namespace Since

theorem of_erases (erases : Erases x y) (keeps : Eval.Keeps setting P.Since y) :
    Since P setting x := by
  intro s l fair
  have same := congrArg Prod.snd (erases setting s l)
  dsimp only at same
  rw [same] at fair
  exact keeps s fair

theorem bind {x : Tracked β} {next : β → Tracked α} (first : Since P setting x)
    (later : ∀ b, Since P setting (next b)) : Since P setting (x >>= next) := by
  intro s l fair
  rw [bind_apply] at fair
  rcases run : x setting s l with ⟨f | b, s', l', before⟩
  · rw [run] at fair
    have := first s l
    rw [run] at this
    exact this fair
  · rw [run] at fair
    have := first s l
    rw [run] at this
    exact this (later b s' l' fair)

end Since

namespace Tied

variable {ok : α → Evaluation → β → Evaluation → Prop}

theorem of_erases (left : Erases x x') (right : Erases y y') (h : Eval.Tied P setting s t x' y' ok) :
    Tied good P setting s l t l' x y ok := by
  intro _ _ fair
  have leftRun := left setting s l
  have rightRun := right setting t l'
  rw [leftRun, rightRun]
  apply h
  rw [← leftRun]
  exact fair

theorem erase (h : Tied good P setting s l t l' x y ok) (left : Erases x x') (right : Erases y y')
    (goods : ∀ m ∈ (x setting s l).moments, good m)
    (goodsToo : ∀ m ∈ (y setting t l').moments, good m) : Eval.Tied P setting s t x' y' ok := by
  intro fair
  rw [← left setting s l] at fair ⊢
  rw [← right setting t l']
  exact h goods goodsToo fair

theorem pure (related : ok a s b t) : Tied good P setting s l t l' (Pure.pure a) (Pure.pure b) ok :=
  fun _ _ _ => related

theorem bind {x : Tracked α'} {y : Tracked β'} {next : α' → Tracked α} {next' : β' → Tracked β}
    {mid : α' → Evaluation → β' → Evaluation → Prop} (first : Tied good P setting s l t l' x y mid)
    (then_ : ∀ a s' k b t' k', mid a s' b t' →
      Tied good P setting s' k t' k' (next a) (next' b) ok)
    (since : ∀ a, Since P setting (next a)) :
    Tied good P setting s l t l' (x >>= next) (y >>= next') ok := by
  intro goods goodsToo fair
  unfold Tied at first
  simp only [bind_apply] at goods goodsToo fair ⊢
  rcases runX : x setting s l with ⟨f | a, s', k, before⟩ <;>
    rcases runY : y setting t l' with ⟨g | b, t', k', beforeToo⟩ <;>
    rw [runX, runY] at first <;> rw [runX] at fair goods <;> rw [runY] at goodsToo <;>
    simp only [List.mem_append] at goods goodsToo
  · exact first goods goodsToo fair
  · have excuse : P.Excuses f := first goods (fun m member => goodsToo m (.inl member)) fair
    dsimp only
    rcases (next' b setting t' k').outcome with g | b'
    · exact .inl excuse
    · exact excuse
  · have excuse : P.Excuses g :=
      first (fun m member => goods m (.inl member)) goodsToo (since a s' k fair)
    dsimp only
    rcases (next a setting s' k).outcome with f | a'
    · exact .inr (.inl excuse)
    · exact excuse
  · refine then_ a s' k b t' k' ?_ (fun m member => goods m (.inr member))
      (fun m member => goodsToo m (.inr member)) fair
    exact first (fun m member => goods m (.inl member)) (fun m member => goodsToo m (.inl member))
      (since a s' k fair)

theorem ofLift (left : x setting s = (.ok a, s')) (right : y setting t = (.ok b, t'))
    (h : Tied good P setting s' l t' l' (next a) (next' b) ok) :
    Tied good P setting s l t l' (Tracked.lift x >>= next) (Tracked.lift y >>= next') ok := by
  have leftRun : (Tracked.lift x >>= next) setting s l = next a setting s' l := by
    simp only [bind_apply, Tracked.lift, left, List.nil_append]
  have rightRun : (Tracked.lift y >>= next') setting t l' = next' b setting t' l' := by
    simp only [bind_apply, Tracked.lift, right, List.nil_append]
  unfold Tied
  rw [leftRun, rightRun]
  exact h

/-- The moments that are recorded are good. -/
theorem note
    (h : good ⟨(s.frames.get root).entries,
        s.importer.deferred ++ aside (s.frames.get root).entries.length, l⟩ →
      good ⟨(t.frames.get root').entries,
        t.importer.deferred ++ aside' (t.frames.get root').entries.length, l'⟩ →
      Tied good P setting s l t l' (next ()) (next' ()) ok) :
    Tied good P setting s l t l' (Tracked.note root aside >>= next) (Tracked.note root' aside' >>= next')
      ok := by
  intro goods goodsToo fair
  rw [Tracked.moments_note, List.forall_mem_cons] at goods goodsToo
  exact h goods.1 goodsToo.1 goods.2 goodsToo.2 fair

theorem record (h : Tied good P setting s (f l) t (f' l') (next ()) (next' ()) ok) :
    Tied good P setting s l t l' (Tracked.record f >>= next) (Tracked.record f' >>= next') ok := h

theorem mono (h : Tied good P setting s l t l' x y ok)
    (weaker : ∀ a s' b t', ok a s' b t' → ok' a s' b t') : Tied good P setting s l t l' x y ok' :=
  fun goods goodsToo fair => (h goods goodsToo fair).mono weaker

theorem spent (loose : ¬ P.tight) (y : Tracked β) :
    Tied good P setting s l t l' (Tracked.lift (Eval.failWith .exhausted) : Tracked α) y ok := by
  intro _ _ _
  rcases (y setting t l').outcome with g | b
  · exact .inl ⟨loose, rfl⟩
  · exact ⟨loose, rfl⟩

theorem spentToo (loose : ¬ P.tight) (x : Tracked α) :
    Tied good P setting s l t l' x (Tracked.lift (Eval.failWith .exhausted) : Tracked β) ok := by
  intro _ _ _
  rcases (x setting s l).outcome with f | a
  · exact .inr (.inl ⟨loose, rfl⟩)
  · exact ⟨loose, rfl⟩

end Tied

/-- Repeats a step until it is the last one, and fails where the steps do not suffice. -/
def exhaust (step : Tracked Bool) (n : Nat) : Tracked Unit := do
  if ← Repetition.repeatUpTo step n then Pure.pure () else lift (Eval.failWith .exhausted)

theorem exhaust_zero (step : Tracked Bool) : exhaust step 0 = lift (Eval.failWith .exhausted) :=
  rfl

theorem exhaust_succ (step : Tracked Bool) (n : Nat) :
    exhaust step (n + 1) = (do if ← step then Pure.pure () else exhaust step n) := by
  simp only [exhaust, Repetition.repeatUpTo, bind_assoc]
  refine bind_congr fun last => ?_
  cases last <;> simp

theorem Since.exhaust (since : Since P setting step) (n : Nat) :
    Since P setting (exhaust step n) := by
  induction n with
  | zero => exact fun _ _ => id
  | succ n ih =>
    rw [exhaust_succ]
    refine since.bind fun last => ?_
    cases last
    · exact ih
    · exact fun _ _ => id

theorem Tied.exhaust (Inv : Evaluation → Evaluation → Prop) (loose : ¬ P.tight)
    (step : ∀ s l t l', Inv s t → Tied good P setting s l t l' x y fun a s' b t' => b = a ∧ Inv s' t')
    (since : Since P setting x) (n m : Nat) (inv : Inv s t) :
    Tied good P setting s l t l' (Tracked.exhaust x n) (Tracked.exhaust y m)
      fun _ s' _ t' => Inv s' t' := by
  induction n generalizing m s t l l' with
  | zero =>
    rw [exhaust_zero]
    exact .spent loose _
  | succ n ih =>
    cases m with
    | zero =>
      rw [exhaust_zero]
      exact .spentToo loose _
    | succ m =>
      rw [exhaust_succ, exhaust_succ]
      refine .bind (step s l t l' inv) ?_ ?_
      · rintro _ s' k last t' k' ⟨rfl, inv⟩
        cases last
        · exact ih m inv
        · exact .pure inv
      · intro last
        cases last
        · exact since.exhaust n
        · exact fun _ _ => id

theorem replayDeferred_eq (root : FrameId) (width : Nat) :
    replayDeferred root width = (do
      let levels ← lift Eval.importLevels
      exhaust (replayOnce root) (Repetition.powers width 0 (levels + 2))) := by
  unfold replayDeferred exhaust Repetition.repeatPowers
  simp only [Repetition.repeatPowersFrom_eq]

end Tracked

theorem Undisturbed.extends (h : Undisturbed u v) (made : v.made = u.made) : Extends u v where
  size := Nat.le_of_eq h.size.symm
  frame id _ := h.frame id
  fresh old id := (old id).of_indexed (h.frame id)
  restored := h.restored
  made := Nat.le_of_eq made.symm

namespace Coupling

open Eval

variable {K : Coupling} {setting : Setting} {W : World} {s t : Evaluation} {i j : FrameId}
  {tight causes : Prop} {front front' back back' : List Entry} {d d' : DeferredImport}

/-! ## Trying deferred imports -/

/-- How two attempts end together: both with a result, or both with a failure of the same cause. -/
def Attempted {α β : Type} (ok : α → Evaluation → β → Evaluation → Prop) :
    Except Failure α → Evaluation → Except Failure β → Evaluation → Prop
  | .ok a, s', .ok b, t' => ok a s' b t'
  | .error f, _, .error g, _ => f.cause = g.cause
  | _, _, _, _ => False

theorem attempt_tied (h : Tied (K.proviso True True) setting s t x y ok) :
    Tied (K.proviso tight causes) setting s t (attempt x) (attempt y) (Attempted ok) := by
  intro fair
  unfold attempt at fair ⊢
  unfold Tied at h
  rcases runX : x setting s with ⟨f | a, s'⟩ <;> rcases runY : y setting t with ⟨g | b, t'⟩ <;>
    rw [runX, runY] at h <;> rw [runX] at fair
  · have same := ((h fair).resolve_left fun excuse => excuse.1 trivial).resolve_left
      fun excuse => excuse.1 trivial
    exact same trivial
  · exact absurd trivial (h fair).1
  · exact absurd trivial (h fair).1
  · exact h fair

/-- An attempt that fails for an undefined variable leaves everything as it was. -/
def Unchanged (s : Evaluation) (outcome : Except Failure Nat) (s' : Evaluation) : Prop :=
  ∀ f, outcome = .error f → f.isUndefinedVariable = true → Extends s s' ∧ s'.importer = s.importer

theorem tryDeferred_unchanged (root : FrameId) (d : DeferredImport) (site : Site) (node : Import)
    (s : Evaluation) :
    Ends setting s (tryDeferred root d site node) (Unchanged s) fun _ _ => False := by
  have splices := (tryDeferred_splices root d site node).ends setting s
  refine ((tryDeferred_blocked root d site node).and splices).mono ?_ fun _ _ h => h.1
  rintro outcome s' ⟨blocked, splices⟩ f failed undefined
  have undisturbed := (blocked f failed undefined).1
  exact ⟨undisturbed.extends splices.made, undisturbed.importer⟩

section

variable (lawful : K.Lawful setting) (linked : W.ids i j) (scope : EnvLink W d.scope d'.scope)
  (depth : d'.depth = d.depth)
  (h : K.Expanding W i j true front front' [] [] [⟨⟨.fileImport node, site⟩, nesting⟩]
    [⟨⟨.fileImport node, site'⟩, nesting⟩] back back' s t)
  (at_ : d.location = front.length) (atToo : d'.location = front'.length)

include lawful linked scope depth h at_ atToo

theorem spliceDeferred_tied :
    Tied (K.proviso tight causes) setting s t (spliceDeferred i d site node)
      (spliceDeferred j d' site' node) fun n s' n' t' => ∃ new new', n = new.length ∧
        n' = new'.length ∧
        K.Expanding W i j true front front' new new' [] [] back back' s' t' := by
  refine .ofSetting ?_
  rw [depth, at_, atToo]
  refine atBaseDepth_tied _ ?_
  have entered := h.withImporters (h.sim.importer.atBase d.depth) rfl rfl
  have spliced : Tied (K.proviso tight causes) setting _ _ _ _ _ :=
    spliceImport_tied lawful linked scope
      (expandWithin_tied lawful linked scope (setting.options.maxImportDepth + 1)) entered .nil
  rw [List.append_nil, List.append_nil] at spliced
  refine spliced.mono ?_
  rintro n s' n' t' ⟨new, new', rfl, rfl, ended⟩
  refine ⟨new, new', rfl, rfl, ended.withImporters ?_ rfl rfl⟩
  rw [h.sim.importer.baseDepth]
  exact ended.sim.importer.atBase _

theorem tryDeferred_tied :
    Tied (K.proviso tight causes) setting s t (tryDeferred i d site node)
      (tryDeferred j d' site' node) fun outcome s' outcome' t' =>
        Attempted (fun n s' n' t' => ∃ new new', n = new.length ∧ n' = new'.length ∧
          K.Expanding W i j true front front' new new' [] [] back back' s' t') outcome s' outcome' t' ∧
        Unchanged s outcome s' ∧ Unchanged t outcome' t' := by
  rw [tryDeferred_eq_attempt, tryDeferred_eq_attempt]
  exact (attempt_tied (spliceDeferred_tied lawful linked scope depth h at_ atToo)).and
    (tryDeferred_unchanged i d site node s) (tryDeferred_unchanged j d' site' node t)

end

/-! ## Passes -/

/-- A moment at which all is in order, or positions are the same in both roots anyway. -/
def Sane (K : Coupling) (m : Moment) : Prop :=
  K.Exact ∨ m.Intact ∧ m.rules.length ≤ DeferredImport.maxLocation

/-- The imports of two queues wait in the roots `i` and `j`, one after the other. -/
abbrev Waiting (K : Coupling) (W : World) (i j : FrameId) (s t : Evaluation) :
    List DeferredImport → List DeferredImport → Prop :=
  List.Forall₂ (K.Waits W (s.frames.get i).entries (t.frames.get j).entries)

/-- What two passes have seen so far. -/
structure SamePass (p p' : Pass) : Prop where
  progressed : p'.progressed = p.progressed
  firstFailure : Option.Rel (fun f g => f.cause = g.cause) p.firstFailure p'.firstFailure

/-- The roots are not too large for their positions, or that does not matter. -/
def Fits (K : Coupling) (i j : FrameId) (s t : Evaluation) : Prop :=
  ¬ K.Exact → (s.frames.get i).entries.length ≤ DeferredImport.maxLocation ∧
    (t.frames.get j).entries.length ≤ DeferredImport.maxLocation

/-- The imports that are still to be tried in a pass, those that are blocked, and those that are
    queued again. -/
structure Passing (K : Coupling) (W : World) (i j : FrameId) (s t : Evaluation)
    (pending pending' : List DeferredImport) (pass pass' : Pass) : Prop where
  pending : K.Waiting W i j s t pending pending'
  blocked : K.Waiting W i j s t pass.blocked pass'.blocked
  deferred : K.Waiting W i j s t s.importer.deferred t.importer.deferred

theorem forall₂_map_of_mem (h : List.Forall₂ R as bs) (step : ∀ a ∈ as, ∀ b, R a b → S (f a) (g b)) :
    List.Forall₂ S (as.map f) (bs.map g) := by
  induction h with
  | nil => exact .nil
  | cons first _ ih =>
    simp only [List.forall_mem_cons] at step
    exact .cons (step.1 _ first) (ih step.2)

section

variable (lawful : K.Lawful setting) (entries : (s.frames.get i).entries = front ++ e :: back)
  (entriesToo : (t.frames.get j).entries = front' ++ e' :: back')
  (fronts : K.Matched W front front') (items : K.EntryLink W e e') (backs : K.Matched W back back')

include lawful entries entriesToo fronts items backs

theorem Waiting.shift (news : K.Matched W new new')
    (later : (s'.frames.get i).entries = front ++ new ++ back)
    (laterToo : (t'.frames.get j).entries = front' ++ new' ++ back') (fits : K.Fits i j s' t')
    (waiting : K.Waiting W i j s t q q') (apart : ¬ K.Exact → ∀ d ∈ q, d.location ≠ front.length) :
    K.Waiting W i j s' t' (DeferredImport.shiftAll front.length ((new.length : Int) - 1) q)
      (DeferredImport.shiftAll front'.length ((new'.length : Int) - 1) q') := by
  refine forall₂_map_of_mem waiting fun d member d' waits => ?_
  rw [entries, entriesToo] at waits
  unfold Fits at fits
  rw [later, laterToo] at fits ⊢
  exact waits.shift lawful fronts items backs news (fun inexact => apart inexact d member) fits

theorem Passing.spliced {pass pass' : Pass} (rests : K.Waiting W i j s t rest rest')
    (blocked : K.Waiting W i j s t pass.blocked pass'.blocked)
    (deferred : K.Waiting W i j s t s.importer.deferred t.importer.deferred)
    (apart : ¬ K.Exact → ∀ x ∈ s.importer.deferred ++ (rest ++ pass.blocked), x.location ≠ front.length)
    (ended : K.Expanding W i j true front front' new new' [] [] back back' s' t')
    (fits : K.Fits i j s' t') :
    let shift := DeferredImport.shiftAll front.length ((new.length : Int) - 1)
    let shift' := DeferredImport.shiftAll front'.length ((new'.length : Int) - 1)
    K.Passing W i j
      { s' with
        importer := { s'.importer with deferred := shift s.importer.deferred ++ s'.importer.deferred } }
      { t' with
        importer := { t'.importer with deferred := shift' t.importer.deferred ++ t'.importer.deferred } }
      (shift rest) (shift' rest') { pass with blocked := shift pass.blocked, progressed := true }
      { pass' with blocked := shift' pass'.blocked, progressed := true } := by
  have later : (s'.frames.get i).entries = front ++ new ++ back := by
    simpa using ended.stretch.left
  have laterToo : (t'.frames.get j).entries = front' ++ new' ++ back' := by
    simpa using ended.stretch.right
  have moved : ∀ {q q' : List DeferredImport}, K.Waiting W i j s t q q' →
      (∀ x ∈ q, x ∈ s.importer.deferred ++ (rest ++ pass.blocked)) →
      K.Waiting W i j s' t' (DeferredImport.shiftAll front.length ((new.length : Int) - 1) q)
        (DeferredImport.shiftAll front'.length ((new'.length : Int) - 1) q') :=
    fun queue members => Waiting.shift lawful entries entriesToo fronts items backs ended.passed later
      laterToo fits queue fun inexact x member => apart inexact x (members x member)
  have added : K.Waiting W i j s' t' s'.importer.deferred t'.importer.deferred := by
    refine List.Forall₂.imp ?_ (ended.queued rfl)
    intro d d' stands
    rw [later, laterToo, List.append_assoc, List.append_assoc]
    refine .of_stands { stands with place := Place.behind ?_ fronts }
    simpa only [Nat.zero_add] using stands.place.append backs
  exact
    { pending := moved rests fun x member => by simp [member]
      blocked := moved blocked fun x member => by simp [member]
      deferred := List.rel_append (moved deferred fun x member => by simp [member]) added }

end

theorem SamePass.block {p p' : Pass} (same : SamePass p p') {f g : Failure}
    (cause : f.cause = g.cause) {blocked blocked' : List DeferredImport} :
    SamePass { p with blocked, firstFailure := p.firstFailure.or (some f) }
      { p' with blocked := blocked', firstFailure := p'.firstFailure.or (some g) } where
  progressed := same.progressed
  firstFailure := by
    have first := same.firstFailure
    generalize p.firstFailure = o at first ⊢
    generalize p'.firstFailure = o' at first ⊢
    cases first with
    | some related => exact .some related
    | none => exact .some cause

theorem Passing.kept {s' t' : Evaluation} {pass pass' : Pass}
    (entries : (s'.frames.get i).entries = (s.frames.get i).entries)
    (entriesToo : (t'.frames.get j).entries = (t.frames.get j).entries)
    (importer : s'.importer = (emptied s).importer)
    (importerToo : t'.importer = (emptied t).importer) (rests : K.Waiting W i j s t rest rest')
    (blocked : K.Waiting W i j s t pass.blocked pass'.blocked)
    (deferred : K.Waiting W i j s t s.importer.deferred t.importer.deferred)
    (waits : K.Waits W (s.frames.get i).entries (t.frames.get j).entries d d') : K.Passing W i j
      { s' with
        events := u
        importer := { s'.importer with
          deferred := s'.importer.deferred ++ s.importer.deferred } }
      { t' with
        events := v
        importer := { t'.importer with
          deferred := t'.importer.deferred ++ t.importer.deferred } }
      rest rest' { pass with blocked := pass.blocked ++ [d], firstFailure := o }
      { pass' with blocked := pass'.blocked ++ [d'], firstFailure := o' } := by
  have same : ∀ {q q' : List DeferredImport}, K.Waiting W i j s t q q' →
      K.Waiting W i j s' t' q q' := by
    intro q q' waiting
    unfold Waiting
    rw [entries, entriesToo]
    exact waiting
  refine ⟨same rests, same (List.rel_append blocked (.cons waits .nil)), ?_⟩
  dsimp only
  rw [importer, importerToo]
  exact same deferred

/-- An import is about to be replaced in both roots, while no import is queued. -/
theorem Expanding.poised (sim : K.Sim W s t)
    (entries : (s.frames.get i).entries = front ++ e :: back)
    (entriesToo : (t.frames.get j).entries = front' ++ e' :: back')
    (fronts : K.Matched W front front') (items : K.EntryLink W e e')
    (backs : K.Matched W back back') :
    K.Expanding W i j true front front' [] [] [e] [e'] back back' (emptied s) (emptied t) where
  sim := sim.withImporters sim.importer
  stretch :=
    { left := by
        rw [List.append_nil, List.append_assoc]
        exact entries
      right := by
        rw [List.append_nil, List.append_assoc]
        exact entriesToo
      front := by simpa only [List.append_nil] using fronts
      mid := .cons items .nil
      back := backs }
  passed := .nil
  queued _ := .nil

theorem since_of_growing [growing : Growing setting y] (erases : Tracked.Erases x y) :
    Tracked.Since (K.proviso tight causes) setting x :=
  .of_erases erases (Growing.since growing)

/-- What two passes lead to. -/
abbrev Passed (K : Coupling) (W : World) (i j : FrameId) (p : Pass) (s : Evaluation) (p' : Pass)
    (t : Evaluation) : Prop :=
  K.Sim W s t ∧ SamePass p p' ∧ K.Passing W i j s t [] [] p p'

/-- Passes over fewer than `n` imports go alike in both roots. -/
def PassesBelow (K : Coupling) (W : World) (i j : FrameId) (tight causes : Prop) (setting : Setting)
    (n : Nat) : Prop :=
  ∀ {pending pending' : List DeferredImport} {pass pass' : Pass} {s t : Evaluation} {l l' : Ledger},
    pending.length < n → K.Sim W s t → SamePass pass pass' →
      (K.Fits i j s t → K.Passing W i j s t pending pending' pass pass') →
      Tracked.Tied K.Sane (K.proviso tight causes) setting s l t l'
        (Tracked.replayPass i pending pass) (Tracked.replayPass j pending' pass') (K.Passed W i j)

section

variable {rest rest' : List DeferredImport} {pass pass' : Pass} {n : Nat} {l l' : Ledger}
  (below : K.PassesBelow W i j tight causes setting n) (shorter : rest.length < n)
  (same : SamePass pass pass') (rests : K.Waiting W i j s t rest rest')
  (blocked : K.Waiting W i j s t pass.blocked pass'.blocked)
  (deferred : K.Waiting W i j s t s.importer.deferred t.importer.deferred)

include below shorter same rests blocked deferred

theorem PassesBelow.spliced (lawful : K.Lawful setting)
    (entries : (s.frames.get i).entries = front ++ e :: back)
    (entriesToo : (t.frames.get j).entries = front' ++ e' :: back')
    (fronts : K.Matched W front front') (items : K.EntryLink W e e') (backs : K.Matched W back back')
    (apart : ¬ K.Exact → ∀ x ∈ s.importer.deferred ++ (rest ++ pass.blocked), x.location ≠ front.length)
    (ended : K.Expanding W i j true front front' new new' [] [] back back' s' t') :
    let shift := DeferredImport.shiftAll front.length ((new.length : Int) - 1)
    let shift' := DeferredImport.shiftAll front'.length ((new'.length : Int) - 1)
    Tracked.Tied K.Sane (K.proviso tight causes) setting s' l t' l'
      (do
        let added ← Tracked.lift takeDeferred
        Tracked.lift (deferAll (shift s.importer.deferred ++ added))
        Tracked.replayPass i (shift rest) { pass with blocked := shift pass.blocked, progressed := true })
      (do
        let added ← Tracked.lift takeDeferred
        Tracked.lift (deferAll (shift' t.importer.deferred ++ added))
        Tracked.replayPass j (shift' rest')
          { pass' with blocked := shift' pass'.blocked, progressed := true }) (K.Passed W i j) := by
  refine .ofLift takeDeferred_run takeDeferred_run (.ofLift rfl rfl ?_)
  refine below ?_ (ended.sim.withImporters ended.sim.importer) { same with progressed := rfl } ?_
  · simpa [DeferredImport.shiftAll] using shorter
  · exact fun fits => Passing.spliced lawful entries entriesToo fronts items backs rests blocked deferred
      apart ended fits

theorem PassesBelow.failed (linked : W.ids i j) (sim : K.Sim W s t)
    (waits : K.Waits W (s.frames.get i).entries (t.frames.get j).entries d d') {f g : Failure}
    (cause : f.cause = g.cause) (unchanged : Unchanged (emptied s) (.error f) s')
    (unchangedToo : Unchanged (emptied t) (.error g) t') (node : Import) :
    Tracked.Tied K.Sane (K.proviso tight causes) setting s' l t' l'
      (if f.isUndefinedVariable then do
        Tracked.lift (emit (.stillBlocked node.path f.cause))
        Tracked.lift (deferAll s.importer.deferred)
        Tracked.replayPass i rest
          { pass with
            blocked := pass.blocked ++ [d]
            firstFailure := pass.firstFailure.or (some f) }
      else Tracked.lift (fail f))
      (if g.isUndefinedVariable then do
        Tracked.lift (emit (.stillBlocked node.path g.cause))
        Tracked.lift (deferAll t.importer.deferred)
        Tracked.replayPass j rest'
          { pass' with
            blocked := pass'.blocked ++ [d']
            firstFailure := pass'.firstFailure.or (some g) }
      else Tracked.lift (fail g)) (K.Passed W i j) := by
  have kinds : g.isUndefinedVariable = f.isUndefinedVariable := by
    unfold Failure.isUndefinedVariable
    rw [cause]
  rw [kinds]
  split
  · rename_i undefined
    have start : K.Sim W (emptied s) (emptied t) := sim.withImporters sim.importer
    obtain ⟨extends_, importer⟩ := unchanged f rfl undefined
    obtain ⟨extendsToo, importerToo⟩ := unchangedToo g rfl (kinds.trans undefined)
    have still := start.extend extends_ extendsToo
      (by rw [importer, importerToo]; exact start.importer)
    have kept := (extends_.frame i (sim.inside i j linked).1).entries
    have keptToo := (extendsToo.frame j (sim.inside i j linked).2).entries
    refine .ofLift rfl rfl (.ofLift rfl rfl ?_)
    exact below shorter ((still.logged _ _).withImporters still.importer) (same.block cause)
      fun _ => Passing.kept kept keptToo importer importerToo rests blocked deferred waits
  · exact .of_erases (.lift _) (.lift _) (.fail fun _ => cause)

end

section

variable (lawful : K.Lawful setting) (linked : W.ids i j)

include lawful linked

/-- Deferred imports are tried one after the other in both roots, and what is left of them still
    belongs together. -/
theorem replayPass_tied {pending pending' : List DeferredImport} {pass pass' : Pass}
    (sim : K.Sim W s t) (same : SamePass pass pass')
    (passing : K.Fits i j s t → K.Passing W i j s t pending pending' pass pass') :
    Tracked.Tied K.Sane (K.proviso tight causes) setting s l t l' (Tracked.replayPass i pending pass)
      (Tracked.replayPass j pending' pass') (K.Passed W i j) := by
  induction length : pending.length using Nat.strong_induction_on
    generalizing pending pending' pass pass' s t l l' with
  | h n ih =>
    have below : K.PassesBelow W i j tight causes setting n :=
      fun shorter sim same passing => ih _ shorter sim same passing rfl
    unfold Tracked.replayPass
    refine .note fun sane saneToo => ?_
    have fits : K.Fits i j s t := fun inexact =>
      ⟨(sane.resolve_left inexact).2, (saneToo.resolve_left inexact).2⟩
    obtain ⟨waiting, blocked, deferred⟩ := passing fits
    cases waiting with
    | nil => exact .pure ⟨sim, same, .nil, blocked, deferred⟩
    | @cons d d' rest rest' waits rests =>
      have shorter : rest.length < n := by simp [← length]
      refine .ofLift rfl rfl ?_
      rw [Frame.entryAt_eq, Frame.entryAt_eq]
      rcases waits.found lawful (sim.frames i j linked).entries with place | ⟨gone, goneToo⟩
      · obtain ⟨front, e, back, front', e', back', entries, entriesToo, fronts, items, isImport,
          backs, at_, atToo⟩ := place
        obtain ⟨node, site, site', nesting, rfl, rfl⟩ := items.exists_import lawful isImport
        simp only [Nat.zero_add] at at_ atToo
        have apart : ¬ K.Exact → ∀ x ∈ s.importer.deferred ++ (rest ++ pass.blocked),
            x.location ≠ front.length := by
          intro inexact x member here
          have distinct := (sane.resolve_left inexact).1.distinct
          rw [List.cons_append, List.map_append, List.map_cons, List.perm_middle.nodup_iff,
            ← List.map_append, List.nodup_cons] at distinct
          exact distinct.1 (List.mem_map.mpr ⟨x, member, by rw [here, at_]⟩)
        have tried : Tied (K.proviso tight causes) setting _ _ _ _ _ :=
          tryDeferred_tied lawful linked waits.scope waits.depth
            (Expanding.poised sim entries entriesToo fronts items backs) at_ atToo
        have found : (s.frames.get i).entries[d.location]? =
            some ⟨⟨.fileImport node, site⟩, nesting⟩ := by simp [entries, at_]
        have foundToo : (t.frames.get j).entries[d'.location]? =
            some ⟨⟨.fileImport node, site'⟩, nesting⟩ := by simp [entriesToo, atToo]
        rw [found, foundToo]
        refine .ofLift takeDeferred_run takeDeferred_run (.bind
          (.of_erases (.tryDeferred _ _ _ _ _) (.tryDeferred _ _ _ _ _) tried) ?_ ?_)
        · rintro outcome s' k outcome' t' k' ⟨attempted, unchanged, unchangedToo⟩
          rcases outcome with f | inserted <;> rcases outcome' with g | inserted'
          · exact below.failed shorter same rests blocked deferred linked sim waits attempted
              unchanged unchangedToo node
          · exact attempted.elim
          · exact attempted.elim
          · obtain ⟨new, new', rfl, rfl, ended⟩ := attempted
            dsimp only
            rw [at_, atToo]
            exact below.spliced shorter same rests blocked deferred lawful entries entriesToo fronts
              items backs apart ended
        · rintro (f | inserted)
          · dsimp only
            split
            · exact .bind (since_of_growing (.lift _)) fun _ =>
                .bind (since_of_growing (.lift _)) fun _ => since_of_growing (.replayPass _ _ _)
            · exact since_of_growing (.lift _)
          · exact .bind (since_of_growing (.lift _)) fun _ =>
              .bind (since_of_growing (.lift _)) fun _ => since_of_growing (.replayPass _ _ _)
      · split
        · rename_i found
          cases gone _ found
        · split
          · rename_i found
            cases goneToo _ found
          · refine .ofLift rfl rfl (.record ?_)
            exact below shorter (sim.logged _ _) same fun _ => ⟨rests, blocked, deferred⟩

theorem replayOnce_tied (sim : K.Sim W s t)
    (waiting : K.Waiting W i j s t s.importer.deferred t.importer.deferred) :
    Tracked.Tied K.Sane (K.proviso tight causes) setting s l t l' (Tracked.replayOnce i)
      (Tracked.replayOnce j) fun last s' last' t' => last' = last ∧ K.Sim W s' t' ∧
        K.Waiting W i j s' t' s'.importer.deferred t'.importer.deferred := by
  refine .note fun _ _ => .ofLift takeDeferred_run takeDeferred_run ?_
  have start : K.Sim W (emptied s) (emptied t) := sim.withImporters sim.importer
  have lengths := waiting.length_eq
  have empty : t.importer.deferred.isEmpty = s.importer.deferred.isEmpty := by
    rw [Bool.eq_iff_iff, List.isEmpty_iff_length_eq_zero, List.isEmpty_iff_length_eq_zero, lengths]
  rw [empty]
  split
  · exact .pure ⟨rfl, start, .nil⟩
  · refine .ofLift rfl rfl ?_
    have passing : K.Passing W i j (emptied s) (emptied t) s.importer.deferred t.importer.deferred {}
        {} := ⟨waiting, .nil, .nil⟩
    refine .bind (replayPass_tied lawful linked (start.logged _ _) ⟨rfl, .none⟩
      fun _ => { passing with }) ?_ ?_
    · rintro pass s' k pass' t' k' ⟨sim, same, passing⟩
      rw [same.progressed]
      have failed := same.firstFailure
      have queue := List.rel_append passing.deferred passing.blocked
      generalize pass.firstFailure = o at failed ⊢
      generalize pass'.firstFailure = o' at failed ⊢
      have going : Tracked.Tied K.Sane (K.proviso tight causes) setting s' k t' k'
          (do Tracked.lift (deferAll pass.blocked); pure false)
          (do Tracked.lift (deferAll pass'.blocked); pure false) fun last s' last' t' =>
            last' = last ∧ K.Sim W s' t' ∧
              K.Waiting W i j s' t' s'.importer.deferred t'.importer.deferred :=
        .ofLift rfl rfl
          (.pure ⟨rfl, sim.withImporters sim.importer, queue⟩)
      cases pass.progressed with
      | true => exact going
      | false =>
        cases failed with
        | none => exact going
        | some cause =>
          exact .of_erases (.lift _) (.lift _) (.fail fun _ => cause)
    · intro pass
      split
      · exact since_of_growing (.lift _)
      · exact .bind (since_of_growing (.lift _)) fun _ _ _ => id

theorem replayDeferred_tied (width width' : Nat) (loose : ¬ tight) (sim : K.Sim W s t)
    (waiting : K.Waiting W i j s t s.importer.deferred t.importer.deferred) :
    Tracked.Tied K.Sane (K.proviso tight causes) setting s l t l' (Tracked.replayDeferred i width)
      (Tracked.replayDeferred j width') fun _ s' _ t' => K.Sim W s' t' := by
  rw [Tracked.replayDeferred_eq, Tracked.replayDeferred_eq]
  refine .ofLift rfl rfl ?_
  let Inv := fun s t => K.Sim W s t ∧
    K.Waiting W i j s t s.importer.deferred t.importer.deferred
  have step : ∀ s l t l', Inv s t → Tracked.Tied K.Sane (K.proviso tight causes) setting s l t l'
      (Tracked.replayOnce i) (Tracked.replayOnce j) fun a s' b t' => b = a ∧ Inv s' t' :=
    fun s l t l' inv => replayOnce_tied lawful linked inv.1 inv.2
  refine .mono (.exhaust Inv loose step
    (since_of_growing (.replayOnce i)) _ _ ⟨sim, waiting⟩) ?_
  exact fun _ _ _ _ inv => inv.1

end

/-! ## Opening sheets -/

theorem registerSheet_run (sheet : Stylesheet) (s : Evaluation) :
    ∃ s', Compiler.registerSheet sheet setting s = (.ok (), s') := by
  unfold Compiler.registerSheet
  cases sheet.path with
  | none => exact ⟨s, rfl⟩
  | some path =>
    simp only [registerMain, bind_apply, Eval.setting]
    cases setting.loader.normalize path <;> exact ⟨_, rfl⟩

theorem Sim.start (fresh : s.frames.Fresh) (idle : s.Idle) (expanding : s.expanding = []) :
    K.Sim .none s s where
  ids _ _ _ _ := False.elim
  made _ _ _ _ := False.elim
  inside _ _ := False.elim
  before _ _ := False.elim
  frames _ _ := False.elim
  fresh := fresh
  freshToo := fresh
  importer := rfl
  idle := idle
  idleToo := idle
  expanding := by
    rw [expanding]
    exact .nil
  busy := by simp [expanding]

theorem openSheet_tied (lawful : K.Lawful setting) (path : sheet'.path = sheet.path)
    (aligned : Aligned Placed.rule K.cut K.twin (Placed.ofBlock (.written 0 []) sheet.rules)
      (Placed.ofBlock (.written 0 []) sheet'.rules))
    (loose : ¬ tight) :
    Tracked.Tied K.Sane (K.proviso tight causes) setting {} l {} l' (Tracked.openSheet sheet)
      (Tracked.openSheet sheet') fun env s' env' t' =>
        ∃ W, EnvLink W env env' ∧ K.Sim W s' t' := by
  obtain ⟨s, run⟩ := @registerSheet_run setting sheet {}
  have runToo : Compiler.registerSheet sheet' setting {} = (.ok (), s) := by
    rw [← run]
    unfold Compiler.registerSheet
    rw [path]
  have loads : Loads {} s := ((registerSheet_loads sheet).ends setting {}).result run
  have restored := loads.restored
  simp only [Evaluation.scopedPart, Scoped.mk.injEq] at restored
  have empty : s.importer.deferred = [] := loads.deferred
  have fresh : s.frames.Fresh := loads.extends.fresh fun _ => Frame.Fresh.ofPlaced [] 0
  have start : K.Sim .none s s :=
    .start fresh ⟨restored.1, restored.2.1, restored.2.2.1⟩ restored.2.2.2.1
  have added := start.add (FrameLink.ofBlock aligned 0) (.ofPlaced _ _) (.ofPlaced _ _)
  have linked : (World.none.addIds s.frames.size s.frames.size).ids
      s.frames.size s.frames.size := .inr ⟨rfl, rfl⟩
  have envs : EnvLink (World.none.addIds s.frames.size s.frames.size)
      { frames := [s.frames.size] } { frames := [s.frames.size] } :=
    .mk (.cons linked .nil) .nil
  refine .ofLift run runToo (.ofLift (addFrame_apply ..) (addFrame_apply ..)
    (.ofLift rfl rfl (.record ?_)))
  have expanded : Tied (K.proviso tight causes) setting _ _ _ _ _ :=
    expandImports_tied lawful linked envs added true fun _ => ⟨empty, empty⟩
  refine .bind (.of_erases (.expandImports _ _) (.expandImports _ _) expanded) ?_ ?_
  · rintro _ s' k _ t' k' ⟨sim, queued⟩
    refine .bind (replayDeferred_tied lawful linked _ _ loose sim ?_) ?_ ?_
    · exact (queued rfl).imp fun _ _ stands => .of_stands stands
    · rintro _ s'' k _ t'' k' sim
      exact .pure ⟨_, envs, sim⟩
    · exact fun _ _ _ => id
  · exact fun _ => .bind (since_of_growing (.replayDeferred _ _)) fun _ _ _ => id

end Coupling

end StyleResolution
