import StyleResolution.Proofs.Import.Marks
import StyleResolution.Proofs.Import.Replacement

/-! # The integrity of the queues of deferred imports

While the imports of a root are expanded, deferred imports wait in up to four queues, and each is
known by its position alone. Every moment of the expansion is intact: the rule at each position is
the import that was queued for it, whatever was spliced in between. When the expansion succeeds,
every import that was queued was spliced exactly once.

A splice in progress works on the marks between a front and a back. Behind what was expanded so far
there are only rules without a mark, so what is queued meanwhile stands in the expanded part and is
not moved by the rest of the splice; the imports in the front and in the back are moved by the
length of the middle (`Working`). Rules without a mark are done with, but for those that are still to
be expanded.
-/

namespace StyleResolution

namespace Tracked

variable {α β : Type} {setting : Setting} {s : Evaluation} {l : Ledger}

/-! ## How tracked computations end -/

/-- Unless the root has more rules than there are locations, all moments of the computation are
    intact, and it ends as `ok` or `failed` say. -/
def Ends (setting : Setting) (s : Evaluation) (l : Ledger) (t : Tracked α)
    (ok : α → Evaluation → Ledger → Prop) (failed : Failure → Evaluation → Ledger → Prop) : Prop :=
  (∀ m ∈ (t setting s l).moments, m.rules.length ≤ DeferredImport.maxLocation) →
    (∀ m ∈ (t setting s l).moments, m.Intact) ∧
      match (t setting s l).outcome with
      | .ok a => ok a (t setting s l).state (t setting s l).ledger
      | .error f => failed f (t setting s l).state (t setting s l).ledger

namespace Ends

variable {ok : α → Evaluation → Ledger → Prop} {failed : Failure → Evaluation → Ledger → Prop}

theorem pure (h : ok a s l) : Ends setting s l (Pure.pure a : Tracked α) ok failed :=
  fun _ => ⟨nofun, h⟩

theorem lift (h : Eval.Ends setting s x (fun a s' => ok a s' l) fun f s' => failed f s' l) :
    Ends setting s l (Tracked.lift x) ok failed := by
  refine fun _ => ⟨nofun, ?_⟩
  unfold Tracked.lift
  rcases run : x setting s with ⟨f | a, s'⟩
  · exact h.failure run
  · exact h.result run

theorem bind {t : Tracked β} {next : β → Tracked α} {mid : β → Evaluation → Ledger → Prop}
    {midFailed : Failure → Evaluation → Ledger → Prop}
    (first : Ends setting s l t mid midFailed)
    (then_ : ∀ b s' l', mid b s' l' → Ends setting s' l' (next b) ok failed)
    (stop : ∀ f s' l', midFailed f s' l' → failed f s' l') :
    Ends setting s l (t >>= next) ok failed := by
  intro fits
  unfold Ends at first
  rw [bind_apply] at fits ⊢
  rcases run : t setting s l with ⟨f | b, s', l', before⟩
  · rw [run] at first fits
    exact ⟨(first fits).1, stop f s' l' (first fits).2⟩
  · rw [run] at first fits
    simp only [List.mem_append] at fits first ⊢
    obtain ⟨intact, reached⟩ := first fun m member => fits m (.inl member)
    obtain ⟨intact', ended⟩ := then_ b s' l' reached fun m member => fits m (.inr member)
    exact ⟨fun m member => member.elim (intact m) (intact' m), ended⟩

theorem mono (h : Ends setting s l t ok failed) (hok : ∀ a s' l', ok a s' l' → ok' a s' l')
    (hfailed : ∀ f s' l', failed f s' l' → failed' f s' l') : Ends setting s l t ok' failed' := by
  intro fits
  obtain ⟨intact, ended⟩ := h fits
  refine ⟨intact, ?_⟩
  cases outcome : (t setting s l).outcome with
  | ok a =>
    rw [outcome] at ended
    exact hok a _ _ ended
  | error f =>
    rw [outcome] at ended
    exact hfailed f _ _ ended

theorem record (h : Ends setting s (f l) (next ()) ok failed) :
    Ends setting s l (Tracked.record f >>= next) ok failed := h

theorem ofLift (run : x setting s = (.ok b, s')) (h : Ends setting s' l (next b) ok failed) :
    Ends setting s l (Tracked.lift x >>= next) ok failed := by
  intro fits
  have same : (Tracked.lift x >>= next) setting s l = next b setting s' l := by
    rw [bind_apply]
    unfold Tracked.lift
    rw [run]
    rfl
  rw [same] at fits ⊢
  exact h fits

theorem liftBind (first : Eval.Ends setting s x mid midFailed)
    (then_ : ∀ b s', mid b s' → Ends setting s' l (next b) ok failed)
    (stop : ∀ f s', midFailed f s' → failed f s' l) :
    Ends setting s l (Tracked.lift x >>= next) ok failed := by
  rcases run : x setting s with ⟨f | b, s'⟩
  · have same : (Tracked.lift x >>= next) setting s l = ⟨.error f, s', l, []⟩ := by
      rw [bind_apply]
      unfold Tracked.lift
      rw [run]
    unfold Ends
    rw [same]
    exact fun _ => ⟨nofun, stop f s' (first.failure run)⟩
  · exact ofLift run (then_ b s' (first.result run))

/-- A moment that is recorded has to be intact; from then on, the root is known to fit. -/
theorem note
    (h : (s.frames.get root).entries.length ≤ DeferredImport.maxLocation →
      Moment.Intact ⟨(s.frames.get root).entries,
        s.importer.deferred ++ aside (s.frames.get root).entries.length, l⟩ ∧
      Ends setting s l (next ()) ok failed) :
    Ends setting s l (Tracked.note root aside >>= next) ok failed := by
  intro fits
  rw [moments_note, List.forall_mem_cons] at fits
  obtain ⟨intact, ends⟩ := h fits.1
  rw [moments_note, List.forall_mem_cons]
  exact ⟨⟨intact, (ends fits.2).1⟩, (ends fits.2).2⟩

theorem between
    (h : Ends setting (enter s) l t (fun a s' l' => ok a (leave s') l')
      fun f s' l' => failed f (leave s') l') :
    Ends setting s l (Tracked.between enter leave t) ok failed := h

theorem attempt {ok : Except Failure α → Evaluation → Ledger → Prop}
    (h : Ends setting s l t (fun a => ok (.ok a)) fun f => ok (.error f)) :
    Ends setting s l (Tracked.attempt t) ok failed := by
  intro fits
  obtain ⟨intact, ended⟩ := h fits
  refine ⟨intact, ?_⟩
  unfold Tracked.attempt
  cases outcome : (t setting s l).outcome <;> simpa only [outcome] using ended

end Ends

/-! ## A splice in progress -/

/-- What is said of a rule that is done with: it holds of rules that are no imports, and of imports
    that replace themselves. -/
structure Settles (setting : Setting) (F : Entry → Prop) : Prop where
  rule : ∀ {e : Entry}, Compiler.isImport e.rule = false → F e
  kept : ∀ {i : Import} {path text} site nesting,
    (∃ env t t', Eval.importPath env i setting t = (.ok (path, text), t')) →
    isPassThrough i.options text = true → F ⟨⟨.fileImport { i with path }, site⟩, nesting⟩

/-- Outside of a range, the rules without a mark are as `F` says. -/
def SettledOutside (F : Entry → Prop) (start stop : Nat) (rules : List Entry) (l : Ledger) : Prop :=
  ∀ k e, rules[k]? = some e → l.marks[k]? = some none → F e ∨ start ≤ k ∧ k < stop

/-- The marks between `front` and `back` are being expanded up to a position, and `rest` rules
    without a mark follow. -/
structure Working (F : Entry → Prop) (root : FrameId) (front back : List (Option Queued))
    (position rest : Nat)
    (s : Evaluation) (l : Ledger) : Prop where
  inside : root < s.frames.size
  sound : l.Sound (s.frames.get root).entries
  shape : ∃ done, l.marks = front ++ done ++ (List.replicate rest none ++ back) ∧
    front.length + done.length = position ∧
    s.importer.deferred.Perm (standingFrom front.length done)
  settled : SettledOutside F position (position + rest) (s.frames.get root).entries l

/-- As `Working`, with a rule at the position that is about to be replaced. -/
structure Poised (F : Entry → Prop) (root : FrameId) (front back : List (Option Queued)) (position rest : Nat)
    (s : Evaluation) (l : Ledger) : Prop where
  inside : root < s.frames.size
  sound : l.Sound (s.frames.get root).entries
  shape : ∃ done mark, l.marks = front ++ done ++ mark :: (List.replicate rest none ++ back) ∧
    front.length + done.length = position ∧
    s.importer.deferred.Perm (standingFrom front.length done)
  settled : SettledOutside F position (position + 1 + rest) (s.frames.get root).entries l

/-- The imports put aside are those of the front and of the back, whatever is between them. -/
def AsideOf (front back : List (Option Queued)) (aside : Nat → List DeferredImport) : Prop :=
  ∀ count, front.length + count + back.length ≤ DeferredImport.maxLocation →
    (aside (front.length + count + back.length)).Perm
      (standingFrom 0 front ++ standingFrom (front.length + count) back)

variable {F : Entry → Prop} {root : FrameId} {front back : List (Option Queued)}
  {position rest : Nat}

theorem Working.congr (w : Working F root front back position rest s l)
    (frames : s'.frames = s.frames) (deferred : s'.importer.deferred = s.importer.deferred) :
    Working F root front back position rest s' l :=
  ⟨frames ▸ w.inside, frames ▸ w.sound, deferred ▸ w.shape, frames ▸ w.settled⟩

theorem Working.poised (w : Working F root front back position (rest + 1) s l) :
    Poised F root front back position rest s l := by
  obtain ⟨done, marks, at_, deferred⟩ := w.shape
  refine ⟨w.inside, w.sound, ⟨done, none, marks, at_, deferred⟩, fun k e found unmarked => ?_⟩
  exact (w.settled k e found unmarked).imp_right fun inside => ⟨inside.1, by omega⟩

theorem Poised.position_lt (p : Poised F root front back position rest s l) :
    position < (s.frames.get root).entries.length := by
  obtain ⟨done, mark, marks, rfl, -⟩ := p.shape
  rw [← p.sound.length_eq, marks]
  simp only [List.length_append, List.length_cons]
  omega

/-- Rules without a mark are passed over once they are done with. -/
theorem Working.advance (w : Working F root front back position (count + rest) s l)
    (finished : ∀ k e, position ≤ k → k < position + count →
      (s.frames.get root).entries[k]? = some e → F e) :
    Working F root front back (position + count) rest s l := by
  have settled : SettledOutside F (position + count) (position + count + rest)
      (s.frames.get root).entries l := by
    intro k e found unmarked
    rcases w.settled k e found unmarked with holds | inside
    · exact .inl holds
    · by_cases passed : k < position + count
      · exact .inl (finished k e inside.1 passed found)
      · exact .inr (by omega)
  obtain ⟨done, marks, rfl, deferred⟩ := w.shape
  refine ⟨w.inside, w.sound, ⟨done ++ List.replicate count none, ?_, ?_, ?_⟩, settled⟩
  · rw [marks, List.replicate_add]
    simp only [List.append_assoc]
  · simp only [List.length_append, List.length_replicate]
    omega
  · rwa [standingFrom_append, standingFrom_replicate_none, List.append_nil]

theorem Working.enqueue (w : Working F root front back position (rest + 1) s l)
    (found : (s.frames.get root).entries[position]? = some e) (isImport : e.rule = .fileImport i)
    (frames : s'.frames = s.frames)
    (deferred : s'.importer.deferred = s.importer.deferred ++ [⟨position, scope, depth⟩]) :
    Working F root front back (position + 1) rest s' (l.enqueue position e scope depth) := by
  have settled : SettledOutside F (position + 1) (position + 1 + rest) (s'.frames.get root).entries
      (l.enqueue position e scope depth) := by
    intro k e' found unmarked
    have apart : position ≠ k := by
      rintro rfl
      simp [Ledger.enqueue, List.getElem?_set] at unmarked
    rw [Ledger.enqueue, List.getElem?_set_ne apart] at unmarked
    exact (w.settled k e' (frames ▸ found) unmarked).imp_right fun inside => by omega
  obtain ⟨done, marks, rfl, waits⟩ := w.shape
  have shape : l.marks = (front ++ done) ++ none :: (List.replicate rest none ++ back) := marks
  rw [← List.length_append] at found deferred settled ⊢
  refine ⟨frames ▸ w.inside, frames ▸ w.sound.enqueue shape found isImport scope depth,
    ⟨done ++ [some ⟨l.issued.length, e, scope, depth⟩], ?_, ?_, ?_⟩, settled⟩
  · rw [Ledger.enqueue_marks shape]
    simp
  · simp only [List.length_append, List.length_singleton]
    omega
  · rw [deferred, standingFrom_append, List.length_append]
    exact waits.append_right _

theorem Poised.replace (p : Poised F root front back position rest s l)
    (inside : root < s'.frames.size)
    (entries : (s'.frames.get root).entries = (s.frames.get root).entries.take position ++ new ++
      (s.frames.get root).entries.drop (position + 1))
    (deferred : s'.importer.deferred = s.importer.deferred) :
    Working F root front back position (new.length + rest) s' (l.replace position new.length) := by
  have settled : SettledOutside F position (position + (new.length + rest))
      (s'.frames.get root).entries (l.replace position new.length) := by
    have inside := p.position_lt
    have same := p.sound.length_eq
    intro k e found unmarked
    -- in front of what is new and of the rest nothing has moved, and behind it all has
    have before := p.settled k e
    have behind := p.settled (k + 1 - new.length) e
    rw [entries] at found
    simp only [Ledger.replace] at unmarked
    grind
  obtain ⟨done, mark, marks, rfl, waits⟩ := p.shape
  rw [← List.length_append] at entries settled ⊢
  refine ⟨inside, entries ▸ p.sound.replace marks new, ⟨done, ?_, ?_, deferred ▸ waits⟩, settled⟩
  · rw [Ledger.replace_marks marks, List.replicate_add]
    simp only [List.append_assoc]
  · simp only [List.length_append]

section

variable (w : Working F root front back position rest s l) (others : AsideOf front back aside)
  (fits : (s.frames.get root).entries.length ≤ DeferredImport.maxLocation)

include w others fits

theorem Working.waits :
    (s.importer.deferred ++ aside (s.frames.get root).entries.length).Perm
      (standingFrom 0 l.marks) := by
  obtain ⟨done, marks, rfl, waits⟩ := w.shape
  have length : (s.frames.get root).entries.length =
      front.length + (done.length + rest) + back.length := by
    rw [← w.sound.length_eq, marks]
    simp only [List.length_append, List.length_replicate]
    omega
  rw [length] at fits ⊢
  have standing : standingFrom 0 l.marks = standingFrom 0 front ++ standingFrom front.length done ++
      standingFrom (front.length + (done.length + rest)) back := by
    rw [marks, standingFrom_append, standingFrom_append, standingFrom_append,
      standingFrom_replicate_none]
    simp [Nat.add_assoc]
  rw [standing]
  refine (waits.append (others _ fits)).trans ?_
  rw [← List.append_assoc]
  exact List.perm_append_comm.append_right _

theorem Working.intact :
    Moment.Intact ⟨(s.frames.get root).entries,
      s.importer.deferred ++ aside (s.frames.get root).entries.length, l⟩ :=
  w.sound.intact (w.waits others fits)

end

/-- No splice is in progress, and beside the importer's queue, the imports of `waiting` wait. -/
structure AtRest (F : Entry → Prop) (root : FrameId) (waiting : List DeferredImport)
    (s : Evaluation) (l : Ledger) :
    Prop where
  inside : root < s.frames.size
  sound : l.Sound (s.frames.get root).entries
  settled : SettledOutside F 0 0 (s.frames.get root).entries l
  waits : (s.importer.deferred ++ waiting).Perm (standingFrom 0 l.marks)

theorem AtRest.congr (rest : AtRest F root waiting s l) (frames : s'.frames = s.frames)
    (deferred : s'.importer.deferred = s.importer.deferred) : AtRest F root waiting s' l :=
  ⟨frames ▸ rest.inside, frames ▸ rest.sound, frames ▸ rest.settled, deferred ▸ rest.waits⟩

theorem AtRest.import_at (rest : AtRest F root waiting s l)
    (member : d ∈ s.importer.deferred ++ waiting) :
    ∃ i site nesting, (s.frames.get root).entryAt d.location =
      some ⟨⟨.fileImport i, site⟩, nesting⟩ := by
  have intact := rest.sound.intact rest.waits
  obtain ⟨⟨number, ⟨⟨rule, site⟩, nesting⟩, scope, depth⟩, issued, -, found, -⟩ :=
    intact.inPlace d member
  obtain ⟨i, rfl⟩ := intact.imports _ issued
  exact ⟨i, site, nesting, (Frame.entryAt_eq ..).trans found⟩

/-- When all is expanded, no rule without a mark is left to do. -/
theorem Working.settledAll (w : Working F root front back position 0 s l) :
    SettledOutside F 0 0 (s.frames.get root).entries l :=
  fun k e found unmarked => (w.settled k e found unmarked).imp_right fun inside => by omega

theorem Working.atRest (w : Working F root [] [] position 0 s l) : AtRest F root [] s l := by
  obtain ⟨done, marks, -, waits⟩ := w.shape
  refine ⟨w.inside, w.sound, w.settledAll, ?_⟩
  simpa [marks] using waits

/-! ## Expanding imports -/

/-- How the expansion of `count` rules from a position on ends: all of them are expanded, and it
    does not fail for an undefined variable. -/
def Expands (F : Entry → Prop) (root : FrameId) (front back : List (Option Queued)) (setting : Setting)
    (expandAt : Nat → Nat → Tracked Nat) : Prop :=
  ∀ (position count rest : Nat) (s : Evaluation) (l : Ledger),
    Working F root front back position (count + rest) s l →
    Ends setting s l (expandAt position count)
      (fun stop s' l' => position ≤ stop ∧ Working F root front back stop rest s' l' ∧
        (s'.frames.get root).entries.length ≤ DeferredImport.maxLocation)
      (fun f _ l' => f.isUndefinedVariable = false ∧ l'.dropped = [])

theorem Expands.whileImporting (expands : Expands F root front back setting expandAt) :
    Expands F root front back setting fun position count =>
      Tracked.whileImporting (expandAt position count) := by
  intro position count rest s l working
  refine .between (.mono (expands position count rest _ l ?_) ?_ ?_)
  · exact working.congr rfl rfl
  · rintro stop t l' ⟨ordered, working, fits⟩
    exact ⟨ordered, working.congr rfl rfl, fits⟩
  · exact fun _ _ _ defined => defined

section Settling

variable (settles : Settles setting F)

include settles

theorem spliceImport_ends (expands : Expands F root front back setting expandAt) (env : Environment)
    (site : Site) (i : Import) (p : Poised F root front back position rest s l)
    (fits : (s.frames.get root).entries.length ≤ DeferredImport.maxLocation) :
    Ends setting s l (spliceImport expandAt root env position site i)
      (fun inserted s' l' => Working F root front back (position + inserted) rest s' l' ∧
        (s'.frames.get root).entries.length ≤ DeferredImport.maxLocation)
      (fun f s' l' => l'.dropped = [] ∧ (f.isUndefinedVariable = true →
        i.isInterpolated = true ∧ l' = l ∧ Loads s s')) := by
  have replaced := (Eval.replaceImport_ends p.inside env position site i).and
    ((Eval.replaceImport_splices root env position site i).ends setting s)
  refine .liftBind replaced ?_ ?_
  · rintro r t ⟨⟨new, contributes, entries, deferred, -⟩, splices⟩
    have inside : root < t.frames.size := splices.size ▸ p.inside
    have working := p.replace inside entries deferred
    have lt := p.position_lt
    have length : (t.frames.get root).entries.length + 1 =
        (s.frames.get root).entries.length + new.length := by
      rw [entries]
      simp only [List.length_append, List.length_take, List.length_drop]
      omega
    cases contributes with
    | plain evaluated kept =>
      refine .record (.pure ⟨working.advance fun k e le lt' found => ?_, ?_⟩)
      · have final := settles.kept site ((s.frames.get root).nestingAt position) evaluated kept
        rw [entries] at found
        grind
      · simp only [List.length_singleton] at length
        omega
    | nothing =>
      refine .record (.pure ⟨working.advance fun k e le lt' found => ?_, ?_⟩)
      · simp only [List.length_nil] at lt'
        omega
      · simp only [List.length_nil] at length
        omega
    | file =>
      rw [List.length_map] at working
      refine .record (.bind (expands.whileImporting _ _ rest _ _ working) ?_ ?_)
      · rintro stop t' l' ⟨ordered, working, fits⟩
        refine .pure ⟨?_, fits⟩
        rwa [Nat.add_sub_cancel' ordered]
      · rintro f t' l' ⟨defined, dropped⟩
        exact ⟨dropped, by simp [defined]⟩
  · rintro f t ⟨⟨loads, interpolated⟩, -⟩
    exact ⟨p.sound.nothingDropped, fun undefined => ⟨interpolated undefined, rfl, loads⟩⟩

theorem expandRange_expands (others : AsideOf front back aside)
    (expands : Expands F root front back setting expandAt) (env : Environment) :
    Expands F root front back setting (expandRange aside expandAt root env) := by
  intro position count rest s l working
  induction count generalizing position s l with
  | zero =>
    rw [Nat.zero_add] at working
    exact .note fun fits =>
      ⟨working.intact others fits, .pure ⟨Nat.le_refl _, working, fits⟩⟩
  | succ count ih =>
    refine .note fun fits => ⟨working.intact others fits, .ofLift rfl ?_⟩
    have order : count + 1 + rest = 1 + (count + rest) := by omega
    rw [order] at working
    -- a rule that is no import, or an import that is queued, is passed over
    have next : ∀ t l', Working F root front back (position + 1) (count + rest) t l' →
        Ends setting t l' (expandRange aside expandAt root env (position + 1) count)
          (fun stop s' l' => position ≤ stop ∧ Working F root front back stop rest s' l' ∧
            (s'.frames.get root).entries.length ≤ DeferredImport.maxLocation)
          (fun f _ l' => f.isUndefinedVariable = false ∧ l'.dropped = []) := fun t l' working' =>
      (ih (position + 1) t l' working').mono
        (fun _ _ _ h => ⟨Nat.le_of_succ_le h.1, h.2⟩) fun _ _ _ h => h
    rw [Frame.entryAt_eq]
    split
    · rename_i i site nesting found
      split
      · refine .ofLift rfl (.ofLift rfl (.ofLift rfl (.record (next _ _ ?_))))
        rw [Nat.add_comm 1] at working
        apply working.enqueue found rfl <;> rfl
      · rename_i resolved
        rw [Nat.add_comm 1] at working
        refine .bind (spliceImport_ends settles expands env site i working.poised fits) ?_ ?_
        · rintro inserted t l' ⟨working, -⟩
          exact (ih (position + inserted) t l' working).mono
            (fun _ _ _ h => ⟨Nat.le_of_add_right_le h.1, h.2⟩) fun _ _ _ h => h
        · rintro f t l' ⟨dropped, unchanged⟩
          refine ⟨?_, dropped⟩
          by_contra undefined
          exact resolved (unchanged (by simpa using undefined)).1
    · rename_i other
      refine next s l (working.advance fun k e le lt found => settles.rule ?_)
      obtain rfl : k = position := by omega
      obtain ⟨⟨rule, site⟩, nesting⟩ := e
      cases rule with
      | fileImport i => exact absurd found (other i site nesting)
      | _ => rfl

theorem expandWithin_expands (others : AsideOf front back aside) (env : Environment) (levels : Nat) :
    Expands F root front back setting (expandWithin aside root env levels) := by
  induction levels with
  | zero =>
    exact fun _ _ _ _ _ working =>
      .lift (.failWith ⟨rfl, working.sound.nothingDropped⟩)
  | succ levels ih => exact expandRange_expands settles others ih env

theorem expandImports_ends (env : Environment) (inside : root < s.frames.size)
    (sound : l.Sound (s.frames.get root).entries)
    (unmarked : l.marks = List.replicate (s.frames.get root).size none)
    (empty : s.importer.deferred = []) :
    Ends setting s l (expandImports root env)
      (fun _ s' l' => AtRest F root [] s' l') (fun _ _ l' => l'.dropped = []) := by
  have others : AsideOf [] [] fun _ => [] := fun _ _ => .refl _
  have working : Working F root [] [] 0 ((s.frames.get root).size + 0) s l :=
    ⟨inside, sound, ⟨[], by simp [unmarked], rfl, empty ▸ .refl _⟩, fun k e found _ =>
      .inr ⟨Nat.zero_le _, by simpa [← Frame.length_entries] using (List.getElem?_eq_some_iff.mp found).1⟩⟩
  refine .ofLift rfl (.ofLift rfl (.ofLift rfl (.between ?_)))
  refine .bind (expandWithin_expands settles others env _ 0 _ 0 _ l ?_) ?_ fun _ _ _ h => h.2
  · exact working.congr rfl rfl
  · rintro stop t l' ⟨-, working, -⟩
    exact .pure (working.atRest.congr rfl rfl)

/-! ## Replaying deferred imports -/

omit settles in
/-- While a deferred import is spliced, the others are where a shift would move them now. -/
theorem asideOf_shiftAll
    (waits : others.Perm (standingFrom 0 front ++ standingFrom (front.length + 1) back)) :
    AsideOf front back fun size =>
      DeferredImport.shiftAll front.length
        ((size : Int) - (front.length + 1 + back.length : Nat)) others := by
  intro count fits
  have delta : ((front.length + count + back.length : Nat) : Int) -
      (front.length + 1 + back.length : Nat) = (count : Int) - 1 := by omega
  simp only [delta]
  exact shiftAll_standing front back count fits waits

theorem tryDeferred_ends {d : DeferredImport} (site : Site) (i : Import)
    (rest : AtRest F root (d :: others) s l) (taken : s.importer.deferred = [])
    (fits : (s.frames.get root).entries.length ≤ DeferredImport.maxLocation) :
    Ends setting s l (tryDeferred root others d site i)
      (fun outcome s' l' =>
        match outcome with
        | .ok inserted =>
          AtRest F root (DeferredImport.shiftAll d.location ((inserted : Int) - 1) others) s' l'
        | .error f => l'.dropped = [] ∧ (f.isUndefinedVariable = true →
          AtRest F root (d :: others) s' l' ∧ s'.importer.deferred = []))
      (fun _ _ _ => False) := by
  have waits := rest.waits
  rw [taken, List.nil_append] at waits
  obtain ⟨front, q, back, marks, location, waits'⟩ := exists_mark_of_waits waits
  have size : (s.frames.get root).entries.length = front.length + 1 + back.length := by
    rw [← rest.sound.length_eq, marks]
    simp only [List.length_append, List.length_cons]
    omega
  have aside := asideOf_shiftAll waits'
  rw [← size, Frame.length_entries, location] at aside
  have expands : Expands F root front back setting _ :=
    expandWithin_expands settles aside d.scope (setting.options.maxImportDepth + 1)
  -- the splice runs at the nesting that the import was found at
  let entered : Evaluation := { s with importer := { s.importer with baseDepth := d.depth } }
  have poised : Poised F root front back d.location 0 entered l :=
    ⟨rest.inside, rest.sound, ⟨[], some q, by simp [marks], by simp [location], taken ▸ .refl _⟩,
      fun k e found unmarked => (rest.settled k e found unmarked).imp_right fun never => by omega⟩
  have spliced := spliceImport_ends settles expands d.scope site i poised fits
  refine .ofLift rfl (.ofLift rfl (.ofLift rfl (.between (.attempt
    (spliced.mono ?_ ?_)))))
  · rintro inserted t l' ⟨working, fits⟩
    have waits := working.waits aside fits
    obtain ⟨done, marks, stop, -⟩ := working.shape
    have grown : ((t.frames.get root).entries.length : Int) - (s.frames.get root).size =
        (inserted : Int) - 1 := by
      rw [← Frame.length_entries (s.frames.get root), ← working.sound.length_eq, marks, size]
      simp only [List.length_append, List.length_replicate]
      omega
    simp only [grown] at waits
    exact ⟨working.inside, working.sound, working.settledAll, waits⟩
  · rintro f t l' ⟨dropped, unchanged⟩
    refine ⟨dropped, fun undefined => ?_⟩
    obtain ⟨-, rfl, loads⟩ := unchanged undefined
    have deferred : t.importer.deferred = [] := loads.deferred.trans taken
    have entries := loads.entries root
    exact ⟨⟨loads.size ▸ rest.inside, entries ▸ rest.sound, entries ▸ rest.settled,
      deferred ▸ waits⟩, deferred⟩

theorem replayPass_ends {pass : Eval.Pass} (rest : AtRest F root (pending ++ pass.blocked) s l) :
    Ends setting s l (replayPass root pending pass)
      (fun pass' s' l' => AtRest F root pass'.blocked s' l') (fun _ _ l' => l'.dropped = []) := by
  induction length : pending.length generalizing pending pass s l with
  | zero =>
    obtain rfl := List.length_eq_zero_iff.mp length
    unfold replayPass
    exact .note fun _ => ⟨rest.sound.intact rest.waits, .pure rest⟩
  | succ n ih =>
    obtain ⟨d, pending, rfl⟩ := List.exists_cons_of_length_eq_add_one length
    unfold replayPass
    refine .note fun fits => ⟨rest.sound.intact rest.waits, .ofLift rfl ?_⟩
    simp only [List.length_cons, Nat.add_right_cancel_iff] at length
    split
    · rename_i i site nesting found
      have taken : AtRest F root (d :: (pending ++ pass.blocked ++ s.importer.deferred))
          { s with importer := { s.importer with deferred := [] } } l := by
        refine ⟨rest.inside, rest.sound, rest.settled, List.Perm.trans ?_ rest.waits⟩
        exact (List.perm_append_comm : (d :: (pending ++ pass.blocked) ++ _).Perm _)
      refine .ofLift rfl (.bind (tryDeferred_ends settles site i taken rfl fits) ?_ ?_)
      case refine_2 => exact fun _ _ _ never => never.elim
      intro outcome t l' ended
      cases outcome with
      | ok inserted =>
        refine Ends.ofLift rfl (Ends.ofLift rfl (ih ?_ (by simp [DeferredImport.shiftAll, length])))
        refine ⟨ended.inside, ended.sound, ended.settled, List.Perm.trans ?_ ended.waits⟩
        simp only [DeferredImport.shiftAll, List.map_append, List.nil_append, List.append_assoc]
        exact List.perm_append_comm.trans (.of_eq (by simp))
      | error failure =>
        dsimp only
        split
        · rename_i undefined
          obtain ⟨rest, deferred⟩ := ended.2 undefined
          refine .ofLift rfl (.ofLift rfl (ih ?_ length))
          refine ⟨rest.inside, rest.sound, rest.settled, List.Perm.trans ?_ rest.waits⟩
          simp only [deferred, List.nil_append]
          refine List.perm_append_comm.trans ?_
          have moved : (pending ++ pass.blocked ++ d :: s.importer.deferred).Perm _ :=
            List.perm_middle
          simpa using moved
        · exact .lift (.fail ended.1)
    · rename_i gone
      obtain ⟨i, site, nesting, found⟩ := rest.import_at (List.mem_append_right _ List.mem_cons_self)
      exact absurd found (gone i site nesting)

theorem replayOnce_ends (rest : AtRest F root [] s l) :
    Ends setting s l (replayOnce root)
      (fun last s' l' => AtRest F root [] s' l' ∧ (last = true → s'.importer.deferred = []))
      (fun _ _ l' => l'.dropped = []) := by
  refine .note fun _ => ⟨rest.sound.intact rest.waits, .ofLift rfl ?_⟩
  have taken : AtRest F root (s.importer.deferred ++ [])
      { s with importer := { s.importer with deferred := [] } } l :=
    ⟨rest.inside, rest.sound, rest.settled, rest.waits⟩
  split
  · rename_i empty
    rw [List.isEmpty_iff.mp empty] at taken
    exact .pure ⟨taken, fun _ => rfl⟩
  · refine .ofLift rfl (.bind (replayPass_ends settles (taken.congr rfl rfl)) ?_ fun _ _ _ h => h)
    intro pass t l' rest
    split
    · exact .lift (.fail rest.sound.nothingDropped)
    · refine .ofLift rfl (.pure ⟨⟨rest.inside, rest.sound, rest.settled, ?_⟩, nofun⟩)
      rw [List.append_nil]
      exact rest.waits

section Repetition

omit settles

variable {Inv Done : Evaluation → Ledger → Prop}

/-- The step keeps an invariant, and if it is the last one, something is done. -/
def Repeats (setting : Setting) (Inv Done : Evaluation → Ledger → Prop) (step : Tracked Bool) :
    Prop :=
  ∀ s l, Inv s l → Ends setting s l step
    (fun last s' l' => Inv s' l' ∧ (last = true → Done s' l')) (fun _ _ l' => l'.dropped = [])

theorem repeats_chains : Repetition.Chains (Repeats setting Inv Done) where
  none s l inv := .pure ⟨inv, nofun⟩
  next first later s l inv := by
    refine .bind (first s l inv) ?_ fun _ _ _ h => h
    rintro last t l' ⟨inv, done⟩
    split
    · rename_i isLast
      exact .pure ⟨inv, fun _ => done isLast⟩
    · exact later t l' inv

end Repetition

theorem replayDeferred_ends (width : Nat) (rest : AtRest F root [] s l) :
    Ends setting s l (replayDeferred root width)
      (fun _ s' l' => AtRest F root [] s' l' ∧ s'.importer.deferred = [])
      (fun _ _ l' => l'.dropped = []) := by
  have once : Repeats setting (AtRest F root []) (fun s' _ => s'.importer.deferred = [])
      (replayOnce root) := fun _ _ => replayOnce_ends settles
  refine .ofLift rfl (.bind (repeats_chains.repeatPowersFrom once width 0 _ s l rest) ?_
    fun _ _ _ h => h)
  rintro last t l' ⟨rest, done⟩
  split
  · rename_i isLast
    exact .pure ⟨rest, done isLast⟩
  · exact .lift (.failWith rest.sound.nothingDropped)

/-! ## Opening a sheet -/

omit settles in
theorem AtRest.reduceOption_marks (rest : AtRest F root [] s l) (empty : s.importer.deferred = []) :
    l.marks.reduceOption = [] := by
  refine List.eq_nil_iff_forall_not_mem.mpr fun q member => ?_
  obtain ⟨position, marked⟩ := List.mem_iff_getElem?.mp (List.reduceOption_mem_iff.mp member)
  have stands : (⟨position, q.scope, q.depth⟩ : DeferredImport) ∈ standingFrom 0 l.marks :=
    mem_standingFrom.mpr ⟨position, q, marked, by simp⟩
  rw [← rest.waits.mem_iff, empty] at stands
  cases stands

omit settles in
theorem AtRest.all (rest : AtRest F root [] s l) (empty : s.importer.deferred = []) :
    ∀ e ∈ (s.frames.get root).entries, F e := by
  intro e member
  obtain ⟨k, found⟩ := List.mem_iff_getElem?.mp member
  obtain ⟨inside, -⟩ := List.getElem?_eq_some_iff.mp found
  rw [← rest.sound.length_eq] at inside
  have unmarked : l.marks[k]? = some none := by
    rw [List.getElem?_eq_getElem inside]
    cases marked : l.marks[k] with
    | none => rfl
    | some q =>
      have stands := List.reduceOption_mem_iff.mpr (marked ▸ List.getElem_mem inside)
      rw [rest.reduceOption_marks empty] at stands
      cases stands
  exact (rest.settled k e found unmarked).resolve_right fun never => by omega

theorem openSheet_atRest (sheet : Stylesheet) (empty : s.importer.deferred = []) :
    Ends setting s {} (openSheet sheet)
      (fun env s' l' => ∃ root, env = { frames := [root] } ∧ AtRest F root [] s' l' ∧
        s'.importer.deferred = [])
      (fun _ _ l' => l'.dropped = []) := by
  refine .liftBind ((Eval.registerSheet_loads sheet).ends setting s) ?_ fun _ _ _ => rfl
  intro _ t loads
  refine .ofLift (Eval.addFrame_apply ..) (.ofLift rfl (.record ?_))
  let opened := Frame.ofBlock (.written 0 []) sheet.rules 0
  have root : (t.frames.add opened).2.get t.frames.size = opened := Frames.get_add_self ..
  have size : opened.size = sheet.rules.length := by
    simp [opened, ← Frame.length_entries, Placed.ofBlock]
  have sound : (Ledger.start sheet.rules.length).Sound opened.entries :=
    size ▸ opened.length_entries ▸ Ledger.start_sound opened.entries
  have unmarked : (Ledger.start sheet.rules.length).marks = List.replicate opened.size none := by
    rw [size]
    rfl
  refine .bind (expandImports_ends settles _ ?_ ?_ ?_ ?_) ?_ fun _ _ _ h => h
  · simp
  · exact root ▸ sound
  · exact root ▸ unmarked
  · exact loads.deferred.trans empty
  · intro _ t' l' rest
    refine .bind (replayDeferred_ends settles _ rest) ?_ fun _ _ _ h => h
    intro _ t' l' atRest
    exact .pure ⟨_, rfl, atRest⟩

end Settling

theorem openSheet_ends (sheet : Stylesheet) (empty : s.importer.deferred = []) :
    Ends setting s {} (openSheet sheet)
      (fun _ s' l' => l'.dropped = [] ∧ s'.importer.deferred = [] ∧ l'.spliced.Perm l'.issued ∧
        l'.issued.map (·.number) = List.range l'.issued.length)
      (fun _ _ l' => l'.dropped = []) := by
  have settles : Settles setting fun _ => True := ⟨fun _ => trivial, fun _ _ _ _ => trivial⟩
  apply (openSheet_atRest settles sheet empty).mono
  · intro _ t l ⟨root, _, rest, empty⟩
    have accounted := rest.sound.accounted
    rw [rest.reduceOption_marks empty, List.append_nil] at accounted
    exact ⟨rest.sound.nothingDropped, empty, accounted, rest.sound.numbered⟩
  · intro _ _ _ dropped
    exact dropped

end Tracked

/-- The integrity of the queues: opening a sheet with a ledger beside it opens the sheet; at every
    moment, the deferred imports of all queues together wait at different positions, and the rule of
    the root at each position is the import that was queued; none is dropped; and when the sheet is
    open, each import that was ever queued has been spliced exactly once.

    The importer moves the other imports once a replayed import is spliced as a whole. The moments
    within such a splice hold them as `Tracked.tryDeferred` moves them, by what was spliced so far.
    The condition is that the root never has more rules than there are locations. -/
theorem deferred_imports_stay_in_place (setting : Setting) (sheet : Stylesheet)
    (fits : ∀ m ∈ (Tracked.openSheet sheet setting {} {}).moments,
      m.rules.length ≤ DeferredImport.maxLocation) :
    let run := Tracked.openSheet sheet setting {} {}
    (run.outcome, run.state) = Compiler.openSheet sheet setting {} ∧
      (∀ m ∈ run.moments, m.Intact) ∧
      run.ledger.dropped = [] ∧
      (∀ env, run.outcome = .ok env →
        run.state.importer.deferred = [] ∧ run.ledger.spliced.Perm run.ledger.issued ∧
          run.ledger.issued.map (·.number) = List.range run.ledger.issued.length) := by
  have ends : Tracked.Ends setting {} {} (Tracked.openSheet sheet) _ _ :=
    Tracked.openSheet_ends sheet rfl
  obtain ⟨intact, ended⟩ := ends fits
  refine ⟨Tracked.Erases.openSheet sheet setting {} {}, intact, ?_, fun env outcome => ?_⟩
  · cases outcome : (Tracked.openSheet sheet setting {} {}).outcome with
    | ok env =>
      rw [outcome] at ended
      exact ended.1
    | error f =>
      rw [outcome] at ended
      exact ended
  · rw [outcome] at ended
    exact ended.2

/-- Two imports with variables in their paths, of which the first has to wait for the second. -/
def chainedImports : Stylesheet :=
  ⟨none,
    [.fileImport ⟨.variable "y", {}, none, Span.none⟩,
      .fileImport ⟨.variable "x", {}, none, Span.none⟩,
      .variable ⟨"x", .keyword "f", Span.none⟩]⟩

/-- The file of the second import has more than one rule, and that of the first has none. -/
def chainedFiles : Setting :=
  { loader := (({} : Loader).insert ⟨"f.less"⟩ "@y:g;@z:h;").insert ⟨"g.less"⟩ "" }

theorem chainedImports_stay_in_place :
    (∀ m ∈ (Tracked.openSheet chainedImports chainedFiles {} {}).moments, m.Intact) ∧
      (Tracked.openSheet chainedImports chainedFiles {} {}).ledger.spliced.map (·.number) = [1, 0] :=
  ⟨(deferred_imports_stay_in_place chainedFiles chainedImports (by decide +kernel)).2.1,
    by decide +kernel⟩

end StyleResolution
