import StyleResolution.Proofs.Coupling.Imports

/-! # Imports are expanded by recursion

The imports of a frame are expanded in place: rules are spliced into the frame that is being walked
over, and the walk goes on behind them. What becomes of a rule can be said without a frame, though.
A rule that is no import stays, and an import becomes a plain import, nothing, a media block, or
what becomes of the rules of its file, one after the other. `RecursiveExpansion` is this recursion.
It passes the importer on from rule to rule, and agrees with the expansion in place as long as no
path has variables, because the value of such a path depends on the frame.
-/

namespace StyleResolution

open Eval

/-- Why imports cannot be expanded by recursion. -/
inductive Obstacle where
  /-- The path of an import has variables. -/
  | interpolated (i : Import)
  /-- An import cannot be opened, or too many files are nested. -/
  | failure

/-- What the recursion depends on besides the rules and the importer. -/
structure RecursiveExpansion where
  setting : Setting
  /-- The state in which paths are evaluated. -/
  start : Evaluation
  scope : Environment
  defer : Bool
  /-- The import nesting of the block. -/
  base : Nat

/-- What rules become, and the importer afterwards. -/
abbrev Expanded := Except Obstacle (List Entry × Importer)

namespace RecursiveExpansion

variable (x : RecursiveExpansion)

/-- The importer where `opened` imports are open. -/
def importerAt (opened : Nat) (m : Importer) : Importer :=
  { m with baseDepth := x.base, openImports := opened }

/-- The evaluated path of an import, and the text by which its file is found. -/
def pathOf (i : Import) : Except Obstacle (Value × String) :=
  match (importPath x.scope i x.setting x.start).1 with
  | .ok found => .ok found
  | .error _ => .error .failure

/-- What an import contributes where `opened` imports are open, and the importer afterwards. -/
def contributionOf (opened : Nat) (i : Import) (text : String) (m : Importer) :
    Except Obstacle (Opened × Importer) :=
  match openImport i text x.setting { importer := x.importerAt opened m } with
  | (.ok result, s) => .ok (result, s.importer)
  | (.error _, _) => .error .failure

/-- What stands in the place of an import at a position, given what it contributes. The rules of a
    file are nested in one import more than the import itself. They are expanded by `inner`, which
    takes the number of open imports and the position. -/
def placeOf (inner : Nat → Nat → List Entry → Importer → Expanded) (opened position : Nat)
    (e : Entry) (i : Import) (path : Value) : Opened → Importer → Expanded
  | .passThrough, m => .ok ([{ e with rule := .fileImport { i with path } }], m)
  | .skipped, m => .ok ([], m)
  | .file _ loaded, m =>
    let root := Site.written loaded.file []
    let nesting := x.base + (opened + 1)
    match i.media with
    | some features => .ok ([⟨⟨.media features loaded.rules i.span, root⟩, nesting⟩], m)
    | none => inner (opened + 1) position (Frame.ofBlock root loaded.rules nesting).entries m

def ofRule (inner : Nat → Nat → List Entry → Importer → Expanded) (opened position : Nat)
    (e : Entry) (m : Importer) : Expanded :=
  match e.rule with
  | .fileImport i =>
    if i.isInterpolated then
      if x.defer then .ok ([e], m.defer ⟨position, x.scope, x.base + opened⟩)
      else .error (.interpolated i)
    else do
      let (path, text) ← x.pathOf i
      let (contributed, m) ← x.contributionOf opened i text m
      x.placeOf inner opened position e i path contributed m
  | _ => .ok ([e], m)

def ofRules (inner : Nat → Nat → List Entry → Importer → Expanded) (opened : Nat) :
    Nat → List Entry → Importer → Expanded
  | _, [], m => .ok ([], m)
  | position, e :: es, m => do
    let (first, m) ← x.ofRule inner opened position e m
    let (others, m) ← ofRules inner opened (position + first.length) es m
    pure (first ++ others, m)

/-- What rules from a position on become, with files nested less than `levels` deep. -/
def within : Nat → Nat → Nat → List Entry → Importer → Expanded
  | 0, _, _, _, _ => .error .failure
  | levels + 1, opened, position, es, m => x.ofRules (within levels) opened position es m

end RecursiveExpansion

theorem RecursiveExpansion.importerAt_eq_self {x : RecursiveExpansion} {m : Importer}
    (base : m.baseDepth = x.base) (same : m.openImports = opened) : x.importerAt opened m = m := by
  rw [importerAt, ← base, ← same]

/-! ## Paths without variables -/

mutual

theorem Value.isConstant_of_resolved {v : Value} (resolved : v.isUnresolved = false) :
    v.isConstant = true := by
  cases v with
  | keyword | dimension | color => rfl
  | quoted t quote =>
    simp only [isUnresolved] at resolved
    simp [isConstant, pieces_of_not_opensHole resolved]
  | url inner | paren inner =>
    simp only [isUnresolved] at resolved
    simp only [isConstant, isConstant_of_resolved resolved]
  | «variable» | indirect | operation => simp [isUnresolved] at resolved
  | list _ items | call _ items =>
    simp only [isUnresolved] at resolved
    simp only [isConstant, areConstant_of_resolved resolved]

theorem Value.areConstant_of_resolved (resolved : anyUnresolved vs = false) :
    areConstant vs = true := by
  cases vs with
  | nil => rfl
  | cons v vs =>
    simp only [anyUnresolved, Bool.or_eq_false_iff] at resolved
    simp [areConstant, isConstant_of_resolved resolved.1, areConstant_of_resolved resolved.2]

end

namespace Eval

variable {setting : Setting} {s t : Evaluation}

theorem importPath_tied_of_literal (env : Environment) {i : Import}
    (literal : i.isInterpolated = false) (same : SameScope Eq True {} {} s t) :
    Tied .none setting s t (importPath env i) (importPath env i) fun a _ b _ => a = b := by
  have blank : value env i.path = value {} i.path :=
    valueWith_constant _ _ i.path (Value.isConstant_of_resolved literal)
  unfold importPath
  rw [blank]
  have spanned : SameScope Eq True {} {} { s with span := i.span } { t with span := i.span } :=
    { same with }
  have evaluated : Alike Eq True {} {} setting { s with span := i.span } { t with span := i.span }
      (value {} i.path) (value {} i.path) := value_alike i.path spanned
  refine .change (.bind (evaluated.locatedAt i.span i.span) ?_ fun _ _ => id)
  rintro path s' _ t' ⟨rfl, -⟩
  cases path <;> exact .pure rfl

theorem importPath_importer (env : Environment) (i : Import) :
    Keeps setting (fun s s' => s'.importer = s.importer) (importPath env i) := by
  have : IsPreorder Evaluation fun s s' => s'.importer = s.importer :=
    { refl := fun _ => rfl, trans := fun _ _ _ first second => second.trans first }
  have evaluates : Keeps setting (fun s s' => s'.importer = s.importer) (value env i.path) :=
    fun s => (value_quiet env i.path s).importer
  refine .bind (.change fun _ => rfl) fun _ => .bind (evaluates.locatedAt _) ?_
  intro path
  split <;> exact .pure _

end Eval

theorem Importer.Same.eq {i j : Importer} (same : i.Same j) (deferred : i.deferred = j.deferred) :
    i = j := by
  obtain ⟨_, _, _, _, _, _, _⟩ := i
  obtain ⟨_, _, _, _, _, _, _⟩ := j
  simp only [Importer.Same, Importer.mk.injEq] at same deferred ⊢
  simp [same, deferred]

/-! ## States in step with the recursion -/

namespace RecursiveExpansion

variable {x : RecursiveExpansion} {id : FrameId} {opened : Nat} {t t' : Evaluation}
  {es before after range : List Entry} {e : Entry} {m m' : Importer}

/-- The frame has the rules, and the importer is as the recursion has it. -/
structure InStep (x : RecursiveExpansion) (id : FrameId) (opened : Nat) (t : Evaluation)
    (es : List Entry) (m : Importer) : Prop where
  inside : id < t.frames.size
  entries : (t.frames.get id).entries = es
  importer : t.importer = x.importerAt opened m
  parenDepth : t.parenDepth = x.start.parenDepth
  defaultAnswer : t.defaultAnswer = x.start.defaultAnswer
  evaluating : t.evaluating = x.start.evaluating

namespace InStep

section

variable (step : InStep x id opened t es m)

include step

theorem sameScope : SameScope Eq True {} {} t x.start where
  one := .eq
  names := .nil
  size _ := rfl
  parenDepth := step.parenDepth
  defaultAnswer := step.defaultAnswer
  evaluating := by
    rw [step.evaluating, List.forall₂_eq_eq_eq]

theorem nesting : t.importer.nesting = x.base + opened := by
  rw [step.importer]
  rfl

theorem of_loads (loads : Loads t t') (importer : t'.importer = x.importerAt opened m') :
    InStep x id opened t' es m' := by
  have restored := loads.restored
  simp only [Evaluation.scopedPart, Scoped.mk.injEq] at restored
  exact
    { inside := loads.size ▸ step.inside
      entries := (loads.entries id).trans step.entries
      importer := importer
      parenDepth := restored.1.trans step.parenDepth
      defaultAnswer := restored.2.1.trans step.defaultAnswer
      evaluating := restored.2.2.1.trans step.evaluating }

theorem emit (event : Event) :
    InStep x id opened { t with events := t.events.push event } es m :=
  { step with }

theorem enqueue (position : Nat) :
    InStep x id opened
      { t with importer := t.importer.defer ⟨position, x.scope, t.importer.nesting⟩ } es
      (m.defer ⟨position, x.scope, x.base + opened⟩) := by
  refine { step with importer := ?_ }
  simp only [step.nesting]
  rw [step.importer]
  rfl

end

theorem splice (step : InStep x id opened t (before ++ e :: after) m) {f : Frame → Frame}
    {rules : List Placed} {nesting : Nat}
    (splices : f (t.frames.get id) = (t.frames.get id).spliceAt before.length 1 rules nesting) :
    InStep x id opened { t with frames := t.frames.modify id f }
      (before ++ rules.map (fun p => { p with nesting }) ++ after) m where
  inside := by simpa using step.inside
  entries := by
    change ((t.frames.modify id f).get id).entries = _
    rw [Frames.get_modify_self step.inside, splices, Frame.entries_spliceAt, step.entries,
      splice_eq_append]
  importer := step.importer
  parenDepth := step.parenDepth
  defaultAnswer := step.defaultAnswer
  evaluating := step.evaluating

end InStep

section Opening

variable {i : Import}

theorem importPath_inStep (step : InStep x id opened t es m) (literal : i.isInterpolated = false) :
    Eval.Ends x.setting t (importPath x.scope i)
      (fun found t' => x.pathOf i = .ok found ∧ InStep x id opened t' es m) fun _ _ => True := by
  have related := @Eval.importPath_tied_of_literal x.setting t x.start x.scope i literal
    step.sameScope trivial
  have loads := (importPath_loads x.scope i).ends x.setting t
  have importer := (importPath_importer x.scope i).ends x.setting t
  rw [Eval.Ends.iff_cases]
  refine ⟨fun found t' run => ⟨?_, ?_⟩, fun _ _ _ => trivial⟩
  · rw [run] at related
    unfold pathOf
    rcases alone : importPath x.scope i x.setting x.start with ⟨f | foundToo, s⟩
    · rw [alone] at related
      exact absurd trivial related.1
    · rw [alone] at related
      cases (show found = foundToo from related)
      rfl
  · exact step.of_loads (loads.result run) ((importer.result run).trans step.importer)

theorem openImport_inStep (step : InStep x id opened t es m) (i : Import) (text : String) :
    Eval.Ends x.setting t (locatedAt i.span (noteOpening i text (openImport i text)))
      (fun result t' => ∃ m', x.contributionOf opened i text m = .ok (result, m') ∧
        InStep x id opened t' es m') fun _ _ => True := by
  have related := @Coupling.openImport_tied x.setting t { importer := x.importerAt opened m }
    (by rw [step.importer]; rfl) i text trivial
  have loads := (openImport_loads i text).ends x.setting t
  have loadsToo := (openImport_loads i text).ends x.setting
    { importer := x.importerAt opened m }
  apply Eval.Ends.mapFailure
  apply Eval.Ends.noteOpening
  rw [Eval.Ends.iff_cases]
  refine ⟨fun result t' run => ?_, fun _ _ _ => trivial⟩
  rw [run] at related
  have loaded := loads.result run
  rcases alone : openImport i text x.setting { importer := x.importerAt opened m } with
    ⟨f | resultToo, u⟩
  · rw [alone] at related
    exact absurd trivial related.1
  · rw [alone] at related
    obtain ⟨rfl, same⟩ := related
    have loadedToo := loadsToo.result alone
    have importer : t'.importer = u.importer :=
      same.eq (by rw [loaded.deferred, loadedToo.deferred, step.importer])
    have restored := loadedToo.restored
    simp only [Evaluation.scopedPart, Scoped.mk.injEq] at restored
    refine ⟨u.importer, by rw [contributionOf, alone], step.of_loads { loaded with } ?_⟩
    rw [Evaluation.note_importer, importer]
    exact (importerAt_eq_self restored.2.2.2.2.1 restored.2.2.2.2.2).symm

end Opening

/-! ## Splicing in place -/

/-- The recursion met a path with variables, or the range in front of which `before` stands became
    what the recursion says, and ends at the position `stop`. -/
def Agrees (x : RecursiveExpansion) (id : FrameId) (opened : Nat) (before after : List Entry)
    (expanded : Expanded) (stop : Nat) (t : Evaluation) : Prop :=
  (x.defer = false ∧ ∃ i, expanded = .error (.interpolated i)) ∨
    ∃ final m, expanded = .ok (final, m) ∧ stop = before.length + final.length ∧
      InStep x id opened t (before ++ final ++ after) m

/-- The expansion in place agrees with the recursion for files nested less than `levels` deep. -/
def AgreesWithin (x : RecursiveExpansion) (id : FrameId) (levels : Nat) : Prop :=
  ∀ opened t before range after m, InStep x id opened t (before ++ range ++ after) m →
    Eval.Ends x.setting t
      (expandWithin id x.scope x.defer levels before.length range.length)
      (fun stop t' => Agrees x id opened before after
        (x.within levels opened before.length range m) stop t') fun _ _ => True

variable {levels : Nat} {i : Import}

namespace Agrees

variable {expanded : Expanded} {stop : Nat}

/-- Where the recursion met a path with variables, nothing is said. -/
theorem of_blocked (immediate : x.defer = false)
    (blocked : ∃ i, expanded = .error (.interpolated i)) (y : Eval Nat) :
    Eval.Ends x.setting t y (fun stop t' => Agrees x id opened before after expanded stop t')
      fun _ _ => True :=
  Eval.Ends.iff_cases.mpr ⟨fun _ _ _ => .inl ⟨immediate, blocked⟩, fun _ _ _ => trivial⟩

theorem leave (agrees : Agrees x id (opened + 1) before after expanded stop t) :
    Agrees x id opened before after expanded stop
      { t with importer := { t.importer with openImports := t.importer.openImports - 1 } } := by
  obtain blocked | ⟨final, m, result, stops, step⟩ := agrees
  · exact .inl blocked
  · refine .inr ⟨final, m, result, stops, { step with importer := ?_ }⟩
    simp only [step.importer]
    rfl

theorem count (agrees : Agrees x id opened before after expanded stop t) :
    Agrees x id opened before after expanded (before.length + (stop - before.length)) t := by
  obtain blocked | ⟨final, m, result, stops, step⟩ := agrees
  · exact .inl blocked
  · exact .inr ⟨final, m, result, by omega, step⟩

end Agrees

theorem ofRule_literal {position : Nat} {inner : Nat → Nat → List Entry → Importer → Expanded}
    (isImport : e.rule = .fileImport i) (literal : i.isInterpolated = false)
    (evaluated : x.pathOf i = .ok (path, text))
    (contributes : x.contributionOf opened i text m = .ok (contributed, m')) :
    x.ofRule inner opened position e m =
      x.placeOf inner opened position e i path contributed m' := by
  unfold ofRule
  rw [isImport]
  simp only [literal, Bool.false_eq_true, if_false, evaluated]
  change (do
    let (contributed, m) ← x.contributionOf opened i text m
    x.placeOf inner opened position e i path contributed m) = _
  rw [contributes]
  rfl

theorem ofRule_other {position : Nat} {inner : Nat → Nat → List Entry → Importer → Expanded}
    (other : Compiler.isImport e.rule = false) :
    x.ofRule inner opened position e m = .ok ([e], m) := by
  unfold ofRule
  split
  · rename_i isImport
    simp [isImport, Compiler.isImport] at other
  · rfl

theorem replaceImport_inStep (inner : Nat → Nat → List Entry → Importer → Expanded)
    (isImport : e.rule = .fileImport i) (literal : i.isInterpolated = false)
    (step : InStep x id opened t (before ++ e :: after) m) :
    Eval.Ends x.setting t (replaceImport id x.scope before.length e.site i)
      (fun r t' => ∃ new m', InStep x id opened t' (before ++ new ++ after) m' ∧
        (r = .settled new.length ∧ x.ofRule inner opened before.length e m = .ok (new, m') ∨
          r = .opened new.length ∧
            (x.ofRule inner opened before.length e m =
                inner (opened + 1) before.length new m' ∨
              ∃ e', new = [e'] ∧ Compiler.isImport e'.rule = false ∧
                x.ofRule inner opened before.length e m = .ok (new, m'))))
      fun _ _ => True := by
  apply Eval.Ends.seq (importPath_inStep step literal) ?_
  rintro ⟨path, text⟩ u ⟨evaluated, step⟩
  apply Eval.Ends.seq (openImport_inStep step i text) ?_
  rintro contributed u' ⟨m', contributes, step⟩
  rw [ofRule_literal isImport literal evaluated contributes]
  cases contributed with
  | passThrough =>
    have nesting : (u'.frames.get id).nestingAt before.length = e.nesting := by
      simp [Frame.nestingAt_eq, step.entries]
    refine .change (.pure ⟨_, m', step.splice rfl, .inl ⟨rfl, ?_⟩⟩)
    simp [placeOf, nesting]
  | skipped =>
    exact .change (.pure ⟨_, m', step.splice rfl, .inl ⟨rfl, rfl⟩⟩)
  | file canonical loaded =>
    apply Eval.Ends.ofState
    dsimp only
    rw [step.nesting]
    refine Eval.Ends.change (Eval.Ends.change (Eval.Ends.pure
      ⟨_, m', (step.emit _).splice rfl, .inr ⟨by simp, ?_⟩⟩))
    unfold placeOf contribution
    cases i.media with
    | some features => exact .inr ⟨_, rfl, rfl, rfl⟩
    | none =>
      dsimp only
      rw [Frame.entries_ofBlock]
      exact .inl rfl

theorem ofRules_cons {position : Nat} {inner : Nat → Nat → List Entry → Importer → Expanded}
    {first : List Entry} (expanded : x.ofRule inner opened position e m = .ok (first, m')) :
    x.ofRules inner opened position (e :: es) m =
      (x.ofRules inner opened (position + first.length) es m').map
        fun rest => (first ++ rest.1, rest.2) := by
  rw [ofRules, expanded]
  change (do
    let (others, m) ← x.ofRules inner opened (position + first.length) es m'
    pure (first ++ others, m)) = _
  cases x.ofRules inner opened (position + first.length) es m' <;> rfl

theorem within_other (other : Compiler.isImport e.rule = false) (levels opened position : Nat)
    (m : Importer) : x.within levels opened position [e] m = .ok ([e], m) ∨
      x.within levels opened position [e] m = .error .failure := by
  cases levels with
  | zero => exact .inr rfl
  | succ levels =>
    rw [within, ofRules, ofRule_other other]
    exact .inl rfl

theorem spliceImport_agrees (agrees : AgreesWithin x id levels) (isImport : e.rule = .fileImport i)
    (literal : i.isInterpolated = false) (step : InStep x id opened t (before ++ e :: after) m) :
    Eval.Ends x.setting t
      (spliceImport (expandWithin id x.scope x.defer levels) id x.scope before.length
        e.site i)
      (fun count t' => Agrees x id opened before after
        (x.ofRule (x.within levels) opened before.length e m) (before.length + count) t')
      fun _ _ => True := by
  apply Eval.Ends.seq (replaceImport_inStep (x.within levels) isImport literal step) ?_
  rintro r u ⟨new, m', step, ⟨rfl, expanded⟩ | ⟨rfl, expanded⟩⟩
  · exact Eval.Ends.pure (.inr ⟨new, m', expanded, rfl, step⟩)
  · have entered : InStep x id (opened + 1)
        { u with importer := { u.importer with openImports := u.importer.openImports + 1 } }
        (before ++ new ++ after) m' := by
      refine { step with importer := ?_ }
      simp only [step.importer]
      rfl
    have inner : Eval.Ends x.setting u (whileImporting
        (expandWithin id x.scope x.defer levels before.length new.length))
        (fun stop u' => Agrees x id opened before after
          (x.within levels (opened + 1) before.length new m') stop u') fun _ _ => True :=
      .between ((agrees (opened + 1) _ before new after m' entered).imp
        (fun _ _ agrees => agrees.leave))
    apply Eval.Ends.seq inner ?_
    intro stop u' agrees
    apply Eval.Ends.pure
    obtain same | ⟨e', rfl, other, expanded⟩ := expanded
    · rw [same]
      exact agrees.count
    · -- the imports in a media block are expanded when the block is entered
      rw [expanded]
      obtain alone | failed := within_other (x := x) other levels (opened + 1) before.length m'
      · rw [alone] at agrees
        exact agrees.count
      · rw [failed] at agrees
        obtain ⟨-, _, never⟩ | ⟨_, _, never, -⟩ := agrees <;> cases never

theorem expandRange_agrees (agrees : AgreesWithin x id levels) :
    AgreesWithin x id (levels + 1) := by
  intro opened t before range after m step
  change Eval.Ends x.setting t (expandRange (expandWithin id x.scope x.defer levels) id
    x.scope x.defer before.length range.length) (fun stop t' => Agrees x id opened before after
      (x.ofRules (x.within levels) opened before.length range m) stop t') fun _ _ => True
  induction range generalizing before t m with
  | nil => exact .pure (.inr ⟨[], m, rfl, rfl, step⟩)
  | cons e range ih =>
    have found : (t.frames.get id).entryAt before.length = some e := by
      simp [Frame.entryAt_eq, step.entries]
    have step : InStep x id opened t (before ++ e :: (range ++ after)) m := by simpa using step
    -- Whatever stands in the place of the first rule, the rest of the range is expanded next.
    have next : ∀ {u : Evaluation} {position : Nat}, Agrees x id opened before (range ++ after)
        (x.ofRule (x.within levels) opened before.length e m) position u →
        Eval.Ends x.setting u (expandRange (expandWithin id x.scope x.defer levels) id
          x.scope x.defer position range.length) (fun stop t' => Agrees x id opened before after
            (x.ofRules (x.within levels) opened before.length (e :: range) m) stop t')
          fun _ _ => True := by
      rintro u position (⟨immediate, i, blocked⟩ | ⟨first, m', expanded, rfl, step⟩)
      · refine Agrees.of_blocked immediate ⟨i, ?_⟩ _
        rw [ofRules, blocked]
        rfl
      · have rest := ih u (before ++ first) m' (by simpa using step)
        rw [List.length_append] at rest
        apply rest.imp ?_
        rintro stop u' (⟨immediate, i, blocked⟩ | ⟨others, m'', expandedToo, rfl, step⟩)
        · exact .inl ⟨immediate, i, by rw [ofRules_cons expanded, blocked]; rfl⟩
        · refine .inr ⟨first ++ others, m'', ?_, ?_, by simpa using step⟩
          · rw [ofRules_cons expanded, expandedToo]
            rfl
          · simp only [List.length_append, Nat.add_assoc]
    obtain ⟨⟨rule, site⟩, nesting⟩ := e
    apply Eval.Ends.ofState
    rw [found]
    cases rule with
    | fileImport i =>
      dsimp only
      by_cases queued : (x.defer && i.isInterpolated) = true
      · rw [if_pos queued]
        rw [Bool.and_eq_true] at queued
        have expanded : x.ofRule (x.within levels) opened before.length
            ⟨⟨.fileImport i, site⟩, nesting⟩ m = .ok ([⟨⟨.fileImport i, site⟩, nesting⟩],
              m.defer ⟨before.length, x.scope, x.base + opened⟩) := by
          simp [ofRule, queued]
        refine .change (.change (next (.inr ⟨_, _, expanded, rfl, ?_⟩)))
        have waiting := (step.emit (.deferring i.path)).enqueue before.length
        simpa using waiting
      · rw [if_neg queued]
        cases interpolated : i.isInterpolated with
        | false =>
          apply Eval.Ends.seq (spliceImport_agrees agrees rfl interpolated step) ?_
          exact fun _ _ agrees => next agrees
        | true =>
          have immediate : x.defer = false := by simpa [interpolated] using queued
          have blocked : x.ofRule (x.within levels) opened before.length
              ⟨⟨.fileImport i, site⟩, nesting⟩ m = .error (.interpolated i) := by
            simp [ofRule, interpolated, immediate]
          refine Agrees.of_blocked immediate ⟨i, ?_⟩ _
          rw [ofRules, blocked]
          rfl
    | declaration | «variable» | ruleset | mixin | call | media | atStatement | atBlock =>
      exact next (.inr ⟨_, m, ofRule_other rfl, rfl, by simpa using step⟩)

theorem agreesWithin (x : RecursiveExpansion) (id : FrameId) (levels : Nat) :
    AgreesWithin x id levels := by
  induction levels with
  | zero => exact fun _ _ _ _ _ _ _ => .failWith trivial
  | succ levels ih => exact expandRange_agrees ih

theorem expandImports_agrees (x : RecursiveExpansion) (id : FrameId)
    (base : x.base = (x.start.frames.get id).base) :
    let expanded := x.within (x.setting.options.maxImportDepth + 1) x.start.importer.openImports 0
      (x.start.frames.get id).entries x.start.importer
    Eval.Ends x.setting x.start (expandImports id x.scope x.defer)
      (fun _ t => (x.defer = false ∧ ∃ i, expanded = .error (.interpolated i)) ∨
        ∃ m, expanded = .ok ((t.frames.get id).entries, m) ∧
          t.importer = { m with baseDepth := x.start.importer.baseDepth
                                openImports := x.start.importer.openImports })
      fun _ _ => True := by
  intro expanded
  by_cases inside : id < x.start.frames.size
  · refine .ofState (.ofSetting (.ofState (.between ?_)))
    have step : InStep x id x.start.importer.openImports
        { x.start with
          importer := { x.start.importer with baseDepth := (x.start.frames.get id).base } }
        ([] ++ (x.start.frames.get id).entries ++ []) x.start.importer :=
      { inside, entries := by simp, importer := by rw [← base]; rfl, parenDepth := rfl
        defaultAnswer := rfl, evaluating := rfl }
    have within := x.agreesWithin id (x.setting.options.maxImportDepth + 1) _ _ [] _ [] _ step
    rw [← Frame.length_entries]
    apply Eval.Ends.seq within ?_
    rintro stop t (blocked | ⟨final, m, result, -, step⟩)
    · exact Eval.Ends.pure (.inl blocked)
    · refine Eval.Ends.pure (.inr ⟨m, ?_, ?_⟩)
      · rw [step.entries]
        simpa using result
      · simp only [step.importer]
        rfl
  · -- there is no such frame, so it has no rules
    have empty : (x.start.frames.get id).entries = [] := by
      rw [Frames.get_of_size_le (Nat.le_of_not_lt inside), Frame.entries_empty]
    have unchanged : expandImports id x.scope x.defer x.setting x.start = (.ok (), x.start) :=
      expandImports_of_no_import (by simp [empty]) x.scope x.defer
    rw [Eval.Ends, unchanged]
    refine .inr ⟨x.start.importer, ?_, rfl⟩
    simp only [expanded, empty]
    rfl

/-! ## The imports that remain -/

/-- Every import among the rules from a position on stays in the output, or waits in the queue. -/
def Remaining (x : RecursiveExpansion) (position : Nat) (es : List Entry) (m : Importer) : Prop :=
  ∀ n e i, es[n]? = some e → e.rule = .fileImport i →
    isPassThrough i.options i.path.reference = true ∨
      x.defer = true ∧ i.isInterpolated = true ∧
        ∃ d ∈ m.deferred, d.location = position + n ∧ d.scope = x.scope

/-- The result of an expansion leaves such imports only, and what waited before still waits. -/
def Leaves (x : RecursiveExpansion) (position : Nat) (m : Importer) (expanded : Expanded) : Prop :=
  ∀ final m', expanded = .ok (final, m') → m.deferred ⊆ m'.deferred ∧ x.Remaining position final m'

variable {inner : Nat → Nat → List Entry → Importer → Expanded} {position : Nat}

theorem pathOf_reference (found : x.pathOf i = .ok (path, text)) : text = path.reference := by
  unfold pathOf at found
  rcases run : importPath x.scope i x.setting x.start with ⟨f | result, u⟩
  · simp [run] at found
  · simp only [run, Except.ok.injEq] at found
    subst found
    exact (((importPath_gives (.any (value x.scope i.path))).ends x.start).result run).2

section Contribution

variable {text : String} {contributed : Opened}
  (found : x.contributionOf opened i text m = .ok (contributed, m'))

include found

theorem exists_of_contributionOf : ∃ u, m' = u.importer ∧
    openImport i text x.setting { importer := x.importerAt opened m } =
      (.ok contributed, u) := by
  unfold contributionOf at found
  split at found
  · rename_i result u run
    cases found
    exact ⟨u, rfl, run⟩
  · cases found

theorem contributionOf_deferred : m'.deferred = m.deferred := by
  obtain ⟨u, rfl, run⟩ := exists_of_contributionOf found
  have loads := (openImport_loads i text).ends x.setting { importer := x.importerAt opened m }
  exact (loads.result run).deferred

theorem contributionOf_passThrough (plain : contributed = .passThrough) :
    isPassThrough i.options text = true := by
  obtain ⟨u, rfl, run⟩ := exists_of_contributionOf found
  exact (plain ▸ (openImport_ends i text).result run).kept

end Contribution

theorem Remaining.append (first : x.Remaining position front m) (kept : m.deferred ⊆ m'.deferred)
    (second : x.Remaining (position + front.length) back m') :
    x.Remaining position (front ++ back) m' := by
  intro n e i at_ isImport
  by_cases inFront : n < front.length
  · rw [List.getElem?_append_left inFront] at at_
    apply (first n e i at_ isImport).imp_right
    rintro ⟨deferred, interpolated, d, waiting, place⟩
    exact ⟨deferred, interpolated, d, kept waiting, place⟩
  · rw [List.getElem?_append_right (Nat.le_of_not_lt inFront)] at at_
    have place : position + front.length + (n - front.length) = position + n := by omega
    rw [← place]
    exact second _ e i at_ isImport

theorem Remaining.single (h : ∀ i, e.rule = .fileImport i →
    isPassThrough i.options i.path.reference = true ∨ x.defer = true ∧ i.isInterpolated = true ∧
      ∃ d ∈ m.deferred, d.location = position ∧ d.scope = x.scope) :
    x.Remaining position [e] m := by
  intro n e' i at_ isImport
  obtain ⟨rfl, rfl⟩ : n = 0 ∧ e = e' := by simpa [List.getElem?_singleton] using at_
  exact h i isImport

theorem Remaining.other (other : Compiler.isImport e.rule = false) : x.Remaining position [e] m :=
  .single fun i isImport => by simp [isImport, Compiler.isImport] at other

namespace Leaves

theorem error (obstacle : Obstacle) : x.Leaves position m (.error obstacle) :=
  fun _ _ never => by cases never

theorem single (kept : m.deferred ⊆ m'.deferred) (remaining : x.Remaining position [e] m') :
    x.Leaves position m (.ok ([e], m')) := by
  intro final m'' result
  cases result
  exact ⟨kept, remaining⟩

end Leaves

section Expansion

variable (leaves : ∀ opened position es m, x.Leaves position m (inner opened position es m))

include leaves

theorem placeOf_leaves (e : Entry) (evaluated : x.pathOf i = .ok (path, text))
    (found : x.contributionOf opened i text m = .ok (contributed, m')) :
    x.Leaves position m (x.placeOf inner opened position e i path contributed m') := by
  have kept : m.deferred ⊆ m'.deferred := by rw [contributionOf_deferred found]; simp
  cases contributed with
  | passThrough =>
    refine .single kept (.single fun j isImport => .inl ?_)
    cases isImport
    rw [← pathOf_reference evaluated]
    exact contributionOf_passThrough found rfl
  | skipped =>
    intro final m'' result
    cases result
    exact ⟨kept, fun n e i at_ => by simp at at_⟩
  | file canonical loaded =>
    unfold placeOf
    cases i.media with
    | some features => exact .single kept (.other rfl)
    | none =>
      intro final m'' result
      obtain ⟨keptToo, remaining⟩ := leaves _ _ _ _ final m'' result
      exact ⟨List.Subset.trans kept keptToo, remaining⟩

theorem ofRule_leaves (opened position : Nat) (e : Entry) (m : Importer) :
    x.Leaves position m (x.ofRule inner opened position e m) := by
  unfold ofRule
  split
  · rename_i i isImport
    split
    · rename_i interpolated
      split
      · rename_i deferred
        refine .single (by simp [Importer.defer]) (.single fun j sameImport => .inr ?_)
        cases isImport.symm.trans sameImport
        exact ⟨deferred, interpolated, _, List.mem_append_right _ List.mem_cons_self, rfl, rfl⟩
      · exact .error _
    · cases evaluated : x.pathOf i with
      | error => exact .error _
      | ok found =>
        obtain ⟨path, text⟩ := found
        change x.Leaves position m (x.contributionOf opened i text m >>= fun found =>
          x.placeOf inner opened position e i path found.1 found.2)
        cases opening : x.contributionOf opened i text m with
        | error => exact .error _
        | ok found => exact placeOf_leaves leaves e evaluated opening
  · rename_i other
    exact .single (List.Subset.refl _) (.single fun i isImport => absurd isImport (other i))

theorem ofRules_leaves (opened position : Nat) (es : List Entry) (m : Importer) :
    x.Leaves position m (x.ofRules inner opened position es m) := by
  induction es generalizing position m with
  | nil =>
    intro final m' result
    cases result
    exact ⟨List.Subset.refl _, fun n e i at_ => by simp at at_⟩
  | cons e es ih =>
    have first := ofRule_leaves leaves opened position e m
    cases expanded : x.ofRule inner opened position e m with
    | error obstacle =>
      rw [ofRules, expanded]
      exact .error obstacle
    | ok result =>
      obtain ⟨front, m₁⟩ := result
      rw [ofRules_cons expanded]
      have second := ih (position + front.length) m₁
      cases rest : x.ofRules inner opened (position + front.length) es m₁ with
      | error obstacle => exact .error obstacle
      | ok result =>
        obtain ⟨back, m₂⟩ := result
        obtain ⟨kept, remaining⟩ := first front m₁ expanded
        obtain ⟨keptToo, remainingToo⟩ := second back m₂ rest
        intro final m' result
        cases result
        exact ⟨List.Subset.trans kept keptToo, remaining.append keptToo remainingToo⟩

end Expansion

theorem within_leaves (x : RecursiveExpansion) (levels opened position : Nat) (es : List Entry)
    (m : Importer) : x.Leaves position m (x.within levels opened position es m) := by
  induction levels generalizing opened position es m with
  | zero => exact .error _
  | succ levels ih => exact ofRules_leaves ih opened position es m

end RecursiveExpansion

/-- If no path with variables is met, or if such imports are queued, the expansion in place gives a
    frame the rules that the recursion says, with their nestings, and the importer too ends as in
    the recursion. The imports that remain stay in the output or wait in the queue. -/
theorem in_place_expansion_is_recursive (setting : Setting) (s s' : Evaluation) (env : Environment)
    (id : FrameId) (defer : Bool)
    (run : expandImports id env defer setting s = (.ok (), s')) :
    let x : RecursiveExpansion := ⟨setting, s, env, defer, (s.frames.get id).base⟩
    let expanded := x.within (setting.options.maxImportDepth + 1) s.importer.openImports 0
      (s.frames.get id).entries s.importer
    (defer = true ∨ ∀ i, expanded ≠ .error (.interpolated i)) →
    ∃ m, expanded = .ok ((s'.frames.get id).entries, m) ∧
      s'.importer = { m with
        baseDepth := s.importer.baseDepth, openImports := s.importer.openImports } ∧
      ∀ n e i, (s'.frames.get id).entries[n]? = some e → e.rule = .fileImport i →
        isPassThrough i.options i.path.reference = true ∨
          defer = true ∧ i.isInterpolated = true ∧
            ∃ d ∈ s'.importer.deferred, d.location = n ∧ d.scope = env := by
  intro x expanded unblocked
  have agrees := (x.expandImports_agrees id rfl).result run
  obtain ⟨immediate, i, blocked⟩ | ⟨m, result, importer⟩ := agrees
  · exact absurd blocked (unblocked.resolve_left (by simpa using immediate) i)
  · have remaining := (x.within_leaves _ _ 0 _ _ _ m result).2
    refine ⟨m, result, importer, fun n e i at_ isImport => ?_⟩
    rw [importer]
    simpa using remaining n e i at_ isImport

/-- Rules at nesting 3: a file with another one nested in it, the same file again, a file in a media
    block, a plain import, and an import that waits for a variable. -/
def importingFrame : Evaluation :=
  { frames := ⟨#[Frame.ofBlock (.written 0 [])
      [.declaration ⟨"a", .keyword "k", false, Span.none⟩,
        .fileImport ⟨.keyword "f", {}, none, Span.none⟩,
        .fileImport ⟨.keyword "f", {}, none, Span.none⟩,
        .fileImport ⟨.keyword "h", {}, some (.keyword "print"), Span.none⟩,
        .fileImport ⟨.keyword "p.css", {}, none, Span.none⟩,
        .fileImport ⟨.variable "v", {}, none, Span.none⟩] 3]⟩ }

def importingFrame.files : Setting :=
  { loader := ((({} : Loader).insert ⟨"f.less"⟩ "@import 'g';b:c;").insert ⟨"g.less"⟩ "d:e;").insert
      ⟨"h.less"⟩ "@import 'g';" }

def importingFrame.run : Except Failure Unit × Evaluation :=
  expandImports 0 { frames := [0] } true importingFrame.files importingFrame

theorem importingFrame.run_nestings :
    importingFrame.run.1.toOption = some () ∧
      (importingFrame.run.2.frames.get 0).entries.map (·.nesting) = [3, 5, 4, 4, 3, 3] := by
  decide +kernel

theorem importingFrame_is_expanded_by_recursion :
    ∃ s' m, importingFrame.run = (.ok (), s') ∧
      (s'.frames.get 0).entries.map (·.nesting) = [3, 5, 4, 4, 3, 3] ∧
      (RecursiveExpansion.mk importingFrame.files importingFrame { frames := [0] } true 3).within 33
        0 0 (importingFrame.frames.get 0).entries {} = .ok ((s'.frames.get 0).entries, m) := by
  obtain ⟨succeeds, nestings⟩ := importingFrame.run_nestings
  rcases run : importingFrame.run with ⟨f | ⟨⟩, s'⟩
  · simp [run, Except.toOption] at succeeds
  · obtain ⟨m, recursive, -⟩ := in_place_expansion_is_recursive importingFrame.files importingFrame
      s' { frames := [0] } 0 true run (.inl rfl)
    rw [run] at nestings
    exact ⟨s', m, rfl, nestings, recursive⟩

end StyleResolution
