import StyleResolution.Proofs.Evaluation.Causes
import StyleResolution.Proofs.Import.Splicing
import StyleResolution.Proofs.Scope.Names

/-! # What replaces an import

An import that can be opened is replaced by a plain import, by nothing, or by the rules of a file
that is in the cache from then on. If it cannot be opened, the frames keep their rules.

The imports in a frame are replaced one after the other, and those of a file before what stands
behind it. What may be said of a whole range of rules follows from what may be said of a single rule
(`ImportExpansion`).
-/

namespace StyleResolution

/-- What opening an import with a text may answer, where imports are nested so deep. -/
inductive Opened.From (setting : Setting) (i : Import) (text : String) (nesting : Nat)
    (cache : List (CanonicalPath × LoadedFile)) : Opened → Prop where
  | plain (kept : isPassThrough i.options text = true) : From setting i text nesting cache .passThrough
  | nothing : From setting i text nesting cache .skipped
  | file {path : CanonicalPath} {loaded : LoadedFile} (cached : (path, loaded) ∈ cache)
      (within : nesting + 1 ≤ setting.options.maxImportDepth) :
      From setting i text nesting cache (.file path loaded)

theorem Opened.From.cached (h : From setting i text nesting cache (.file path loaded)) :
    (path, loaded) ∈ cache := by
  cases h
  assumption

theorem Opened.From.kept (h : From setting i text nesting cache .passThrough) :
    isPassThrough i.options text = true := by
  cases h
  assumption

/-- The rules by which the import `i` at a site may be replaced in a state. The nesting is that of
    the import. -/
inductive Contributes (setting : Setting) (s : Evaluation) (i : Import) (site : Site)
    (nesting : Nat) : Eval.Replacement → List Entry → Prop where
  | plain {path : Value} {text : String}
      (evaluated : ∃ env t t', Eval.importPath env i setting t = (.ok (path, text), t'))
      (kept : isPassThrough i.options text = true) :
      Contributes setting s i site nesting (.settled 1)
        [⟨⟨.fileImport { i with path }, site⟩, nesting⟩]
  | nothing : Contributes setting s i site nesting (.settled 0) []
  | file {path : CanonicalPath} {loaded : LoadedFile}
      (cached : (path, loaded) ∈ s.importer.cache)
      (within : s.importer.nesting + 1 ≤ setting.options.maxImportDepth) :
      Contributes setting s i site nesting
        (.opened (Eval.contribution i loaded).length)
        ((Eval.contribution i loaded).map fun p => ⟨p, s.importer.nesting + 1⟩)

namespace Evaluation

theorem nesting_eq_of_scopedPart_eq {s s' : Evaluation} (same : s'.scopedPart = s.scopedPart) :
    s'.importer.nesting = s.importer.nesting := by
  simp only [scopedPart, Scoped.mk.injEq] at same
  simp only [Importer.nesting, same]

end Evaluation

namespace Eval

variable {setting : Setting} {s : Evaluation} {id : FrameId}

theorem loadFile_ends (path : CanonicalPath) : Yields setting s (loadFile path)
    fun loaded s' => (path, loaded) ∈ s'.importer.cache := by
  unfold loadFile
  refine .ofState ?_
  split
  · rename_i loaded found
    obtain ⟨before, after, cache, -⟩ := List.lookup_eq_some_iff.mp found
    exact Ends.change (Ends.pure (by simp [cache]))
  · refine .change (.ofSetting ?_)
    split
    · exact .failWith trivial
    · refine .ofState (.change (.bind_of_run ?_ fun _ _ _ => trivial))
      intro sheet t _
      exact .change (.pure List.mem_cons_self)

theorem openImport_ends (i : Import) (text : String) : Yields setting s (openImport i text)
    fun opened s' => opened.From setting i text s.importer.nesting s'.importer.cache := by
  unfold openImport
  split
  · rename_i kept
    exact .pure (.plain kept)
  · refine .ofSetting (.ofState ?_)
    split
    · exact .failWith trivial
    · rename_i within
      refine .ofState (Yields.bind (.any _) fun answer t _ => ?_)
      split
      · unfold openFile
        refine .ofSetting (.ofState ?_)
        split
        · exact .change (.pure .nothing)
        · refine .change (Yields.bind (loadFile_ends _) ?_)
          intro loaded t' cached
          exact .pure (.file cached (Nat.le_of_not_lt within))
      · split
        · exact .change (.pure .nothing)
        · exact .failWith trivial
      · exact .failWith trivial

theorem importPath_ends (env : Environment) (i : Import) : Ends setting s (importPath env i)
    (fun _ s' => Loads s s')
    (fun f s' => Loads s s' ∧ (f.isUndefinedVariable = true → i.isInterpolated = true)) := by
  have loads := (importPath_loads env i).ends setting s
  cases interpolated : i.isInterpolated with
  | true => exact loads.mono (fun _ _ h => h) fun _ _ h => ⟨h, fun _ => rfl⟩
  | false =>
    have never := (importPath_resolved env interpolated).ends setting s
    exact (loads.and never).mono (fun _ _ h => h.1) fun _ _ h => h.2.elim

theorem not_isUndefinedVariable_of_opening {f : Failure} (h : OfOpening f.cause) :
    f.isUndefinedVariable = false := by
  unfold Failure.isUndefinedVariable
  cases cause : f.cause <;> simp_all [OfOpening]

theorem openImport_located (i : Import) (text : String) (t : Evaluation) :
    Ends setting t (locatedAt i.span (noteOpening i text (openImport i text)))
      (fun opened t' => Loads t t' ∧
        opened.From setting i text t.importer.nesting t'.importer.cache)
      (fun f t' => Loads t t' ∧ f.isUndefinedVariable = false) := by
  have loads := ((noteOpening_loads i text).locatedAt i.span).ends setting t
  have causes := (((openImport_failsOnly i text).noteOpening i text).locatedAt i.span).ends setting t
  have opened : Yields setting t (locatedAt i.span (noteOpening i text (openImport i text)))
      fun opened t' => opened.From setting i text t.importer.nesting t'.importer.cache :=
    .mapFailure (.noteOpening (openImport_ends i text))
  exact ((loads.and causes).and opened).mono (fun _ _ h => ⟨h.1.1, h.2⟩)
    fun _ _ h => ⟨h.1.1, not_isUndefinedVariable_of_opening h.1.2⟩

/-- Replacing an import either succeeds, and the rules it contributes stand in its place, or fails
    before any frame is changed. Only an import with variables fails for an undefined one. -/
theorem replaceImport_ends (inside : id < s.frames.size) (env : Environment)
    (position : Nat) (site : Site) (i : Import) :
    Ends setting s (replaceImport id env position site i)
      (fun r s' => ∃ new,
        Contributes setting s' i site ((s.frames.get id).nestingAt position) r new ∧
        (s'.frames.get id).entries = (s.frames.get id).entries.take position ++ new ++
          (s.frames.get id).entries.drop (position + 1) ∧
        s'.importer.deferred = s.importer.deferred ∧ (s'.frames.get id).Fresh)
      (fun f s' => Loads s s' ∧ (f.isUndefinedVariable = true → i.isInterpolated = true)) := by
  unfold replaceImport
  refine .bind_of_run ?_ fun _ _ run => (importPath_ends env i).failure run
  rintro ⟨path, text⟩ t run
  have found : Loads s t := (importPath_ends env i).result run
  refine .bind (openImport_located i text t) ?_ ?_
  · rintro opened t' ⟨opens, answer⟩
    have loads := found.trans opens
    have inside' : id < t'.frames.size := loads.size ▸ inside
    have entries := loads.entries id
    have nestingAt : (t'.frames.get id).nestingAt position = (s.frames.get id).nestingAt position := by
      simp only [Frame.nestingAt_eq, entries, (loads.frame id).base]
    cases answer with
    | plain kept =>
      refine .change (.pure ⟨_, .plain ⟨env, s, t, run⟩ kept, ?_, loads.deferred, ?_⟩)
      · rw [Frames.get_modify_self inside', ← entries, ← nestingAt]
        exact Frame.entries_splice ..
      · rw [Frames.get_modify_self inside']
        rfl
    | nothing =>
      refine .change (.pure ⟨_, .nothing, ?_, loads.deferred, ?_⟩)
      · rw [Frames.get_modify_self inside', ← entries]
        exact Frame.entries_splice ..
      · rw [Frames.get_modify_self inside']
        rfl
    | file cached within =>
      have nesting := Evaluation.nesting_eq_of_scopedPart_eq opens.restored
      refine .ofState (.change (.change (.pure
        ⟨_, .file cached (nesting.symm ▸ within), ?_, loads.deferred, ?_⟩)))
      · rw [Frames.get_modify_self inside', ← entries]
        simp
      · rw [Frames.get_modify_self inside']
        rfl
  · rintro f t' ⟨loads, defined⟩
    exact ⟨found.trans loads, by simp [defined]⟩

end Eval

/-! ## What replaces a range of rules -/

theorem splice_eq_append (before new after : List α) (a : α) :
    (before ++ a :: after).take before.length ++ new ++
      (before ++ a :: after).drop (before.length + 1) = before ++ new ++ after := by
  simp [List.drop_append]

/-- What may be said of the rules that stand in the place of others when the imports among these
    are replaced, given the files in the cache. -/
structure ImportExpansion (setting : Setting)
    (Q : List (CanonicalPath × LoadedFile) → List Entry → List Entry → Prop) : Prop where
  nil : ∀ {cache}, Q cache [] []
  append : ∀ {cache range result range' result'}, Q cache range result →
    Q cache range' result' → Q cache (range ++ range') (result ++ result')
  mono : ∀ {cache more range result}, cache <:+ more → Q cache range result → Q more range result
  rule : ∀ {cache} {e : Entry}, Compiler.isImport e.rule = false → Q cache [e] [e]
  settled : ∀ {s i site n nesting count new}, Contributes setting s i site n (.settled count) new →
    Q s.importer.cache [⟨⟨.fileImport i, site⟩, nesting⟩] new
  file : ∀ {cache i site n nesting path loaded result}, (path, loaded) ∈ cache →
    Q cache ((Eval.contribution i loaded).map (⟨·, n⟩)) result →
    Q cache [⟨⟨.fileImport i, site⟩, nesting⟩] result

/-- The frame holds the rules of a range, with others before and behind them. -/
structure Frames.Shows (store : Frames) (id : FrameId) (before range after : List Entry) :
    Prop where
  inside : id < store.size
  entries : (store.get id).entries = before ++ range ++ after

/-- No file leaves the cache, and the names of the frame stay those of its rules. -/
def Evaluation.Goes (id : FrameId) (s s' : Evaluation) : Prop :=
  s.importer.cache <:+ s'.importer.cache ∧ ((s.frames.get id).Fresh → (s'.frames.get id).Fresh)

theorem Evaluation.Goes.trans {s t u : Evaluation} {id : FrameId} (first : s.Goes id t)
    (second : t.Goes id u) :
    s.Goes id u :=
  ⟨first.1.trans second.1, second.2 ∘ first.2⟩

namespace Eval

variable {setting : Setting} {s : Evaluation} {id : FrameId}
  {Q : List (CanonicalPath × LoadedFile) → List Entry → List Entry → Prop}

/-- The expansion of a range replaces it as `Q` says and leaves what stands around it. It answers
    with the position behind the range. -/
def Replaces (setting : Setting)
    (Q : List (CanonicalPath × LoadedFile) → List Entry → List Entry → Prop) (id : FrameId)
    (expandAt : Nat → Nat → Eval Nat) : Prop :=
  ∀ (s : Evaluation) (before range after : List Entry), s.frames.Shows id before range after →
    Yields setting s (expandAt before.length range.length) fun stop s' =>
      ∃ result, s'.frames.Shows id before result after ∧ stop = before.length + result.length ∧
        s.Goes id s' ∧ Q s'.importer.cache range result

theorem Replaces.whileImporting (replaces : Replaces setting Q id expandAt) :
    Replaces setting Q id fun position count => whileImporting (expandAt position count) :=
  fun _ before range after shown => .between (replaces _ before range after shown)

section

variable (expansion : ImportExpansion setting Q) {expandAt : Nat → Nat → Eval Nat}
  (replaces : Replaces setting Q id expandAt)

include expansion replaces

theorem spliceImport_replaces
    (shown : s.frames.Shows id before [⟨⟨.fileImport i, site⟩, n⟩] after) (env : Environment) :
    Yields setting s (spliceImport expandAt id env before.length site i) fun count s' =>
      ∃ result, s'.frames.Shows id before result after ∧ count = result.length ∧
        s.Goes id s' ∧ Q s'.importer.cache [⟨⟨.fileImport i, site⟩, n⟩] result := by
  have ends := @replaceImport_ends setting s id shown.inside env before.length site i
  have moves := (replaceImport_splices id env before.length site i).ends setting s
  refine Ends.bind (ends.and moves) ?_ fun _ _ _ => trivial
  rintro r t ⟨⟨new, contributes, entries, -, fresh⟩, moved⟩
  rw [shown.entries, ← List.append_cons, splice_eq_append] at entries
  have shown : t.frames.Shows id before new after := ⟨moved.size ▸ shown.inside, entries⟩
  have goes : s.Goes id t := ⟨moved.cache, fun _ => fresh⟩
  cases contributes with
  | plain evaluated kept =>
    exact .pure ⟨_, shown, rfl, goes, expansion.settled (.plain evaluated kept)⟩
  | nothing => exact .pure ⟨_, shown, rfl, goes, expansion.settled (n := n) .nothing⟩
  | @file path loaded cached within =>
    have expands := replaces.whileImporting t before _ after shown
    rw [List.length_map] at expands
    refine Yields.bind expands ?_
    rintro stop u ⟨result, shown, rfl, goes', holds⟩
    exact .pure ⟨result, shown, by omega, goes.trans goes',
      expansion.file (goes'.1.subset cached) holds⟩

theorem expandRange_replaces (env : Environment) :
    Replaces setting Q id (expandRange expandAt id env false) := by
  intro s before range after shown
  induction range generalizing before s with
  | nil => exact .pure ⟨[], shown, rfl, ⟨List.suffix_rfl, fun fresh => fresh⟩, expansion.nil⟩
  | cons e range ih =>
    have found : (s.frames.get id).entryAt before.length = some e := by
      simp [Frame.entryAt_eq, shown.entries]
    -- Whatever stands in the place of the first rule, the rest of the range is expanded next.
    have next : ∀ {t : Evaluation} {first : List Entry},
        t.frames.Shows id before first (range ++ after) → s.Goes id t →
        Q t.importer.cache [e] first →
        Yields setting t
          (expandRange expandAt id env false (before.length + first.length) range.length)
          fun stop s' => ∃ result, s'.frames.Shows id before result after ∧
            stop = before.length + result.length ∧ s.Goes id s' ∧
            Q s'.importer.cache (e :: range) result := by
      intro t first shown goes replaced
      rw [← List.length_append]
      refine (ih t (before ++ first) ⟨shown.inside, by simpa using shown.entries⟩).imp ?_
      rintro stop u ⟨result, shown, rfl, goes', others⟩
      exact ⟨first ++ result, ⟨shown.inside, by simpa using shown.entries⟩, by simp; omega,
        goes.trans goes', expansion.append (expansion.mono goes'.1 replaced) others⟩
    have first : s.frames.Shows id before [e] (range ++ after) :=
      ⟨shown.inside, by simpa using shown.entries⟩
    refine .ofState ?_
    rw [found]
    split
    · rename_i i site n same
      obtain rfl : e = ⟨⟨.fileImport i, site⟩, n⟩ := Option.some.inj same
      rw [if_neg (by simp)]
      refine Yields.bind (spliceImport_replaces expansion replaces first env) ?_
      rintro count t ⟨result, shown, rfl, goes, replaced⟩
      exact next shown goes replaced
    · rename_i other
      have isRule : Compiler.isImport e.rule = false := by
        obtain ⟨⟨rule, site⟩, n⟩ := e
        cases rule with
        | fileImport i => exact absurd rfl (other i site n)
        | _ => rfl
      exact next first ⟨List.suffix_rfl, fun fresh => fresh⟩ (expansion.rule isRule)

end

theorem expandImports_replaces (expansion : ImportExpansion setting Q) (inside : id < s.frames.size)
    (env : Environment) : Yields setting s (expandImports id env false) fun _ s' =>
      s.Goes id s' ∧
        Q s'.importer.cache (s.frames.get id).entries (s'.frames.get id).entries := by
  have within : ∀ levels, Replaces setting Q id (expandWithin id env false levels) := by
    intro levels
    induction levels with
    | zero => exact fun _ _ _ _ _ => .failWith trivial
    | succ levels ih => exact expandRange_replaces expansion ih env
  refine .ofState (.ofSetting (.ofState (.between ?_)))
  rw [← Frame.length_entries]
  refine Yields.bind (within _ { s with importer := { s.importer with
    baseDepth := (s.frames.get id).base } } [] _ [] ⟨inside, (List.append_nil _).symm⟩) ?_
  rintro stop t ⟨result, shown, -, goes, holds⟩
  have all : (t.frames.get id).entries = result := by simpa using shown.entries
  exact .pure ⟨goes, all ▸ holds⟩

end Eval

end StyleResolution
