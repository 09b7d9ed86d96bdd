import StyleResolution.Proofs.Import.Search
import StyleResolution.Proofs.Sheet.Origin

/-! # The tables of the importer

The importer numbers the files it loads, keeps their rules and remembers where references lead. The
three tables agree: a file gets a number when it is loaded, it is loaded once, and its rules carry
positions in the file of that number.
-/

namespace StyleResolution

def Sources.Reads (loader : Sources) (path : CanonicalPath) (file : Nat) (rules : List Rule) : Prop :=
  ∃ source sheet, loader.load path = .ok source ∧
    Stylesheet.read source file (some path.toPath) = .ok sheet ∧ sheet.rules = rules

theorem Sources.Reads.allIn {loader : Sources} (reads : loader.Reads path file rules) :
    Rule.AllIn file rules := by
  obtain ⟨source, sheet, -, read, rfl⟩ := reads
  exact Stylesheet.allIn_of_read read

namespace Importer

variable {setting : Setting} {i : Importer}

/-- Files are numbered, read and cached in one go, and no file twice. -/
structure Consistent (setting : Setting) (i : Importer) : Prop where
  remembers : i.Remembers setting
  main : 0 < i.files.length
  files : i.files.tail = i.cache.reverse.map fun c => some c.1
  once : (i.cache.map Prod.fst).Nodup
  read : ∀ k c, i.cache.reverse[k]? = some c →
    c.2.file = k + 1 ∧ setting.loader.Reads c.1 (k + 1) c.2.rules

namespace Consistent

theorem empty (setting : Setting) : Consistent setting {} where
  remembers := by simp [Remembers]
  main := by simp
  files := rfl
  once := by simp
  read := by simp

section

variable (consistent : i.Consistent setting)

include consistent

theorem length_files : i.files.length = i.cache.length + 1 := by
  have tails := congrArg List.length consistent.files
  simp only [List.length_tail, List.length_map, List.length_reverse] at tails
  have main := consistent.main
  omega

theorem filePath_succ (k : Nat) :
    i.filePath (k + 1) = (i.cache.reverse[k]?).map Prod.fst := by
  unfold filePath
  rw [← List.getElem?_tail, consistent.files, List.getElem?_map]
  cases i.cache.reverse[k]? <;> rfl

theorem filePath_of_mem (cached : c ∈ i.cache) :
    i.filePath c.2.file = some c.1 := by
  obtain ⟨k, found⟩ := List.getElem?_of_mem (List.mem_reverse.mpr cached)
  rw [(consistent.read k c found).1, consistent.filePath_succ, found]
  rfl

theorem reads_of_mem (cached : c ∈ i.cache) :
    setting.loader.Reads c.1 c.2.file c.2.rules := by
  obtain ⟨k, found⟩ := List.getElem?_of_mem (List.mem_reverse.mpr cached)
  obtain ⟨number, reads⟩ := consistent.read k c found
  rwa [number]

theorem lookup_of_mem (cached : c ∈ i.cache) :
    i.cache.lookup c.1 = some c.2 := by
  obtain ⟨newer, older, split⟩ := List.append_of_mem cached
  have once := consistent.once
  refine List.lookup_eq_some_iff.mpr ⟨newer, older, split, fun other member => ?_⟩
  rw [split, List.map_append, List.map_cons] at once
  have apart := List.nodup_append.mp once
  have different := apart.2.2 other.1 (List.mem_map_of_mem member) c.1 List.mem_cons_self
  simpa using different.symm

theorem nested (baseDepth openImports : Nat) (deferred : List DeferredImport) :
    Consistent setting { i with baseDepth, openImports, deferred } :=
  { consistent with }

theorem setMain (path : CanonicalPath) : (i.setMain path).Consistent setting :=
  { consistent with main := by simp [Importer.setMain] }

theorem imports (path : CanonicalPath) :
    Consistent setting { i with imported := path :: i.imported } :=
  { consistent with }

theorem resolves {resolved : List Resolved} (remembers : Remembers setting { i with resolved }) :
    Consistent setting { i with resolved } :=
  { consistent with remembers }

theorem loads (absent : i.cache.lookup path = none)
    (reads : setting.loader.Reads path i.files.length rules) : Consistent setting { i with
      files := i.files ++ [some path], cache := (path, ⟨i.files.length, rules⟩) :: i.cache } where
  remembers := consistent.remembers
  main := by simp
  files := by
    have nonempty : i.files ≠ [] := List.length_pos_iff.mp consistent.main
    simp [List.tail_append_of_ne_nil nonempty, consistent.files]
  once := by
    have new : path ∉ i.cache.map Prod.fst := by
      intro member
      obtain ⟨c, cached, rfl⟩ := List.mem_map.mp member
      exact absurd (List.lookup_eq_none_iff.mp absent c cached) (by simp)
    exact List.nodup_cons.mpr ⟨new, consistent.once⟩
  read k c found := by
    rw [List.reverse_cons, List.getElem?_append, List.length_reverse] at found
    split at found
    · exact consistent.read k c found
    · have last : k = i.cache.length := by
        have inside := (List.getElem?_eq_some_iff.mp found).1
        rw [List.length_singleton] at inside
        omega
      rw [last, Nat.sub_self] at found
      cases found
      rw [consistent.length_files] at reads ⊢
      exact ⟨by rw [last], by rwa [last]⟩

end

end Consistent

end Importer

/-! ## The log of loads -/

/-- The file that was loaded. -/
def Event.missed? : Event → Option CanonicalPath
  | .cacheMiss path => some path
  | _ => none

/-- The files that were loaded, oldest first. -/
def Evaluation.loads (s : Evaluation) : List CanonicalPath :=
  s.events.toList.filterMap Event.missed?

/-- Between two states, the files that were loaded are those that were cached, and no number was
    given up. -/
structure Logged (s s' : Evaluation) : Prop where
  grown : ∃ new, s'.importer.cache = new ++ s.importer.cache ∧
    s'.loads = s.loads ++ (new.map Prod.fst).reverse
  files : s.importer.files <+: s'.importer.files

theorem Logged.of_eq (cache : s'.importer.cache = s.importer.cache) (loads : s'.loads = s.loads)
    (files : s'.importer.files = s.importer.files) : Logged s s' where
  grown := ⟨[], by simp [cache], by simp [loads]⟩
  files := by simp [files]

theorem Logged.filePath_zero (logged : Logged s s') (main : 0 < s.importer.files.length) :
    s'.importer.filePath 0 = s.importer.filePath 0 := by
  obtain ⟨more, files⟩ := logged.files
  simp only [Importer.filePath, ← files, List.getElem?_append_left main]

theorem Evaluation.loads_emit (s : Evaluation) (e : Event) :
    Evaluation.loads { s with events := s.events.push e } = s.loads ++ e.missed?.toList := by
  cases missed : e.missed? <;> simp [loads, missed]

/-! ## What became of an import -/

/-- A file could not be loaded. -/
def Failure.isLoading (f : Failure) : Bool :=
  match f.cause with
  | .inputOutput _ | .invalidSyntax _ => true
  | _ => false

/-- The outcome of opening an import, given where its reference leads: a file is opened or skipped
    as found, a missing file fails or is optional. -/
def Importer.Agrees (i : Importer) (node : Import) (text : String)
    (answer : Except Cause CanonicalPath) : Except Failure Opened → Prop
  | .ok .passThrough => isPassThrough node.options text = true
  | .ok .skipped => (∃ path ∈ i.imported, answer = .ok path) ∨
      (node.options.optional = true ∧ ∃ cause, answer = .error cause)
  | .ok (.file path _) => answer = .ok path
  | .error f => (∃ path limit, f.cause = .importTooDeep path limit) ∨ answer = .error f.cause ∨
      (f.isLoading = true ∧ ∃ path, answer = .ok path)

namespace Eval

variable {setting : Setting} {s : Evaluation}

theorem loadFile_consistent (consistent : s.importer.Consistent setting) (path : CanonicalPath) :
    Ends setting s (loadFile path)
      (fun loaded s' => s'.importer.Consistent setting ∧ Logged s s' ∧
        (path, loaded) ∈ s'.importer.cache)
      (fun f _ => f.isLoading = true) := by
  unfold loadFile
  apply Ends.ofState
  split
  · rename_i loaded found
    obtain ⟨newer, older, cache, -⟩ := List.lookup_eq_some_iff.mp found
    refine Ends.change (Ends.pure ⟨consistent, .of_eq rfl ?_ rfl, by simp [cache]⟩)
    simp [s.loads_emit, Event.missed?]
  · rename_i absent
    refine .change (.ofSetting ?_)
    cases source : setting.loader.load path with
    | error message => exact .failWith rfl
    | ok text =>
      refine .ofState (.change ?_)
      dsimp only
      cases parsed : Stylesheet.read text s.importer.files.length (some path.toPath) with
      | error f =>
        obtain ⟨place, -, rfl⟩ := Stylesheet.read_error parsed
        exact .fail rfl
      | ok sheet =>
        refine .bind_of_ok rfl (.change (.pure ⟨?_, ?_, List.mem_cons_self⟩))
        · exact consistent.loads absent ⟨text, sheet, source, parsed, rfl⟩
        · refine ⟨⟨[(path, ⟨s.importer.files.length, sheet.rules⟩)], rfl, ?_⟩, List.prefix_append ..⟩
          exact s.loads_emit (.cacheMiss path)

theorem openFile_consistent (consistent : s.importer.Consistent setting) (i : Import)
    (path : CanonicalPath) :
    Ends setting s (openFile i path)
      (fun opened s' => s'.importer.Consistent setting ∧ Logged s s' ∧
        (opened = .skipped ∧ path ∈ s.importer.imported ∨
          ∃ loaded, opened = .file path loaded ∧ (path, loaded) ∈ s'.importer.cache))
      (fun f _ => f.isLoading = true) := by
  refine .ofSetting (.ofState ?_)
  split
  · rename_i again
    simp only [Bool.and_eq_true, List.contains_iff_mem] at again
    refine .change (.pure ⟨consistent, .of_eq rfl ?_ rfl, .inl ⟨rfl, again.2⟩⟩)
    simp [s.loads_emit, Event.missed?]
  · refine .change (.seq (loadFile_consistent (consistent.imports path) path) ?_)
    intro loaded t loads
    exact .pure ⟨loads.1, ⟨loads.2.1.grown, loads.2.1.files⟩, .inr ⟨loaded, rfl, loads.2.2⟩⟩

/-- Unless a file cannot be loaded, opening an import keeps the tables consistent. It does what the
    search from the directory of the import's file says. -/
theorem openImport_consistent (lexical : setting.loader.Lexical)
    (consistent : s.importer.Consistent setting) (i : Import) (text : String) :
    Ends setting s (openImport i text)
      (fun opened s' => (s'.importer.Consistent setting ∧ Logged s s') ∧
        s.importer.Agrees i text (setting.answer text (s.importer.directory i.span.file))
          (.ok opened) ∧
        ∀ path loaded, opened = .file path loaded → (path, loaded) ∈ s'.importer.cache)
      (fun f s' => (f.isLoading = false → s'.importer.Consistent setting ∧ Logged s s') ∧
        s.importer.Agrees i text (setting.answer text (s.importer.directory i.span.file))
          (.error f)) := by
  unfold openImport
  split
  · rename_i plain
    exact Ends.pure ⟨⟨consistent, .of_eq rfl rfl rfl⟩, plain, by simp⟩
  · refine .ofSetting (.ofState ?_)
    split
    · exact .failWith ⟨fun _ => ⟨consistent, .of_eq rfl rfl rfl⟩, .inl ⟨_, _, rfl⟩⟩
    · apply Ends.ofState
      refine Ends.bind (resolveReference_searches lexical consistent.remembers _ _) ?_ nofun
      rintro found t ⟨answer, resolved, rfl, remembers⟩
      have consistent := consistent.resolves remembers
      rw [← answer]
      split
      · rename_i path
        refine .mono (openFile_consistent consistent i path) ?_ ?_
        · rintro opened u ⟨consistent, logged, skipped | ⟨loaded, rfl, cached⟩⟩
          · obtain ⟨rfl, before⟩ := skipped
            exact ⟨⟨consistent, logged.grown, logged.files⟩, .inl ⟨path, before, rfl⟩, by simp⟩
          · exact ⟨⟨consistent, logged.grown, logged.files⟩, rfl, by simpa using cached⟩
        · intro f u loading
          exact ⟨by simp [loading], .inr (.inr ⟨loading, path, rfl⟩)⟩
      · rename_i reference searched
        split
        · rename_i optional
          refine .change (.pure ⟨⟨consistent, .of_eq rfl ?_ rfl⟩,
            .inr ⟨optional, _, rfl⟩, by simp⟩)
          exact (Evaluation.loads_emit _ _).trans (List.append_nil _)
        · exact .failWith ⟨fun _ => ⟨consistent, .of_eq rfl rfl rfl⟩, .inr (.inl rfl)⟩
      · exact .failWith ⟨fun _ => ⟨consistent, .of_eq rfl rfl rfl⟩, .inr (.inl rfl)⟩

end Eval

end StyleResolution
