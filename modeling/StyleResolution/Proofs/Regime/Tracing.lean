import StyleResolution.Proofs.Import.Provenance

/-! # Positions can be traced

Whatever is in scope in a compilation stands in the sheet or in a file that was read, or it is a
definition that was made at the position of such a rule. So its position can be traced, and so can
the positions of failures.
-/

namespace StyleResolution

/-- The position is that of a rule of the sheet, or else that of a rule or of the syntax error of
    the file that is registered under the number in the position. -/
inductive Traced (setting : Setting) (sheet : Stylesheet) (files : List (Option CanonicalPath))
    (span : Span) : Prop where
  | own {r : Rule} (member : r ∈ Rule.partsOf sheet.rules) (here : r.span = span)
  | imported {path : CanonicalPath} {source : String} {file : Stylesheet} {r : Rule}
      (registered : files[span.file]? = some (some path))
      (loads : setting.loader.load path = .ok source)
      (reads : Stylesheet.read source span.file (some path.toPath) = .ok file)
      (member : r ∈ Rule.partsOf file.rules) (here : r.span = span)
  | broken {path : CanonicalPath} {source : String} {f : Failure}
      (registered : files[span.file]? = some (some path))
      (loads : setting.loader.load path = .ok source)
      (fails : Stylesheet.read source span.file (some path.toPath) = .error f)
      (here : f.span = some span)

variable {setting : Setting} {sheet : Stylesheet} {files later : List (Option CanonicalPath)}

theorem registered_later {n : Nat} {path : Option CanonicalPath} (grows : files <+: later)
    (registered : files[n]? = some path) : later[n]? = some path := by
  obtain ⟨bound, -⟩ := List.getElem?_eq_some_iff.mp registered
  obtain ⟨new, rfl⟩ := grows
  rw [List.getElem?_append_left bound]
  exact registered

theorem Traced.mono {span : Span} (traced : Traced setting sheet files span)
    (grows : files <+: later) : Traced setting sheet later span := by
  cases traced with
  | own member here => exact .own member here
  | imported registered loads reads member here =>
    exact .imported (registered_later grows registered) loads reads member here
  | broken registered loads fails here =>
    exact .broken (registered_later grows registered) loads fails here

theorem file_of_read_eq_error (failed : Stylesheet.read source n path = .error f) :
    f.file = none ∧ ∀ span, f.span = some span → span.file = n := by
  obtain ⟨place, -, rfl⟩ := Stylesheet.read_error failed
  refine ⟨rfl, fun span isAt => ?_⟩
  cases isAt
  rfl

/-- The rules are those of the file that is registered under the path. -/
structure LoadedFile.ReadFrom (setting : Setting) (files : List (Option CanonicalPath))
    (path : CanonicalPath) (loaded : LoadedFile) : Prop where
  registered : files[loaded.file]? = some (some path)
  reads : ∃ source file, setting.loader.load path = .ok source ∧
    Stylesheet.read source loaded.file (some path.toPath) = .ok file ∧ loaded.rules = file.rules

theorem LoadedFile.ReadFrom.mono {path : CanonicalPath} {loaded : LoadedFile}
    (reads : loaded.ReadFrom setting files path) (grows : files <+: later) :
    loaded.ReadFrom setting later path :=
  { reads with registered := registered_later grows reads.registered }

theorem LoadedFile.ReadFrom.traced {loaded : LoadedFile}
    (from_ : loaded.ReadFrom setting files path) {r : Rule} (member : r ∈ Rule.partsOf loaded.rules) :
    Traced setting sheet files r.span := by
  obtain ⟨source, file, loads, reads, same⟩ := from_.reads
  rw [same] at member
  have here : r.span.file = loaded.file := Stylesheet.allIn_of_read reads r member
  rw [← here] at reads
  exact .imported (here ▸ from_.registered) loads reads member rfl

def Importer.AllRead (setting : Setting) (i : Importer) : Prop :=
  ∀ c ∈ i.cache, c.2.ReadFrom setting i.files c.1

/-- The failure names no file, and its position can be traced; except that a warning may be raised as
    an error before any position was put in force. -/
structure Failure.Cites (setting : Setting) (sheet : Stylesheet)
    (files : List (Option CanonicalPath)) (f : Failure) : Prop where
  file : f.file = none
  span : ∀ span, f.span = some span → Traced setting sheet files span ∨
    span = Span.none ∧ setting.options.warningsAsErrors = true ∧ ∃ message, f.cause = .warning message

namespace Failure.Cites

theorem of_cause {cause : Cause} : Failure.Cites setting sheet files { cause } :=
  ⟨rfl, by simp⟩

theorem of_span {cause : Cause} {span : Span} (traced : Traced setting sheet files span) :
    Failure.Cites setting sheet files { cause, span := some span } := by
  refine ⟨rfl, fun _ isAt => ?_⟩
  cases isAt
  exact .inl traced

theorem located {f : Failure} (cites : f.Cites setting sheet files) {span : Span}
    (traced : Traced setting sheet files span) : (f.located span).Cites setting sheet files := by
  refine ⟨cites.file, fun place isAt => ?_⟩
  unfold Failure.located at isAt
  cases before : f.span with
  | none =>
    simp only [before, Option.none_or, Option.some.injEq] at isAt
    rw [← isAt]
    exact .inl traced
  | some _ =>
    apply cites.span
    simpa only [before, Option.some_or] using isAt

end Failure.Cites

namespace Eval

variable {s : Evaluation}

theorem loadFile_traced (read : s.importer.AllRead setting) (path : CanonicalPath) :
    Ends setting s (loadFile path)
      (fun loaded s' => s'.importer.AllRead setting ∧
        loaded.ReadFrom setting s'.importer.files path)
      (fun f s' => f.Cites setting sheet s'.importer.files) := by
  refine .ofState ?_
  split
  · rename_i loaded found
    obtain ⟨newer, older, cache, -⟩ := List.lookup_eq_some_iff.mp found
    exact Ends.change (Ends.pure ⟨read, read (path, loaded) (by simp [cache])⟩)
  · refine .change (.ofSetting ?_)
    split
    · exact .failWith .of_cause
    · rename_i source loads
      refine .ofState (.change ?_)
      have registered : (s.importer.files ++ [some path])[s.importer.files.length]? =
          some (some path) := by
        simp
      cases reads : Stylesheet.read source s.importer.files.length (some path.toPath) with
      | error f =>
        obtain ⟨unnamed, here⟩ := file_of_read_eq_error reads
        refine .fail ⟨unnamed, fun span isAt => .inl ?_⟩
        rw [← here span isAt] at registered reads
        exact .broken registered loads reads isAt
      | ok file =>
        have own : LoadedFile.ReadFrom setting (s.importer.files ++ [some path]) path
            ⟨s.importer.files.length, file.rules⟩ :=
          ⟨registered, source, file, loads, reads, rfl⟩
        refine .bind_of_ok rfl (.change (.pure ⟨?_, own⟩))
        exact List.forall_mem_cons.mpr ⟨own, fun c cached =>
          (read c cached).mono (List.prefix_append _ _)⟩

theorem openImport_traced (sheet : Stylesheet) (read : s.importer.AllRead setting) (i : Import)
    (text : String) :
    Ends setting s (openImport i text)
      (fun opened s' => s'.importer.AllRead setting ∧
        ∀ path loaded, opened = .file path loaded →
          loaded.ReadFrom setting s'.importer.files path)
      (fun f s' => f.Cites setting sheet s'.importer.files) := by
  have resolves : ∀ reference dir, Ends setting s (resolveReference reference dir)
      (fun _ s' => s'.importer.AllRead setting) (fun _ _ => False) := by
    intro reference dir
    refine .ofState ?_
    split
    · exact .pure read
    · refine .ofSetting (.ofSetting ?_)
      dsimp only
      split
      · exact .pure read
      · split
        · exact .pure read
        · exact .change (.pure read)
  unfold openImport
  split
  · exact Ends.pure ⟨read, by simp⟩
  · refine .ofSetting (.ofState ?_)
    split
    · exact .failWith .of_cause
    · refine .ofState (.bind (resolves _ _) (fun found t read => ?_) nofun)
      split
      · refine .ofSetting (.ofState ?_)
        split
        · exact Ends.change (Ends.pure ⟨read, by simp⟩)
        · refine .change (.seq (loadFile_traced (by exact read) _)
            (fun loaded u opened => ?_))
          refine .pure ⟨opened.1, ?_⟩
          rintro _ _ ⟨⟩
          exact opened.2
      · split
        · exact Ends.change (Ends.pure ⟨read, by simp⟩)
        · exact .failWith .of_cause
      · exact .failWith .of_cause

theorem contribution_parts {i : Import} {loaded : LoadedFile} {p : Placed} {r : Rule}
    (member : p ∈ contribution i loaded) (inside : r ∈ p.rule.parts) :
    r ∈ Rule.partsOf loaded.rules ∨ r.span = i.span ∧ r.selectors? = none := by
  unfold contribution at member
  dsimp only at member
  split at member
  · cases List.mem_singleton.mp member
    simp only [Rule.parts, List.mem_cons] at inside
    rcases inside with rfl | within
    · exact .inr ⟨rfl, rfl⟩
    · exact .inl within
  · exact .inl (Rule.mem_partsOf.mpr ⟨_, Provenance.rule_mem_of_ofBlock member, inside⟩)

end Eval

/-- Everything in scope has a position that can be traced, and so have failures. -/
def Regime.traced (setting : Setting) (sheet : Stylesheet) : Regime setting where
  holds importer _ := importer.AllRead setting
  law _ := True
  rule importer p := ∀ r ∈ p.rule.parts, Traced setting sheet importer.files r.span
  known importer span := Traced setting sheet importer.files span
  fails placed f importer := f.Cites setting sheet importer.files ∧
    (placed = true → f.span = none → f.cause = .exhausted)
  lawful _ := trivial
  mono rule grows r inside := (rule r inside).mono grows.files
  block rule isBlock p member r inside :=
    rule r (Provenance.parts_of_mem_block isBlock (Provenance.rule_mem_of_ofBlock member) inside)
  definition site traced r inside := by
    cases List.mem_singleton.mp inside
    exact traced
  settled {_ node _} rule path r inside := by
    cases List.mem_singleton.mp inside
    exact rule (.fileImport node) (List.mem_singleton.mpr rfl)
  position rule := rule _ (Rule.mem_parts_self _)
  knownLater traced grows := traced.mono grows.files
  failsLater fails grows := by
    refine ⟨⟨fails.1.file, fun span isAt => ?_⟩, fails.2⟩
    exact (fails.1.span span isAt).imp_left fun traced => traced.mono grows.files
  unplaced _ := ⟨.of_cause, by simp⟩
  exhausted := ⟨.of_cause, fun _ _ => rfl⟩
  placed _ traced := ⟨.of_span traced, by simp⟩
  warning message strict := by
    refine ⟨⟨rfl, fun _ isAt => ?_⟩, by simp⟩
    cases isAt
    exact .inr ⟨rfl, strict, message, rfl⟩
  located fails traced := by
    refine ⟨fails.1.located traced, fun _ isAt => ?_⟩
    simp [Failure.located] at isAt
  inside fails := ⟨⟨fails.1.file, fails.1.span⟩, fails.2⟩
  loosen fails := ⟨fails.1, fun _ => fails.2 rfl⟩
  opens s _ i site text holds rule := by
    refine .mono ((Eval.openImport_traced (s := s) sheet holds i text).and
      ((Eval.openImport_grows i text).ends setting s)) (fun opened t ended => ?_)
      fun f t cites => ⟨trivial, cites.1, by simp⟩
    obtain ⟨⟨read, file⟩, -, -, grows⟩ := ended
    refine ⟨read, fun path loaded isFile p member r inside => ?_⟩
    cases Eval.contribution_parts member inside with
    | inl within => exact (file path loaded isFile).traced within
    | inr own =>
      rw [own.1]
      exact (rule _ (List.mem_singleton.mpr rfl)).mono grows.files

theorem Compiler.mainImporter_allRead (setting : Setting) (sheet : Stylesheet) :
    (mainImporter setting sheet).AllRead setting := by
  have none : (mainImporter setting sheet).cache = [] := by
    unfold mainImporter
    split <;> rfl
  simp [Importer.AllRead, none]

end StyleResolution
