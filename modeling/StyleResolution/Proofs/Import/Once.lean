import StyleResolution.Proofs.Import.Search
import StyleResolution.Proofs.Regime.Resolution

/-! # Importing a file once

Whatever a compilation opens, in whatever order, an import that is made once is skipped exactly if
its file was opened before or is the main file. Nothing is forgotten in between: an import that is
skipped, or that stays in the output, leaves the importer as it was.
-/

namespace StyleResolution

namespace Opening

def ResolvesTo (setting : Setting) (o : Opening) (path : CanonicalPath) : Prop :=
  (Eval.resolveReference o.path (o.before.directory o.node.span.file) setting
    { importer := o.before }).1 = .ok (.ok path)

def opened? (o : Opening) : Option CanonicalPath :=
  match o.outcome with
  | .ok (.file path _) => some path
  | _ => none

/-- The import is of a file, and not nested too deep. -/
structure Admitted (setting : Setting) (o : Opening) : Prop where
  notPlain : isPassThrough o.node.options o.path = false
  within : o.before.nesting + 1 ≤ setting.options.maxImportDepth

/-- Cache, imported files, numbers and depth are what they were. -/
structure Unchanged (o : Opening) : Prop where
  cache : o.after.cache = o.before.cache
  imported : o.after.imported = o.before.imported
  files : o.after.files = o.before.files
  depth : o.after.baseDepth = o.before.baseDepth ∧ o.after.openImports = o.before.openImports

/-- What becomes of an import, given the files that were imported before. -/
structure Proper (setting : Setting) (before : CanonicalPath → Prop) (o : Opening) : Prop where
  /-- An import that is made once is skipped exactly if its file was imported before. -/
  skips : o.Admitted setting → ∀ path, o.ResolvesTo setting path →
    isOnce setting.options.importOnce o.node.options = true →
    (o.outcome = .ok .skipped ↔ before path)
  /-- An import that is skipped, or that stays in the output, changes nothing. -/
  keeps : o.outcome = .ok .skipped ∨ o.outcome = .ok .passThrough → o.Unchanged
  /-- Only the file that the import leads to is opened, and it is imported from then on. -/
  opens : ∀ path, o.opened? = some path →
    o.Admitted setting ∧ o.ResolvesTo setting path ∧
      o.after.imported = path :: o.before.imported

theorem Proper.congr {before before' : CanonicalPath → Prop} {o : Opening}
    (proper : o.Proper setting before) (same : ∀ path, before path ↔ before' path) :
    o.Proper setting before' where
  skips admitted path resolves once := (proper.skips admitted path resolves once).trans (same path)
  keeps := proper.keeps
  opens := proper.opens

end Opening

namespace Eval

variable {setting : Setting} {s : Evaluation}

theorem resolveReference_alone (setting : Setting) (reference : String) (dir : Option Path) (s : Evaluation) :
    ∃ found resolved, resolveReference reference dir setting s =
        (.ok found, { s with importer := { s.importer with resolved } }) ∧
      (resolveReference reference dir setting { importer := s.importer }).1 = .ok found := by
  unfold resolveReference
  simp only [bind_apply, state]
  cases s.importer.known? reference dir with
  | some path => exact ⟨.ok path, s.importer.resolved, rfl, rfl⟩
  | none =>
    simp only [bind_apply, Eval.setting]
    cases (searchPlaces reference dir setting.options.includePaths).find? setting.loader.contains with
    | none => exact ⟨_, s.importer.resolved, rfl, rfl⟩
    | some place =>
      dsimp only
      cases setting.loader.normalize place with
      | error message => exact ⟨_, s.importer.resolved, rfl, rfl⟩
      | ok path => exact ⟨_, _, rfl, rfl⟩

theorem loadFile_imported (path : CanonicalPath) :
    Keeps setting (fun s s' => s'.importer.imported = s.importer.imported) (loadFile path) := by
  have : IsPreorder Evaluation fun s s' => s'.importer.imported = s.importer.imported :=
    { refl := fun _ => rfl, trans := fun _ _ _ first second => second.trans first }
  exact Keeps.composes.loadFile (fun _ => .change fun _ => rfl) (fun f _ => .fail f) path
    (Keeps.change fun _ => rfl) fun _ => Keeps.change fun _ => rfl

theorem openFile_proper (remembered : s.importer = { before with resolved })
    (leads : ∀ outcome after, Opening.Admitted setting ⟨i, text, before, outcome, after⟩ ∧
      Opening.ResolvesTo setting ⟨i, text, before, outcome, after⟩ path) :
    Ends setting s (openFile i path)
      (fun opened s' => Opening.Proper setting (· ∈ before.imported)
        ⟨i, text, before, .ok opened, s'.importer⟩)
      (fun f s' => Opening.Proper setting (· ∈ before.imported)
        ⟨i, text, before, .error f, s'.importer⟩) := by
  -- The file that a reference leads to does not depend on what becomes of the import.
  have unique : ∀ {outcome after path'},
      Opening.ResolvesTo setting ⟨i, text, before, outcome, after⟩ path' → path' = path := by
    intro outcome after path' resolves
    have same := (leads outcome after).2.symm.trans resolves
    simpa using same.symm
  refine .ofSetting (.ofState ?_)
  rw [remembered]
  split
  · rename_i again
    simp only [Bool.and_eq_true, List.contains_iff_mem] at again
    refine .change (.pure
      { skips := fun _ path' resolves _ => by simpa [unique resolves] using again.2
        keeps := fun _ => ?_
        opens := by simp [Opening.opened?] })
    rw [remembered]
    exact ⟨rfl, rfl, rfl, rfl, rfl⟩
  · rename_i first
    have new : isOnce setting.options.importOnce i.options = true → path ∉ before.imported := by
      intro once member
      simp [once, member] at first
    refine .change (.bind ((loadFile_imported path).ends setting _) ?_ ?_)
    · intro loaded t imported
      refine .pure
        { skips := fun _ path' resolves once => by simpa [unique resolves] using new once
          keeps := by simp
          opens := fun path' opened => ?_ }
      cases opened
      exact ⟨(leads _ _).1, (leads _ _).2, by simp [imported, remembered]⟩
    · intro f t _
      exact
        { skips := fun _ path' resolves once => by simpa [unique resolves] using new once
          keeps := by simp
          opens := by simp [Opening.opened?] }

/-- An import that leads to no file is neither skipped for being there before nor opened. -/
theorem proper_of_no_file {o : Opening} {before : CanonicalPath → Prop}
    (nowhere : o.Admitted setting → ∀ path, ¬ o.ResolvesTo setting path)
    (unchanged : o.outcome = .ok .skipped ∨ o.outcome = .ok .passThrough → o.Unchanged)
    (closed : o.opened? = none) : o.Proper setting before where
  skips admitted path resolves := absurd resolves (nowhere admitted path)
  keeps := unchanged
  opens path opened := by simp [closed] at opened

theorem openImport_proper (i : Import) (text : String) :
    Ends setting s (openImport i text)
      (fun opened s' => Opening.Proper setting (· ∈ s.importer.imported)
        ⟨i, text, s.importer, .ok opened, s'.importer⟩)
      (fun f s' => Opening.Proper setting (· ∈ s.importer.imported)
        ⟨i, text, s.importer, .error f, s'.importer⟩) := by
  unfold openImport
  split
  · rename_i plain
    refine .pure (proper_of_no_file (fun admitted => ?_) (fun _ => ?_) rfl)
    · simp [admitted.notPlain] at plain
    · exact ⟨rfl, rfl, rfl, rfl, rfl⟩
  · rename_i file
    refine .ofSetting (.ofState ?_)
    split
    · rename_i deep
      refine Ends.failWith (proper_of_no_file (fun admitted => ?_) (by simp) rfl)
      exact absurd admitted.within (Nat.not_le_of_lt deep)
    · rename_i within
      have admitted : ∀ outcome after,
          Opening.Admitted setting ⟨i, text, s.importer, outcome, after⟩ :=
        fun _ _ => ⟨by simpa using file, Nat.le_of_not_lt within⟩
      obtain ⟨found, resolved, run, alone⟩ :=
        resolveReference_alone setting text (s.importer.directory i.span.file) s
      have remembered : Evaluation.importer { s with importer := { s.importer with resolved } } =
          { s.importer with resolved } := rfl
      refine .ofState (.bind_of_ok run ?_)
      cases found with
      | ok path =>
        exact openFile_proper remembered fun outcome after => ⟨admitted outcome after, alone⟩
      | error cause =>
        have nowhere : ∀ outcome after path,
            ¬ Opening.ResolvesTo setting ⟨i, text, s.importer, outcome, after⟩ path := by
          intro outcome after path resolves
          have same := alone.symm.trans resolves
          simp at same
        split
        · rename_i leads
          cases leads
        · split
          · refine .change (.pure (proper_of_no_file (fun _ => nowhere _ _) (fun _ => ?_) rfl))
            exact ⟨rfl, rfl, rfl, rfl, rfl⟩
          · exact Ends.failWith (proper_of_no_file (fun _ => nowhere _ _) (by simp) rfl)
        · exact Ends.failWith (proper_of_no_file (fun _ => nowhere _ _) (by simp) rfl)

end Eval

/-! ## Whole compilations -/

namespace Once

def Imported (main : Option CanonicalPath) (openings : List Opening) (path : CanonicalPath) : Prop :=
  main = some path ∨ ∃ o ∈ openings, o.opened? = some path

/-- Every import is treated as the ones before it demand. -/
def Law (setting : Setting) (main : Option CanonicalPath) (openings : List Opening) : Prop :=
  ∀ later o earlier, openings = later ++ o :: earlier → o.Proper setting (Imported main earlier)

variable {setting : Setting} {main : Option CanonicalPath} {openings : List Opening}

theorem Law.cons {o : Opening} (law : Law setting main openings)
    (proper : o.Proper setting (Imported main openings)) : Law setting main (o :: openings) := by
  intro later o' earlier split
  cases later with
  | nil =>
    cases split
    exact proper
  | cons newest later =>
    cases split
    exact law later o' earlier rfl

theorem imported_cons :
    Imported main (o :: openings) path ↔ o.opened? = some path ∨ Imported main openings path := by
  simp only [Imported, List.mem_cons, exists_eq_or_imp]
  tauto

/-- If all imports are made once, no file is opened twice, and the main file never. -/
theorem Law.nodup (law : Law setting main openings)
    (once : ∀ o ∈ openings, isOnce setting.options.importOnce o.node.options = true) :
    (openings.filterMap Opening.opened?).Nodup ∧
      ∀ path ∈ openings.filterMap Opening.opened?, main ≠ some path := by
  induction openings with
  | nil => simp
  | cons o earlier ih =>
    have proper := law [] o earlier rfl
    have lawEarlier : Law setting main earlier := fun later o' earlier' split =>
      law (o :: later) o' earlier' (by simp [split])
    have rest := ih lawEarlier fun o' member => once o' (List.mem_cons_of_mem _ member)
    cases opened : o.opened? with
    | none => simpa [opened] using rest
    | some path =>
      obtain ⟨admitted, resolves, -⟩ := proper.opens path opened
      have decided := proper.skips admitted path resolves (once o List.mem_cons_self)
      have notSkipped : o.outcome ≠ .ok .skipped := by
        intro skipped
        simp [Opening.opened?, skipped] at opened
      have new : ¬ Imported main earlier path := fun before => notSkipped (decided.mpr before)
      simp only [List.filterMap_cons, opened, List.nodup_cons, List.mem_cons]
      refine ⟨⟨fun member => ?_, rest.1⟩, fun path' member => ?_⟩
      · obtain ⟨e, inside, opens⟩ := List.mem_filterMap.mp member
        exact new (.inr ⟨e, inside, opens⟩)
      · cases member with
        | inl same =>
          rw [same]
          exact fun isMain => new (.inl isMain)
        | inr later => exact rest.2 path' later

end Once

/-- The files that count as imported are the main file and those that were opened. -/
def Regime.once (setting : Setting) (main : Option CanonicalPath) : Regime setting where
  holds importer openings := (∀ path, path ∈ importer.imported ↔ Once.Imported main openings path) ∧
    Once.Law setting main openings
  law openings := Once.Law setting main openings
  rule _ _ := True
  lawful holds := holds.2
  mono _ _ := trivial
  block _ _ _ _ := trivial
  definition _ _ := trivial
  settled _ _ := trivial
  opens s openings i site text holds _ := by
    obtain ⟨recorded, law⟩ := holds
    refine .mono (Eval.openImport_proper i text) ?_ ?_
    · intro opened t proper
      refine ⟨⟨fun path => ?_, law.cons (proper.congr recorded)⟩, fun _ _ _ _ _ => trivial⟩
      rw [Once.imported_cons, ← recorded path]
      cases opened with
      | passThrough =>
        have same : t.importer.imported = s.importer.imported := (proper.keeps (.inr rfl)).imported
        simp [Importer.tables, Opening.opened?, same]
      | skipped =>
        have same : t.importer.imported = s.importer.imported := (proper.keeps (.inl rfl)).imported
        simp [Importer.tables, Opening.opened?, same]
      | file new loaded =>
        have more : t.importer.imported = new :: s.importer.imported :=
          (proper.opens new rfl).2.2
        simp [Importer.tables, Opening.opened?, more, eq_comm]
    · intro f t proper
      exact ⟨law.cons (proper.congr recorded), trivial⟩

theorem mainImporter_imported (setting : Setting) (sheet : Stylesheet) (path : CanonicalPath) :
    path ∈ (Compiler.mainImporter setting sheet).imported ↔ setting.mainPath sheet = some path := by
  unfold Compiler.mainImporter
  split <;> rename_i isAt <;> simp [isAt, Importer.setMain, eq_comm]

/-- An import that is made once is skipped exactly if its file is the main file or was opened before
    in the same compilation, and what is skipped or stays in the output changes nothing. So where
    all imports are made once, no file is opened twice. -/
theorem imports_are_made_once (setting : Setting) (sheet : Stylesheet) :
    let openings := (Compiler.resolveSheet sheet setting {}).2.trace.openings
    (∀ later o earlier, openings = later ++ o :: earlier →
      o.Proper setting fun path =>
        setting.mainPath sheet = some path ∨ ∃ e ∈ earlier, e.opened? = some path) ∧
    (setting.options.importOnce = true → (∀ o ∈ openings, o.node.options.multiple = false) →
      (openings.filterMap Opening.opened?).Nodup ∧
        ∀ path ∈ openings.filterMap Opening.opened?, setting.mainPath sheet ≠ some path) := by
  intro openings
  have law : Once.Law setting (setting.mainPath sheet) openings := by
    apply Compiler.resolveSheet_lawful (R := .once setting (setting.mainPath sheet)) sheet
    · refine ⟨fun path => ?_, by simp [Once.Law]⟩
      simpa [Once.Imported] using mainImporter_imported setting sheet path
    · exact fun _ _ _ => trivial
  refine ⟨law, fun importOnce single => law.nodup fun o member => ?_⟩
  simp [isOnce, importOnce, single o member]

/-- A file that imports itself. -/
def selfImporting : Setting :=
  { loader := ({} : Loader).insert ⟨"a.less"⟩ "@import 'a';" }

def respelledImports : Stylesheet :=
  ⟨some ⟨"main.less"⟩,
    [.fileImport ⟨.keyword "a", {}, none, Span.none⟩,
      .fileImport ⟨.keyword "lib/../a.less", {}, none, Span.none⟩]⟩

theorem respelledImports_are_made_once :
    let openings := (Compiler.resolveSheet respelledImports selfImporting {}).2.trace.openings
    openings.map (·.path) = ["lib/../a.less", "a", "a"] ∧
      openings.filterMap Opening.opened? = [⟨["a.less"]⟩] ∧
      (openings.filterMap Opening.opened?).Nodup := by
  refine ⟨by decide +kernel, by decide +kernel, ?_⟩
  exact ((imports_are_made_once selfImporting respelledImports).2 rfl (by decide +kernel)).1

end StyleResolution
