import StyleResolution.Proofs.Evaluation.Termination
import StyleResolution.Proofs.Regime.Tracing

/-! # Every failure is located

Every rule locates what fails while it is evaluated, and calls and imports locate what fails while
they are expanded. So a compilation only fails with a position, and the position is that of a rule
of the sheet or of a file that is registered under the number in the position. The file that a
report names is the one in which the position is.

There is one exception. A warning takes the position that is in force, and a media block puts none
in force. Where the first of all rules is a media block with a warning, and warnings are errors, the
failure points at nothing.
-/

namespace StyleResolution

open Compiler

theorem Compiler.resolveSheet_locates (failed : resolveSheet sheet setting {} = (.error f, s)) :
    s.importer.filePath 0 = setting.mainPath sheet ∧ f.Cites setting sheet s.importer.files ∧
      (f.span = none → f.cause = .exhausted) := by
  have obeys := resolveSheet_obeys (R := .traced setting sheet) sheet
    (mainImporter_allRead setting sheet) fun i p member r inside =>
      .own (Rule.mem_partsOf.mpr ⟨_, Provenance.rule_mem_of_ofBlock member, inside⟩) rfl
  obtain ⟨-, fails, main⟩ := obeys.failure failed
  exact ⟨main, fails.1, fails.2 rfl⟩

/-- Every failure has a position, and the file that is named is the one registered for the number in
    the position, or else that of the sheet. The main sheet has the number 0. The position is that of
    a rule of the sheet, or else of a rule or of the syntax error of the file that is registered;
    except that a warning may be raised as an error before any position was put in force. -/
theorem failures_are_located (setting : Setting) (sheet : Stylesheet) (f : Failure)
    (failed : (compile setting sheet).outcome = .error f) :
    let importer := (resolveSheet sheet setting {}).2.importer
    importer.filePath 0 = setting.mainPath sheet ∧
    ∃ span, f.span = some span ∧
      f.file = ((importer.filePath span.file).map CanonicalPath.toPath).or sheet.path ∧
      (Traced setting sheet importer.files span ∨ span = Span.none ∧
        setting.options.warningsAsErrors = true ∧ ∃ message, f.cause = .warning message) := by
  intro importer
  have finishes := @Compiler.resolveSheet_finishes setting sheet
  unfold compile compileFrom Eval.run at failed
  rcases run : resolveSheet sheet setting {} with ⟨g | rules, s⟩
  · obtain ⟨main, cites, located⟩ := resolveSheet_locates run
    have same : importer = s.importer := by simp [importer, run]
    rw [run] at failed
    simp only [reportOn, Except.error.injEq] at failed
    subst failed
    rw [same]
    refine ⟨main, ?_⟩
    cases isAt : g.span with
    | none => exact absurd (located isAt) (finishes.failure run)
    | some span =>
      refine ⟨span, isAt, ?_, cites.span span isAt⟩
      simp [nameFile, isAt, cites.file]
  · rw [run] at failed
    simp [reportOn] at failed

/-- The sheet imports a file with a rule that cannot be evaluated. -/
def failingImport : Stylesheet :=
  ⟨some ⟨"main.less"⟩, [.fileImport ⟨.keyword "a", {}, none, ⟨0, 1, 1⟩⟩]⟩

def failingFile : Setting :=
  { loader := ({} : Loader).insert ⟨"a.less"⟩ "p{}\nq{r:@s;}" }

theorem failingImport_is_located :
    ∃ f, (compile failingFile failingImport).outcome = .error f ∧
      f.span = some ⟨1, 2, 3⟩ ∧ f.file = some ⟨"/a.less"⟩ ∧
      Traced failingFile failingImport [some ⟨["main.less"]⟩, some ⟨["a.less"]⟩] ⟨1, 2, 3⟩ := by
  have fails : (failureOf (compile failingFile failingImport).outcome).map
      (fun f => (f.span, f.file, f.cause)) =
        some (some ⟨1, 2, 3⟩, some ⟨"/a.less"⟩, .undefinedVariable "s") := by
    decide +kernel
  have files : (resolveSheet failingImport failingFile {}).2.importer.files =
      [some ⟨["main.less"]⟩, some ⟨["a.less"]⟩] := by
    decide +kernel
  cases outcome : (compile failingFile failingImport).outcome with
  | ok result =>
    rw [outcome] at fails
    cases fails
  | error f =>
    rw [outcome] at fails
    simp only [failureOf, Option.map_some, Option.some.injEq, Prod.mk.injEq] at fails
    obtain ⟨-, span, isAt, -, traced⟩ := failures_are_located failingFile failingImport f outcome
    rw [fails.1, Option.some.injEq] at isAt
    subst isAt
    rw [files] at traced
    refine ⟨f, rfl, fails.1, fails.2.1, traced.resolve_right ?_⟩
    intro early
    cases early.1

/-- A sheet of one media block whose features add two units. -/
def mediaAlone : Stylesheet :=
  let sum := Value.operation .add (.dimension ⟨1, "px"⟩) (.dimension ⟨1, "em"⟩)
  ⟨none,
    [.media (.paren (.list .space [.keyword "min-width:", sum]))
      [.ruleset [⟨[⟨.attached, .literal ".b"⟩]⟩]
        [.declaration ⟨"y", .dimension ⟨2, ""⟩, false, ⟨0, 1, 38⟩⟩] ⟨0, 1, 33⟩] ⟨0, 1, 1⟩]⟩

/-- The warning about the features, raised as an error, points at no rule. -/
theorem mediaAlone_fails_nowhere :
    let strict : Setting := { options := { warningsAsErrors := true } }
    let importer := (resolveSheet mediaAlone strict {}).2.importer
    (failureOf (compile strict mediaAlone).outcome).map (·.span) = some (some Span.none) ∧
      ¬ Traced strict mediaAlone importer.files Span.none := by
  intro strict importer
  have files : importer.files = [none] := by decide +kernel
  have elsewhere : ∀ r ∈ Rule.partsOf mediaAlone.rules, r.span ≠ Span.none := by decide +kernel
  refine ⟨by decide +kernel, fun traced => ?_⟩
  cases traced with
  | own member here => exact elsewhere _ member here
  | imported registered => simp [files, Span.none] at registered
  | broken registered => simp [files, Span.none] at registered

end StyleResolution
