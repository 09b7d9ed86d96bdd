import StyleResolution.Evaluation.Block
import StyleResolution.Import.Replay

/-!
# Compiling sheets

A sheet is compiled in three steps: the imports of its root are expanded, the deferred ones are
replayed, and the root is evaluated. The result starts with plain imports, then come declarations
and then everything else.
-/

namespace StyleResolution

/-- The result of a successful compilation. -/
structure Compilation where
  sheet : Stylesheet
  /-- Oldest first. -/
  warnings : List Warning
  deriving Repr

/-- The outcome of a compilation and its log. -/
structure Report where
  outcome : Except Failure Compilation
  /-- Oldest first. -/
  events : List Event

/-- The counters that rules carry: which definitions are being evaluated and which callables are
    being expanded, each as often as it is. A sheet that is compiled carries none at first. -/
structure Counters where
  evaluating : List Site := []
  expanding : List Site := []
  deriving Repr, DecidableEq

namespace Compiler

/-- A bound on the number of rules that a compilation can meet: those of the sheet and of all
    files, of which none has more rules than characters. -/
def ruleBound (loader : Sources) (sheet : Stylesheet) : Nat :=
  Rule.sizes sheet.rules + loader.bulk + 1

/-- A bound on how deep blocks and expansions can nest: every callable at most as often as the
    mixin limit allows, and between two expansions the blocks of one file inside those of another,
    as deep as the import limit allows. -/
def nestingBound (options : Options) (rules : Nat) : Nat :=
  (options.maxMixinDepth * rules + 1) * (options.maxImportDepth + 2) * (rules + 2) + 1

def isImport : Rule → Bool
  | .fileImport _ => true
  | _ => false

/-- The rules of the result in their final order. -/
def arrange (o : Output) : List Rule :=
  o.rules.filter isImport ++ o.declarationRules ++ o.rules.filter (!isImport ·)

def registerSheet (sheet : Stylesheet) : Eval Unit :=
  match sheet.path with
  | some path => Eval.registerMain path
  | none => pure ()

def openSheet (sheet : Stylesheet) : Eval Environment := do
  registerSheet sheet
  let root ← Eval.addFrame (Frame.ofBlock (.written 0 []) sheet.rules 0)
  let env : Environment := { frames := [root] }
  let rules := ruleBound (← Eval.setting).loader sheet
  Eval.expandImports root env true
  Eval.replayDeferred root (2 * rules + 2)
  pure env

def resolveSheet (sheet : Stylesheet) : Eval (List Rule) := do
  let env ← openSheet sheet
  let rules := ruleBound (← Eval.setting).loader sheet
  let output ← Eval.blockWithin (nestingBound (← Eval.setting).options rules) env {}
  pure (arrange output)

def nameFile (sheet : Stylesheet) (importer : Importer) (f : Failure) : Failure :=
  let file :=
    match f.span with
    | some span => ((importer.filePath span.file).map CanonicalPath.toPath).or sheet.path
    | none => sheet.path
  { f with file := f.file.or file }

def reportOn (sheet : Stylesheet) : Except Failure (List Rule) × Evaluation → Report
  | (.error f, s) => ⟨.error (nameFile sheet s.importer f), s.events.toList⟩
  | (.ok rules, s) =>
    ⟨.ok ⟨⟨sheet.path, rules⟩, s.warnings.toList⟩,
      s.events.toList ++ [.compiled rules.length s.warnings.size]⟩

/-- Resolves a sheet whose rules carry counters, and answers with the counters that they carry
    afterwards. -/
def compileFrom (counters : Counters) (setting : Setting) (sheet : Stylesheet) :
    Report × Counters :=
  let run := (resolveSheet sheet).run setting
    { evaluating := counters.evaluating, expanding := counters.expanding }
  (reportOn sheet run, ⟨run.2.evaluating, run.2.expanding⟩)

/-- Resolves a sheet. Relative imports are resolved against the directory of its path. -/
def compile (setting : Setting) (sheet : Stylesheet) : Report :=
  (compileFrom {} setting sheet).1

/-- Reads and resolves a sheet without a path. -/
def compileSource (setting : Setting) (source : String) : Report :=
  match Stylesheet.read source 0 none with
  | .error f => ⟨.error f, []⟩
  | .ok sheet => compile setting sheet

def loadMain (loader : Sources) (path : Path) : Except Failure Stylesheet :=
  match loader.normalize path with
  | .error message => .error { cause := .inputOutput message }
  | .ok canonical =>
    match loader.load canonical with
    | .error message => .error { cause := .inputOutput message }
    | .ok source =>
      match Stylesheet.read source 0 (some canonical.toPath) with
      | .error f => .error (f.inFile canonical.toPath)
      | .ok sheet => .ok sheet

/-- Loads, reads and resolves a main sheet. -/
def compileFile (setting : Setting) (path : Path) : Report :=
  match loadMain setting.loader path with
  | .error f => ⟨.error f, []⟩
  | .ok sheet => compile setting sheet

end Compiler

end StyleResolution
