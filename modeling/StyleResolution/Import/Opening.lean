import StyleResolution.Evaluation.State
import StyleResolution.Sheet.Reading

/-!
# Opening imported files

A reference is resolved against the directory of the file that contains the import, then against
the include paths. A file is read and parsed once, however often it is imported.
-/

namespace StyleResolution

namespace Eval

/-- Registers the main file. A path without a canonical form is left unregistered. -/
def registerMain (path : Path) : Eval Unit := do
  match (← setting).loader.normalize path with
  | .ok canonical => changeImporter (·.setMain canonical)
  | .error message => emit (.mainNotNormalized path message)

/-- The canonical path of a reference seen from a directory, or why there is none. Answers are
    remembered. -/
def resolveReference (reference : String) (dir : Option Path) :
    Eval (Except Cause CanonicalPath) := do
  match (← state).importer.known? reference dir with
  | some path => pure (.ok path)
  | none =>
    let loader := (← setting).loader
    let places := searchPlaces reference dir (← setting).options.includePaths
    match places.find? loader.contains with
    | none => pure (.error (.fileNotFound reference places))
    | some place =>
      match loader.normalize place with
      | .error message => pure (.error (.inputOutput message))
      | .ok path =>
        changeImporter fun i => { i with resolved := ⟨dir, reference, path⟩ :: i.resolved }
        pure (.ok path)

/-- The rules of a file, read on first use. -/
def loadFile (path : CanonicalPath) : Eval LoadedFile := do
  match (← state).importer.cache.lookup path with
  | some loaded =>
    emit (.cacheHit path)
    pure loaded
  | none =>
    emit (.cacheMiss path)
    match (← setting).loader.load path with
    | .error message => failWith (.inputOutput (path.text ++ ": " ++ message))
    | .ok source =>
      let file := (← state).importer.files.length
      changeImporter fun i => { i with files := i.files ++ [some path] }
      let sheet ← ofExcept (Stylesheet.read source file (some path.toPath))
      let loaded : LoadedFile := ⟨file, sheet.rules⟩
      changeImporter fun i => { i with cache := (path, loaded) :: i.cache }
      pure loaded

/-- Imports a resolved file, unless it was imported before and is imported once. -/
def openFile (i : Import) (path : CanonicalPath) : Eval Opened := do
  if isOnce (← setting).options.importOnce i.options &&
      (← state).importer.imported.contains path then
    emit (.alreadyImported path)
    pure .skipped
  else
    changeImporter fun importer => { importer with imported := path :: importer.imported }
    let loaded ← loadFile path
    pure (.file path loaded)

/-- Decides what an import contributes, given the text of its path. -/
def openImport (i : Import) (path : String) : Eval Opened := do
  if isPassThrough i.options path then
    pure .passThrough
  else
    let limit := (← setting).options.maxImportDepth
    if limit < (← state).importer.nesting + 1 then
      failWith (.importTooDeep path limit)
    else
      match ← resolveReference path ((← state).importer.directory i.span.file) with
      | .ok canonical => openFile i canonical
      | .error (.fileNotFound reference searched) =>
        if i.options.optional then
          emit (.optionalNotFound path)
          pure .skipped
        else
          failWith (.fileNotFound reference searched)
      | .error cause => failWith cause

end Eval

end StyleResolution
