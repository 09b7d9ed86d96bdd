import StyleResolution.Import.Queue
import StyleResolution.Loader

/-!
# The importer

For one compilation, the importer remembers which files were loaded and under which number, what
they contain, which of them were imported, how references were resolved, how deep imports are
nested at the moment, and which imports are deferred.
-/

namespace StyleResolution

/-- A file that was read: its number and its rules. -/
structure LoadedFile where
  file : Nat
  rules : List Rule
  deriving Repr

/-- A resolved reference. -/
structure Resolved where
  /-- The directory it was seen from. -/
  dir : Option Path
  reference : String
  path : CanonicalPath
  deriving Repr

/-- What an import contributes. -/
inductive Opened where
  /-- It stays in the output. -/
  | passThrough
  /-- Nothing: the file was imported before, or is optional and missing. -/
  | skipped
  | file (path : CanonicalPath) (loaded : LoadedFile)
  deriving Repr

/-- The state of all imports of a compilation. -/
structure Importer where
  /-- The import nesting of the block whose imports are being expanded. -/
  baseDepth : Nat := 0
  /-- The number of imports being expanded inside that block. -/
  openImports : Nat := 0
  /-- Files that were read, by canonical path. -/
  cache : List (CanonicalPath × LoadedFile) := []
  /-- References that were resolved. -/
  resolved : List Resolved := []
  /-- Files that were imported, and the main file. -/
  imported : List CanonicalPath := []
  /-- The path of each file by number, the main file first. -/
  files : List (Option CanonicalPath) := [none]
  /-- Imports that wait for their variables, oldest first. -/
  deferred : List DeferredImport := []
  deriving Repr

namespace Importer

/-- The import nesting of the rules being expanded. -/
def nesting (i : Importer) : Nat :=
  i.baseDepth + i.openImports

def filePath (i : Importer) (file : Nat) : Option CanonicalPath :=
  (i.files[file]?).join

def directory (i : Importer) (file : Nat) : Option Path :=
  ((i.filePath file).bind CanonicalPath.parent?).map CanonicalPath.toPath

/-- Whether two directories are the same. -/
def sameDir : Option Path → Option Path → Bool
  | none, none => true
  | some p, some q => p.sameComponents q
  | _, _ => false

/-- An earlier resolution of a reference seen from a directory. -/
def known? (i : Importer) (reference : String) (dir : Option Path) : Option CanonicalPath :=
  (i.resolved.find? fun r => r.reference == reference && sameDir r.dir dir).map (·.path)

def setMain (i : Importer) (path : CanonicalPath) : Importer :=
  { i with imported := path :: i.imported, files := some path :: i.files.tail }

def defer (i : Importer) (d : DeferredImport) : Importer :=
  { i with deferred := i.deferred ++ [d] }

end Importer

/-- The file that a reference names: without an extension, `.less` is added. -/
def fileNameOf (reference : String) : Path :=
  if Path.hasExtension ⟨reference⟩ then ⟨reference⟩ else ⟨reference ++ ".less"⟩

/-- The places where a reference is searched, in order: the importing file's directory, or the
    reference itself if there is none, and then the include paths. -/
def searchPlaces (reference : String) (dir : Option Path) (includePaths : List Path) : List Path :=
  ((dir.getD ⟨""⟩) :: includePaths).map (·.join (fileNameOf reference))

/-- Whether the text ends with `ending`. -/
def endsWith (text ending : String) : Bool :=
  ending.toList.reverse.isPrefixOf text.toList.reverse

/-- Whether the text starts with `beginning`. -/
def startsWith (text beginning : String) : Bool :=
  beginning.toList.isPrefixOf text.toList

/-- Whether an import stays in the output as plain CSS. -/
def isPassThrough (options : ImportOptions) (path : String) : Bool :=
  !options.less &&
    (options.css || endsWith path ".css" || startsWith path "http://" ||
      startsWith path "https://" || startsWith path "//")

/-- Whether an import is skipped if its file was imported before. -/
def isOnce (importOnce : Bool) (options : ImportOptions) : Bool :=
  options.once || (importOnce && !options.multiple)

end StyleResolution
