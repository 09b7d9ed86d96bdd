import StyleResolution.Path

/-!
# Where imported sheets come from

Sheets are read from whatever can tell whether a path names a file, which canonical path the file
has, and what its source is. In memory, sources are held under canonical paths. Some paths can be
marked as failing there, either when a path is made canonical or when its source is read, with the
message to report.
-/

namespace StyleResolution

/-- What sheets are read from. Failures come with their message. -/
structure Sources where
  contains : Path → Bool
  normalize : Path → Except String CanonicalPath
  load : CanonicalPath → Except String String
  /-- The paths that have a source are among finitely many. -/
  paths : List CanonicalPath
  listed : ∀ path source, load path = .ok source → path ∈ paths

namespace Sources

def lengthOf (l : Sources) (path : CanonicalPath) : Nat :=
  match l.load path with
  | .ok source => source.length
  | .error _ => 0

/-- The number of characters in all sources, with one more for each. -/
def bulk (l : Sources) : Nat :=
  l.paths.foldr (fun path total => l.lengthOf path + 1 + total) 0

end Sources

/-- Sources in memory. -/
structure Loader where
  /-- Newest first. -/
  files : List (CanonicalPath × String) := []
  /-- Canonical paths, as text, whose sources cannot be read. -/
  unreadable : List (String × String) := []
  /-- Paths, as written, that have no canonical form. -/
  unresolvable : List (String × String) := []
  deriving Repr

namespace Loader

/-- Adds a source; it replaces an earlier one under the same canonical path. -/
def insert (l : Loader) (path : Path) (source : String) : Loader :=
  { l with files := (CanonicalPath.ofPath path, source) :: l.files }

def source? (l : Loader) (path : CanonicalPath) : Option String :=
  l.files.lookup path

/-- Whether the path names a source. -/
def contains (l : Loader) (path : Path) : Bool :=
  (l.source? (CanonicalPath.ofPath path)).isSome

/-- The canonical form of a path, or the message of its failure. -/
def normalize (l : Loader) (path : Path) : Except String CanonicalPath :=
  match l.unresolvable.lookup path.text with
  | some message => .error message
  | none => .ok (CanonicalPath.ofPath path)

def load (l : Loader) (path : CanonicalPath) : Except String String :=
  match l.unreadable.lookup path.text with
  | some message => .error message
  | none =>
    match l.source? path with
    | some source => .ok source
    | none => .error (path.text ++ " is not loaded in memory")

theorem mem_files_of_load {l : Loader} (loads : l.load path = .ok source) :
    path ∈ l.files.map Prod.fst := by
  unfold load at loads
  split at loads
  · cases loads
  · split at loads <;> cases loads
    rename_i found
    obtain ⟨before, after, files, -⟩ := List.lookup_eq_some_iff.mp found
    simp [files]

def toSources (l : Loader) : Sources where
  contains := l.contains
  normalize := l.normalize
  load := l.load
  paths := l.files.map Prod.fst
  listed _ _ loads := mem_files_of_load loads

instance : Coe Loader Sources :=
  ⟨toSources⟩

end Loader

end StyleResolution
