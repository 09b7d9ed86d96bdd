import StyleResolution.Text.Join

/-!
# Paths

A path is a text with slashes. Its components are the stretches between the slashes, without
empty ones and without `.` except at the very front. A canonical path is absolute and free of `.`,
`..` and empty components, so every file has exactly one.
-/

namespace StyleResolution

/-- A path as it is written. -/
structure Path where
  text : String
  deriving Repr, DecidableEq

/-- A part of a path. -/
inductive PathComponent where
  /-- The slash at the front of an absolute path. -/
  | root
  /-- `.` at the front of a relative path. -/
  | current
  /-- `..` -/
  | parent
  | name (text : List Char)
  deriving Repr, DecidableEq

namespace Path

/-- The stretches between slashes, empty ones included. -/
def splitSlashes : List Char → List (List Char)
  | [] => [[]]
  | c :: rest =>
    if c == '/' then [] :: splitSlashes rest
    else
      match splitSlashes rest with
      | [] => [[c]]
      | part :: parts => (c :: part) :: parts

/-- The component that a stretch stands for, if any. -/
def componentOf (part : List Char) : Option PathComponent :=
  if part.isEmpty || part == ['.'] then none
  else if part == ['.', '.'] then some .parent
  else some (.name part)

/-- Whether the path starts at the root. -/
def isAbsolute (p : Path) : Bool :=
  p.text.toList.head? == some '/'

/-- The component in front of all others: the root, or a leading `.`. -/
def leading (p : Path) : List PathComponent :=
  if p.isAbsolute then [.root]
  else if (splitSlashes p.text.toList).head? == some ['.'] then [.current]
  else []

/-- The components from left to right. -/
def components (p : Path) : List PathComponent :=
  p.leading ++ (splitSlashes p.text.toList).filterMap componentOf

def sameComponents (p q : Path) : Bool :=
  p.components == q.components

/-- The path seen from a directory: an absolute path stays as it is, and a slash is put in between
    unless the directory is empty or ends with one. -/
def join (dir file : Path) : Path :=
  if file.isAbsolute then file
  else
    match dir.text.toList.getLast? with
    | none => file
    | some c => if c == '/' then ⟨dir.text ++ file.text⟩ else ⟨dir.text ++ "/" ++ file.text⟩

/-- Whether the last component has an extension: a dot that is not its first character. -/
def hasExtension (p : Path) : Bool :=
  match p.components.getLast? with
  | some (.name part) => part.tail.contains '.'
  | _ => false

end Path

/-- The components of an absolute path without `.`, `..` and empty parts. -/
structure CanonicalPath where
  segments : List String
  deriving Repr, DecidableEq

namespace CanonicalPath

def text (p : CanonicalPath) : String :=
  "/" ++ Text.join "/" p.segments

def toPath (p : CanonicalPath) : Path :=
  ⟨p.text⟩

/-- The directory that holds the file; the root has none. -/
def parent? (p : CanonicalPath) : Option CanonicalPath :=
  if p.segments.isEmpty then none else some ⟨p.segments.dropLast⟩

/-- One step along a path: `..` leaves the last segment, and stays at the root. -/
def step (segments : List String) : PathComponent → List String
  | .root | .current => segments
  | .parent => segments.dropLast
  | .name part => segments ++ [String.ofList part]

/-- The canonical form of a path. A relative path is taken from the root, and `.` and `..` are
    resolved by the text alone. -/
def ofPath (p : Path) : CanonicalPath :=
  ⟨p.components.foldl step []⟩

end CanonicalPath

end StyleResolution
