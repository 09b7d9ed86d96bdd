import StyleResolution.Evaluation.Value
import StyleResolution.Import.Opening

/-!
# Splicing imported files into frames

An import is replaced in place by the rules of its file, and the imports among those rules are
expanded in turn while the file counts as open. The spliced rules remember the nesting they were
loaded at; imports inside their blocks start from it.

In the root frame, imports with variables in their path are queued instead.
-/

namespace StyleResolution.Eval

/-- The evaluated path of an import and the text by which its file is found. -/
def importPath (env : Environment) (i : Import) : Eval (Value × String) := do
  setSpan i.span
  let path ← locatedAt i.span (value env i.path)
  match path with
  | .url inner => pure (path, inner.unquoted)
  | _ => pure (path, path.unquoted)

def contribution (i : Import) (loaded : LoadedFile) : List Placed :=
  let root := Site.written loaded.file []
  match i.media with
  | some features => [⟨.media features loaded.rules i.span, root⟩]
  | none => Placed.ofBlock root loaded.rules

/-- What now stands in the place of an import. -/
inductive Replacement where
  /-- So many rules, and no imports of a file among them. -/
  | settled (count : Nat)
  /-- So many rules of a file, whose own imports are still to be expanded. -/
  | opened (count : Nat)
  deriving Repr, DecidableEq

def replaceImport (id : FrameId) (env : Environment) (position : Nat) (site : Site) (i : Import) :
    Eval Replacement := do
  let (path, text) ← importPath env i
  match ← locatedAt i.span (noteOpening i text (openImport i text)) with
  | .passThrough =>
    changeFrame id (·.splice position 1 [⟨.fileImport { i with path }, site⟩])
    pure (.settled 1)
  | .skipped =>
    changeFrame id (·.splice position 1 [])
    pure (.settled 0)
  | .file canonical loaded =>
    let nesting := (← state).importer.nesting + 1
    emit (.importing canonical nesting)
    let rules := contribution i loaded
    changeFrame id (·.spliceAt position 1 rules nesting)
    pure (.opened rules.length)

/-- Replaces the import at a position and, while its file counts as open, expands the imports
    among the new rules by `expandAt`, which takes a position and a number of rules and answers
    with the position behind them. Answers with the number of rules now in the import's place. -/
def spliceImport (expandAt : Nat → Nat → Eval Nat) (id : FrameId) (env : Environment)
    (position : Nat) (site : Site) (i : Import) : Eval Nat := do
  match ← replaceImport id env position site i with
  | .settled count => pure count
  | .opened count =>
    let stop ← whileImporting (expandAt position count)
    pure (stop - position)

/-- Expands the imports among `count` rules from a position on, and answers with the position
    behind what they became. With `defer`, imports with variables in their path are queued. -/
def expandRange (expandAt : Nat → Nat → Eval Nat) (id : FrameId) (env : Environment)
    (defer : Bool) : Nat → Nat → Eval Nat
  | position, 0 => pure position
  | position, count + 1 => do
    match (← frame id).entryAt position with
    | some ⟨⟨.fileImport i, site⟩, _⟩ =>
      if defer && i.isInterpolated then
        emit (.deferring i.path)
        changeImporter fun importer => importer.defer ⟨position, env, importer.nesting⟩
        expandRange expandAt id env defer (position + 1) count
      else
        let inserted ← spliceImport expandAt id env position site i
        expandRange expandAt id env defer (position + inserted) count
    | _ => expandRange expandAt id env defer (position + 1) count

/-- Expands the imports among `count` rules from a position on, with files nested less than
    `levels` deep. -/
def expandWithin (id : FrameId) (env : Environment) (defer : Bool) : Nat → Nat → Nat → Eval Nat
  | 0, _, _ => failWith .exhausted
  | levels + 1, position, count =>
    expandRange (expandWithin id env defer levels) id env defer position count

/-- The number of levels that the depth limit leaves for nested files. -/
def importLevels : Eval Nat := do
  pure ((← setting).options.maxImportDepth + 1)

/-- Expands every import of a frame. With `defer`, imports with variables in their path are queued
    for `replayDeferred`. -/
def expandImports (id : FrameId) (env : Environment) (defer : Bool) : Eval Unit := do
  let f ← frame id
  let levels ← importLevels
  atBaseDepth f.base do
    let _ ← expandWithin id env defer levels 0 f.size
    pure ()

end StyleResolution.Eval
