import StyleResolution.Proofs.Import.Remaining
import StyleResolution.Proofs.Mixin.Candidates

/-! # What a namespace shows

A block is entered to be evaluated, and then its imports are replaced by the rules of files. A search
that leads through the block as a namespace does not enter it: it reads the rules as they are
written. So the two agree on a block without imports, and otherwise the search misses the callables
that the files bring, and no others.
-/

namespace StyleResolution

open Eval

/-- Rules, what they are when their imports are replaced, and those of the latter that come from
    files. -/
inductive ImportsReplaced (cache : List (CanonicalPath × LoadedFile)) :
    List Placed → List Placed → List Placed → Prop where
  | nil : ImportsReplaced cache [] [] []
  | rule {p : Placed} {rules result brought : List Placed} (other : Compiler.isImport p.rule = false)
      (rest : ImportsReplaced cache rules result brought) :
      ImportsReplaced cache (p :: rules) (p :: result) brought
  | plain {i : Import} {site : Site} {rules result brought : List Placed} (path : Value)
      (rest : ImportsReplaced cache rules result brought) :
      ImportsReplaced cache (⟨.fileImport i, site⟩ :: rules)
        (⟨.fileImport { i with path }, site⟩ :: result) brought
  | nothing {i : Import} {site : Site} {rules result brought : List Placed}
      (rest : ImportsReplaced cache rules result brought) :
      ImportsReplaced cache (⟨.fileImport i, site⟩ :: rules) result brought
  /-- The imports of the file are replaced in turn. -/
  | file {i : Import} {site : Site} {rules result brought new deeper : List Placed}
      {path : CanonicalPath} {loaded : LoadedFile} (cached : (path, loaded) ∈ cache)
      (opened : ImportsReplaced cache (contribution i loaded) new deeper)
      (rest : ImportsReplaced cache rules result brought) :
      ImportsReplaced cache (⟨.fileImport i, site⟩ :: rules) (new ++ result) (new ++ brought)

namespace ImportsReplaced

variable {cache more : List (CanonicalPath × LoadedFile)} {rules result brought : List Placed}

theorem mono (grown : cache <:+ more) (h : ImportsReplaced cache rules result brought) :
    ImportsReplaced more rules result brought := by
  induction h with
  | nil => exact .nil
  | rule other _ ih => exact .rule other ih
  | plain path _ ih => exact .plain path ih
  | nothing _ ih => exact .nothing ih
  | file cached _ _ opened ih => exact .file (grown.subset cached) opened ih

theorem append (h : ImportsReplaced cache rules result brought)
    (h' : ImportsReplaced cache rules' result' brought') :
    ImportsReplaced cache (rules ++ rules') (result ++ result') (brought ++ brought') := by
  induction h with
  | nil => exact h'
  | rule other _ ih => exact .rule other ih
  | plain path _ ih => exact .plain path ih
  | nothing _ ih => exact .nothing ih
  | file cached opened _ _ ih =>
    simp only [List.append_assoc]
    exact .file cached opened ih

theorem brought_eq_nil (h : ImportsReplaced cache rules result brought)
    (written : ∀ p ∈ rules, Compiler.isImport p.rule = false) : brought = [] := by
  induction h with
  | nil => rfl
  | rule _ _ ih => exact ih fun p member => written p (List.mem_cons_of_mem _ member)
  | plain | nothing | file =>
    have := written _ List.mem_cons_self
    simp [Compiler.isImport] at this

end ImportsReplaced

/-! ## Paths along replaced rules -/

namespace Callable

theorem along_nil (path : List String) : along path [] = [] := by
  match path with
  | [] => rfl
  | [name] => rfl
  | name :: next :: rest => rfl

theorem along_append (path : List String) (rules more : List Placed) :
    along path (rules ++ more) = along path rules ++ along path more := by
  match path with
  | [] => rfl
  | [name] => exact List.filterMap_append
  | name :: next :: rest => simp only [along, List.filterMap_append, List.filter_append,
      List.flatMap_append]

theorem along_cons (path : List String) (p : Placed) (rules : List Placed) :
    along path (p :: rules) = along path [p] ++ along path rules :=
  along_append path [p] rules

theorem along_fileImport (path : List String) (i : Import) (site : Site) (rules : List Placed) :
    along path (⟨.fileImport i, site⟩ :: rules) = along path rules := by
  match path with
  | [] => rfl
  | [name] => rfl
  | name :: next :: rest => rfl

end Callable

namespace ImportsReplaced

variable {cache : List (CanonicalPath × LoadedFile)} {rules result brought : List Placed}

section

variable (h : ImportsReplaced cache rules result brought) (path : List String)

include h path

theorem along_sublist :
    (Callable.along path rules).Sublist (Callable.along path result) := by
  induction h with
  | nil => exact List.Sublist.refl _
  | @rule p rules result _ _ _ ih =>
    rw [Callable.along_cons path p rules, Callable.along_cons path p result]
    exact ih.append_left _
  | @plain i site rules result _ _ _ ih =>
    rw [Callable.along_fileImport, Callable.along_fileImport]
    exact ih
  | @nothing i site rules _ _ _ ih =>
    rw [Callable.along_fileImport]
    exact ih
  | @file i site rules result _ new _ _ _ _ _ _ _ ih =>
    rw [Callable.along_fileImport, Callable.along_append]
    exact ih.trans (List.sublist_append_right _ _)

theorem along_perm :
    (Callable.along path result).Perm
      (Callable.along path rules ++ Callable.along path brought) := by
  induction h with
  | nil => rw [Callable.along_nil, List.append_nil]
  | @rule p rules result _ _ _ ih =>
    rw [Callable.along_cons path p rules, Callable.along_cons path p result, List.append_assoc]
    exact ih.append_left _
  | @plain i site rules result _ _ _ ih =>
    rw [Callable.along_fileImport, Callable.along_fileImport]
    exact ih
  | @nothing i site rules _ _ _ ih =>
    rw [Callable.along_fileImport]
    exact ih
  | @file i site rules result brought new _ _ _ _ _ _ _ ih =>
    rw [Callable.along_fileImport, Callable.along_append, Callable.along_append]
    calc Callable.along path new ++ Callable.along path result
      _ |>.Perm (Callable.along path new ++
            (Callable.along path rules ++ Callable.along path brought)) := ih.append_left _
      _ |>.Perm (Callable.along path rules ++
            (Callable.along path new ++ Callable.along path brought)) :=
          List.perm_append_comm_assoc ..

theorem along_eq_iff :
    Callable.along path rules = Callable.along path result ↔ Callable.along path brought = [] := by
  have length := (h.along_perm path).length_eq
  rw [List.length_append] at length
  constructor
  · intro same
    rw [same] at length
    exact List.length_eq_zero_iff.mp (by omega)
  · intro none
    rw [none, List.length_nil] at length
    exact (h.along_sublist path).eq_of_length (by omega)

end

end ImportsReplaced

/-! ## Entering a block -/

variable {setting : Setting} {s : Evaluation}

theorem ImportsReplaced.expansion : ImportExpansion setting fun cache range result =>
    ∃ brought, ImportsReplaced cache (range.map (·.toPlaced)) (result.map (·.toPlaced)) brought where
  nil := ⟨[], .nil⟩
  append := by
    rintro _ _ _ _ _ ⟨_, first⟩ ⟨_, second⟩
    simp only [List.map_append]
    exact ⟨_, first.append second⟩
  mono := by
    rintro _ _ _ _ grown ⟨_, replaced⟩
    exact ⟨_, replaced.mono grown⟩
  rule other := ⟨[], .rule other .nil⟩
  settled contributes := by
    cases contributes with
    | plain => exact ⟨[], .plain _ .nil⟩
    | nothing => exact ⟨[], .nothing .nil⟩
  file := by
    rintro _ _ site _ _ _ _ _ cached ⟨_, replaced⟩
    rw [List.map_map, show Entry.toPlaced ∘ _ = id from rfl, List.map_id] at replaced
    have opened := @ImportsReplaced.file _ _ site _ _ _ _ _ _ _ cached replaced .nil
    rw [List.append_nil] at opened
    exact ⟨_, opened⟩

namespace Eval

theorem enterBlock_replaces (env : Environment) (site : Site) (rules : List Rule) (nesting : Nat) :
    Yields setting s (enterBlock env site rules nesting) fun inner s' =>
      inner = env.push s.frames.size ∧ (s'.frames.get s.frames.size).Fresh ∧
        ∃ brought, ImportsReplaced s'.importer.cache (Placed.ofBlock site rules)
          (s'.frames.get s.frames.size).rules brought := by
  have block := Frames.get_add_self s.frames (Frame.ofBlock site rules nesting)
  apply Ends.bind_of_ok (addFrame_apply _ setting s)
  have inside : s.frames.size < (s.frames.add (Frame.ofBlock site rules nesting)).2.size := by simp
  refine Yields.bind (expandImports_replaces ImportsReplaced.expansion inside _) ?_
  rintro _ t ⟨goes, replaced⟩
  rw [block] at replaced
  refine .pure ⟨rfl, goes.2 ?_, ?_⟩
  · rw [block]
    exact Frame.Fresh.ofPlaced _ _
  · rw [← Frame.rules_ofBlock site rules nesting, ← Frame.map_toPlaced_entries, ← Frame.map_toPlaced_entries]
    exact replaced

end Eval

/-- A search through a namespace finds what the rest of its path leads to along the rules that are
    written in the namespace. Whenever such a block is entered, its frame holds these rules with
    their imports replaced, so the same path finds all this there and in the same order, together
    with what it leads to along the rules that files brought. The two agree where the path leads
    nowhere along those, and so for every block without imports. -/
theorem namespaces_hide_imported_rules (setting : Setting) (s : Evaluation) (id : FrameId)
    (fresh : (s.frames.get id).Fresh) (name next : String) (rest : List String) :
    Eval.Finds setting s Reached.callable (searchFrame (name :: next :: rest) id)
      ((((s.frames.get id).answering name).filter Callable.isNamespace).flatMap fun c =>
        Callable.along (next :: rest) (Placed.ofBlock c.site c.rules)) ∧
    ∀ (c : Callable) (env inner : Environment) (nesting : Nat) (t u : Evaluation),
      enterBlock env c.site c.rules nesting setting t = (.ok inner, u) →
      ∃ brought entered, inner = env.push t.frames.size ∧
        ImportsReplaced u.importer.cache (Placed.ofBlock c.site c.rules)
          (u.frames.get t.frames.size).rules brought ∧
        Eval.Finds setting u Reached.callable
          (searchFrame (next :: rest) t.frames.size) entered ∧
        let own := Callable.along (next :: rest) (Placed.ofBlock c.site c.rules)
        own.Sublist entered ∧
          entered.Perm (own ++ Callable.along (next :: rest) brought) ∧
          (own = entered ↔ Callable.along (next :: rest) brought = []) ∧
          ((∀ rule ∈ c.rules, Compiler.isImport rule = false) → own = entered) := by
  constructor
  · exact searchFrame_finds (name :: next :: rest) id s fresh
  · intro c env inner nesting t u entered
    obtain ⟨isInner, freshToo, brought, replaced⟩ :=
      (enterBlock_replaces env c.site c.rules nesting).result entered
    have agree := replaced.along_eq_iff (next :: rest)
    refine ⟨brought, _, isInner, replaced,
      searchFrame_finds (next :: rest) t.frames.size u freshToo,
      replaced.along_sublist (next :: rest), replaced.along_perm (next :: rest), agree, ?_⟩
    intro written
    have nothing : brought = [] := by
      apply replaced.brought_eq_nil
      intro p member
      apply written p.rule
      rw [← Placed.ofBlock_rules c.site c.rules]
      exact List.mem_map_of_mem member
    rw [agree, nothing, Callable.along_nil]

/-- `.y() { } @import (multiple) "lib";` -/
def importingBlock : List Rule :=
  [.mixin ⟨".y", [], none, Span.none⟩ [],
    .fileImport ⟨.quoted "lib" (some '"'), { multiple := true }, none, Span.none⟩]

def importingNamespace : Evaluation :=
  { frames := ⟨#[Frame.ofBlock (.written 0 [])
      [.ruleset [⟨[⟨.attached, .literal "#ns"⟩]⟩] importingBlock Span.none] 0]⟩ }

/-- The file has a mixin `.x`. -/
def importingNamespace.files : Setting :=
  { loader := ({} : Loader).insert ⟨"lib.less"⟩ ".x() \x7b color: red; \x7d" }

def importingNamespace.entered : Except Failure Environment × Evaluation :=
  enterBlock ⟨[0], []⟩ (.written 0 [0]) importingBlock 0 importingNamespace.files
    importingNamespace

/-- The number of callables that a path finds from a frame. -/
def importingNamespace.found (path : List String) (id : FrameId) (s : Evaluation) : Option Nat :=
  (searchFrame path id importingNamespace.files s).1.toOption.map List.length

theorem importingNamespace.found_entered :
    importingNamespace.entered.1.isOk = true ∧
      importingNamespace.found [".x"] 1 importingNamespace.entered.2 = some 1 := by
  decide +kernel

theorem importingNamespace_hides_lib :
    (importingNamespace.frames.get 0).Fresh ∧
      importingNamespace.found ["#ns", ".x"] 0 importingNamespace = some 0 ∧
      ∃ inner u brought, importingNamespace.entered = (.ok inner, u) ∧
        ImportsReplaced u.importer.cache (Placed.ofBlock (.written 0 [0]) importingBlock)
          (u.frames.get 1).rules brought ∧
        (Callable.along [".x"] brought).length = 1 := by
  have fresh : (importingNamespace.frames.get 0).Fresh := Frame.Fresh.ofPlaced _ _
  obtain ⟨searched, entering⟩ := namespaces_hide_imported_rules importingNamespace.files
    importingNamespace 0 fresh "#ns" ".x" []
  refine ⟨fresh, ?_, ?_⟩
  · rcases run : searchFrame ["#ns", ".x"] 0 importingNamespace.files importingNamespace with
      ⟨f | found, t⟩
    · exact (searched.failure run).elim
    · have none : found.map Reached.callable = [] := (searched.result run).1
      have empty : found = [] := List.map_eq_nil_iff.mp none
      simp only [importingNamespace.found, run, empty]
      rfl
  · obtain ⟨isOk, found⟩ := importingNamespace.found_entered
    rcases run : importingNamespace.entered with ⟨f | inner, u⟩
    · rw [run] at isOk
      cases isOk
    · rw [run] at found
      obtain ⟨brought, entered, -, replaced, searched, -, perm, -⟩ := entering
        (.ruleset (.written 0 [0]) [⟨[⟨.attached, .literal "#ns"⟩]⟩] importingBlock) ⟨[0], []⟩ inner
        0 importingNamespace u run
      refine ⟨inner, u, brought, rfl, replaced, ?_⟩
      have one : entered.length = 1 := by
        rcases run : searchFrame [".x"] 1 importingNamespace.files u with ⟨f | seen, w⟩
        · exact (searched.failure run).elim
        · have same : seen.map Reached.callable = entered := (searched.result run).1
          rw [← same, List.length_map]
          simpa [importingNamespace.found, run, Except.toOption] using found
      have length : entered.length = 0 + (Callable.along [".x"] brought).length :=
        perm.length_eq.trans List.length_append
      omega

/-- In the frame of the block there is a mixin `.x` once the block is entered, and yet the path finds
    nothing, so a sheet that calls it by this path does not compile. -/
theorem lib_is_not_found_through_importingNamespace :
    importingNamespace.found [".x"] 1 importingNamespace.entered.2 = some 1 ∧
      importingNamespace.found ["#ns", ".x"] 0 importingNamespace = some 0 ∧
      (Compiler.compileSource importingNamespace.files
        "#ns \x7b @import (multiple) \"lib\"; \x7d\n.a \x7b #ns > .x(); \x7d").outcome.isOk =
          false := by
  decide +kernel

end StyleResolution
