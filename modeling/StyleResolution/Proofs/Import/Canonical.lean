import Mathlib.Data.List.Induction
import StyleResolution.Loader

/-! # Canonical paths as keys

A canonical path leads down from the root, one named directory after the other. Read as a path it is
its own canonical form, and a relative path goes on from it as from any spelling of it. So sources can
be kept under canonical paths: every spelling of a path finds what was put there last.
-/

namespace StyleResolution

namespace Path

/-! ## The steps of a path -/

theorem splitSlashes_ne_nil (text : List Char) : splitSlashes text ≠ [] := by
  cases text with
  | nil => simp [splitSlashes]
  | cons c rest =>
    unfold splitSlashes
    split
    · simp
    · split <;> simp

theorem splitSlashes_append (front back : List Char) :
    splitSlashes (front ++ '/' :: back) = splitSlashes front ++ splitSlashes back := by
  induction front with
  | nil => simp [splitSlashes]
  | cons c front ih =>
    by_cases slash : c = '/'
    · simp [splitSlashes, slash, ih]
    · cases parts : splitSlashes front with
      | nil => exact absurd parts (splitSlashes_ne_nil front)
      | cons part rest => simp [splitSlashes, slash, ih, parts]

/-- The components that lead somewhere. -/
def steps (p : Path) : List PathComponent :=
  (splitSlashes p.text.toList).filterMap componentOf

/-- A directory ends in a slash or not; a relative path goes on from it all the same. -/
theorem steps_join (dir file : Path) :
    (dir.join file).steps = if file.isAbsolute then file.steps else dir.steps ++ file.steps := by
  unfold join
  split
  · rfl
  · cases last : dir.text.toList.getLast? with
    | none =>
      have empty : dir.text.toList = [] := List.getLast?_eq_none_iff.mp last
      simp [steps, empty, splitSlashes, componentOf]
    | some c =>
      obtain ⟨front, ends⟩ := List.getLast?_eq_some_iff.mp last
      by_cases slash : c = '/'
      · simp [steps, slash, ends, splitSlashes_append, splitSlashes, componentOf]
      · simp [steps, slash, splitSlashes_append]

theorem steps_eq_filter (p : Path) :
    p.steps = p.components.filter fun c => c != .root && c != .current := by
  have leads : ∀ c ∈ p.steps, c ≠ .root ∧ c ≠ .current := by
    intro c member
    obtain ⟨part, -, made⟩ := List.mem_filterMap.mp member
    unfold componentOf at made
    split at made
    · cases made
    · split at made <;> cases made <;> simp
  have all : p.steps.filter (fun c => c != .root && c != .current) = p.steps :=
    List.filter_eq_self.mpr fun c member => by simp [leads c member]
  have none : p.leading.filter (fun c => c != .root && c != .current) = [] := by
    unfold leading
    split
    · rfl
    · split <;> rfl
  rw [components, List.filter_append, none, List.nil_append]
  exact all.symm

theorem steps_eq_of_sameComponents {p q : Path} (same : p.sameComponents q) : p.steps = q.steps := by
  have equal : p.components = q.components := by simpa [sameComponents] using same
  rw [steps_eq_filter, steps_eq_filter, equal]

end Path

namespace CanonicalPath

theorem ofPath_eq (p : Path) : ofPath p = ⟨p.steps.foldl step []⟩ := by
  have leads : p.leading.foldl step [] = [] := by
    unfold Path.leading
    split
    · rfl
    · split <;> rfl
  rw [ofPath, Path.components, List.foldl_append, leads]
  rfl

theorem ofPath_join_congr {dir dir' : Path} (same : dir.sameComponents dir') (file : Path) :
    ofPath (dir.join file) = ofPath (dir'.join file) := by
  simp only [ofPath_eq, Path.steps_join, Path.steps_eq_of_sameComponents same]

end CanonicalPath

namespace Path

theorem not_mem_of_mem_splitSlashes (member : part ∈ splitSlashes cs) : '/' ∉ part := by
  fun_induction splitSlashes cs generalizing part with
  | case1 => simp_all
  | case2 c rest _ ih =>
    cases List.mem_cons.mp member with
    | inl own => simp [own]
    | inr later => exact ih later
  | case3 => simp_all [Ne.symm]
  | case4 c rest other first parts split ih =>
    rw [split] at ih
    cases List.mem_cons.mp member with
    | inl own =>
      have tail : '/' ∉ first := ih List.mem_cons_self
      rw [own, List.mem_cons, not_or]
      exact ⟨fun slash => other (by simp [← slash]), tail⟩
    | inr later => exact ih (List.mem_cons_of_mem _ later)

theorem splitSlashes_of_not_mem (none : '/' ∉ cs) : splitSlashes cs = [cs] := by
  induction cs with
  | nil => rfl
  | cons c rest ih =>
    simp only [List.mem_cons, not_or] at none
    simp [splitSlashes, Ne.symm none.1, ih none.2]

end Path

namespace CanonicalPath

/-- Whether the text names a directory or a file in the directory above it. -/
def IsSegment (segment : String) : Prop :=
  segment ∉ ["", ".", ".."] ∧ '/' ∉ segment.toList

theorem IsSegment.component {segment : String} (h : IsSegment segment) :
    Path.componentOf segment.toList = some (.name segment.toList) := by
  have other := h.1
  simp only [List.mem_cons, List.not_mem_nil, or_false, not_or, ← String.toList_inj] at other
  simp_all [Path.componentOf]

theorem isSegment_of_component (made : Path.componentOf part = some (.name name))
    (none : '/' ∉ part) : IsSegment (String.ofList name) := by
  unfold Path.componentOf at made
  split at made
  · cases made
  · split at made <;> cases made
    refine ⟨?_, by simpa using none⟩
    simp_all [← String.toList_inj]

/-- Every step adds a name, or takes the last one away. -/
theorem isSegment_foldl {steps : List PathComponent} {before : List String}
    (named : ∀ name, .name name ∈ steps → IsSegment (String.ofList name))
    (old : ∀ segment ∈ before, IsSegment segment) :
    ∀ segment ∈ steps.foldl step before, IsSegment segment := by
  induction steps generalizing before with
  | nil => exact old
  | cons c steps ih =>
    refine ih (fun name later => named name (List.mem_cons_of_mem _ later)) ?_
    cases c with
    | root | current => exact old
    | parent => exact fun segment kept => old segment (List.dropLast_subset _ kept)
    | name part =>
      intro segment kept
      cases List.mem_append.mp kept with
      | inl before => exact old segment before
      | inr new =>
        rw [List.mem_singleton.mp new]
        exact named part List.mem_cons_self

theorem isSegment_of_mem {p : Path} {segment : String} (member : segment ∈ (ofPath p).segments) :
    IsSegment segment := by
  rw [ofPath_eq] at member
  refine isSegment_foldl (fun name isStep => ?_) (by simp) segment member
  obtain ⟨part, inside, made⟩ := List.mem_filterMap.mp isStep
  exact isSegment_of_component made (Path.not_mem_of_mem_splitSlashes inside)

variable {c : CanonicalPath} (valid : ∀ segment ∈ c.segments, IsSegment segment)

include valid

theorem splitSlashes_join : (Path.splitSlashes (Text.join "/" c.segments).toList).filterMap
    Path.componentOf = c.segments.map fun segment => .name segment.toList := by
  obtain ⟨segments⟩ := c
  induction segments with
  | nil => rfl
  | cons first rest ih =>
    obtain ⟨own, later⟩ := List.forall_mem_cons.mp valid
    cases rest with
    | nil => simp [Path.splitSlashes_of_not_mem own.2, own.component]
    | cons next rest =>
      have more := ih later
      simp only [List.map_cons] at more ⊢
      simp [Text.join_cons_cons, Path.splitSlashes_append, Path.splitSlashes_of_not_mem own.2,
        own.component, more]

theorem steps_toPath : c.toPath.steps = c.segments.map fun segment => .name segment.toList := by
  rw [← splitSlashes_join valid]
  simp [Path.steps, toPath, text, Path.splitSlashes, Path.componentOf]

theorem ofPath_toPath : ofPath c.toPath = c := by
  rw [ofPath_eq, steps_toPath valid]
  obtain ⟨segments⟩ := c
  suffices ∀ before, (segments.map fun segment => PathComponent.name segment.toList).foldl step
      before = before ++ segments by simp [this]
  clear valid
  induction segments with
  | nil => simp
  | cons first rest ih =>
    intro before
    simp [step, ih]

end CanonicalPath

open CanonicalPath

/-- A relative path goes on from the canonical form of a directory as from the directory. -/
theorem ofPath_join_toPath (dir file : Path) :
    ofPath ((ofPath dir).toPath.join file) = ofPath (dir.join file) := by
  have same := ofPath_toPath fun _ => isSegment_of_mem (p := dir)
  rw [ofPath_eq, ofPath_eq dir, CanonicalPath.mk.injEq] at same
  rw [ofPath_eq (Path.join _ _), ofPath_eq (Path.join _ _), Path.steps_join, Path.steps_join]
  split
  · rfl
  · rw [List.foldl_append, List.foldl_append, ofPath_eq dir, same]

/-- The loader after the sources were put in it, from left to right. -/
def Loader.holding (inserts : List (Path × String)) : Loader :=
  inserts.foldl (fun loader file => loader.insert file.1 file.2) {}

theorem Loader.holding_concat (inserts : List (Path × String)) (path : Path) (source : String) :
    holding (inserts ++ [(path, source)]) = (holding inserts).insert path source := by
  simp [holding]

theorem Loader.memory_holding (inserts : List (Path × String)) :
    (holding inserts).unreadable = [] ∧ (holding inserts).unresolvable = [] := by
  induction inserts using List.reverseRecOn with
  | nil => exact ⟨rfl, rfl⟩
  | append_singleton inserts file ih =>
    rw [holding_concat]
    exact ih

theorem Loader.source?_holding (inserts : List (Path × String)) (path : CanonicalPath) :
    (holding inserts).source? path =
      (inserts.reverse.find? fun file => ofPath file.1 == path).map (·.2) := by
  induction inserts using List.reverseRecOn with
  | nil => rfl
  | append_singleton inserts file ih =>
    rw [holding_concat, List.reverse_concat, List.find?_cons]
    simp only [source?, insert, List.lookup_cons, BEq.comm (a := path)] at ih ⊢
    split
    · rfl
    · exact ih

/-- Canonical paths are sound keys. The canonical form of a path is absolute, has no empty
    components and neither `.` nor `..`, and is its own canonical form; a path seen from a directory
    has the same canonical form whatever spelling of the directory is used. After any inserts a path
    exists if and only if some source was inserted under its canonical form, and then loading it gives
    the last of them; otherwise loading fails. -/
theorem canonical_paths_are_keys (p q : Path) (inserts : List (Path × String)) :
    let loader := Loader.holding inserts
    let loaded := loader.normalize q >>= loader.load
    (ofPath (ofPath p).toPath = ofPath p ∧ (ofPath p).toPath.isAbsolute = true ∧
      (ofPath p).toPath.components = .root :: (ofPath p).segments.map (.name ·.toList) ∧
      (∀ segment ∈ (ofPath p).segments, IsSegment segment) ∧
      ofPath (p.join q) = ofPath ((ofPath p).toPath.join q)) ∧
    (loader.contains q = true ↔ ∃ file ∈ inserts, ofPath file.1 = ofPath q) ∧
    ((∃ before file after, inserts = before ++ file :: after ∧ ofPath file.1 = ofPath q ∧
        (∀ later ∈ after, ofPath later.1 ≠ ofPath q) ∧
        loader.contains q = true ∧ loaded = .ok file.2) ∨
      loader.contains q = false ∧
        loaded = .error ((ofPath q).text ++ " is not loaded in memory")) := by
  intro loader loaded
  have valid : ∀ segment ∈ (ofPath p).segments, IsSegment segment := fun _ => isSegment_of_mem
  have absolute : (ofPath p).toPath.isAbsolute = true := by
    simp [toPath, text, Path.isAbsolute]
  have components : (ofPath p).toPath.components =
      .root :: (ofPath p).segments.map (.name ·.toList) := by
    rw [← steps_toPath valid, Path.components, Path.leading, if_pos absolute]
    rfl
  obtain ⟨readable, resolvable⟩ := Loader.memory_holding inserts
  have normal : loaded = loader.load (ofPath q) := by
    simp only [loaded, loader, Loader.normalize, resolvable]
    rfl
  have held : loader.source? (ofPath q) = _ := Loader.source?_holding inserts (ofPath q)
  refine ⟨⟨ofPath_toPath valid, absolute, components, valid, (ofPath_join_toPath p q).symm⟩, ?_, ?_⟩
  · simp [Loader.contains, held]
  · rw [normal, Loader.contains, Loader.load, show loader.unreadable = [] from readable, held]
    cases found : inserts.reverse.find? fun file => ofPath file.1 == ofPath q with
    | none => exact .inr ⟨rfl, rfl⟩
    | some file =>
      obtain ⟨same, before, after, split, other⟩ := List.find?_eq_some_iff_append.mp found
      refine .inl ⟨after.reverse, file, before.reverse, ?_, by simpa using same, ?_, rfl, rfl⟩
      · simpa using congrArg List.reverse split
      · simpa using other

end StyleResolution
