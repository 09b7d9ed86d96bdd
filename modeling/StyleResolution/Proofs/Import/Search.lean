import StyleResolution.Import.Opening
import StyleResolution.Proofs.Evaluation.Ending
import StyleResolution.Proofs.Import.Canonical

/-! # Where a reference leads

A reference leads to the first file of its name, in the directory it is seen from and then in the
include paths. Directories with the same components lead to the same files, so an answer that was
remembered for one of them is an answer for all.
-/

namespace StyleResolution

/-! ## The search -/

/-- The file that a reference names, seen from a directory: the first that there is in the directory
    and then in the include paths. Without a directory, the reference is taken as it is. -/
def Setting.search (setting : Setting) (reference : String) (dir : Option Path) :
    Option CanonicalPath :=
  ((dir.getD ⟨""⟩ :: setting.options.includePaths).map fun place =>
    CanonicalPath.ofPath (place.join (fileNameOf reference))).find? fun path =>
      setting.loader.contains path.toPath

def Setting.mainPath (setting : Setting) (sheet : Stylesheet) : Option CanonicalPath :=
  sheet.path.bind fun path => (setting.loader.normalize path).toOption

variable {setting : Setting}

theorem Setting.search_congr (same : Importer.sameDir dir dir') (reference : String) :
    setting.search reference dir = setting.search reference dir' := by
  cases dir with
  | none =>
    cases dir' with
    | none => rfl
    | some _ => simp [Importer.sameDir] at same
  | some d =>
    cases dir' with
    | none => simp [Importer.sameDir] at same
    | some d' => simp [search, CanonicalPath.ofPath_join_congr same]

/-- Paths are resolved by their text alone, and only the canonical form of a path matters. -/
structure Sources.Lexical (sources : Sources) : Prop where
  normalize : ∀ path, sources.normalize path = .ok (.ofPath path)
  contains : ∀ p q, CanonicalPath.ofPath p = .ofPath q → sources.contains p = sources.contains q

theorem Loader.lexical {loader : Loader} (memory : loader.unresolvable = []) :
    loader.toSources.Lexical where
  normalize path := by simp [toSources, Loader.normalize, memory]
  contains p q same := by simp [toSources, Loader.contains, same]

theorem Setting.search_eq (lexical : setting.loader.Lexical) (reference : String)
    (dir : Option Path) : setting.search reference dir =
      ((searchPlaces reference dir setting.options.includePaths).find?
        setting.loader.contains).map CanonicalPath.ofPath := by
  have same : ∀ place, setting.loader.contains (CanonicalPath.ofPath place).toPath =
      setting.loader.contains place := fun place =>
    lexical.contains _ _ (CanonicalPath.ofPath_toPath fun _ => CanonicalPath.isSegment_of_mem)
  simp only [search, searchPlaces, List.find?_map, Option.map_map, Function.comp_def, same]

namespace Importer

def Remembers (setting : Setting) (i : Importer) : Prop :=
  ∀ r ∈ i.resolved, setting.search r.reference r.dir = some r.path

theorem Remembers.search_eq {i : Importer} (remembers : i.Remembers setting)
    (known : i.known? reference dir = some path) : setting.search reference dir = some path := by
  obtain ⟨r, found, rfl⟩ := Option.map_eq_some_iff.mp known
  have matched := List.find?_some found
  simp only [Bool.and_eq_true, beq_iff_eq] at matched
  rw [← matched.1, ← Setting.search_congr matched.2]
  exact remembers r (List.mem_of_find?_eq_some found)

end Importer

def Setting.answer (setting : Setting) (reference : String) (dir : Option Path) :
    Except Cause CanonicalPath :=
  match setting.search reference dir with
  | some path => .ok path
  | none => .error (.fileNotFound reference
      (searchPlaces reference dir setting.options.includePaths))

namespace Eval

/-- Whether the answer is remembered or not, a reference is resolved as the search does. Nothing but
    the answer is remembered. -/
theorem resolveReference_searches (lexical : setting.loader.Lexical) {s : Evaluation}
    (remembers : s.importer.Remembers setting) (reference : String) (dir : Option Path) :
    Ends setting s (resolveReference reference dir)
      (fun found s' => found = setting.answer reference dir ∧ ∃ resolved,
        s' = { s with importer := { s.importer with resolved } } ∧ s'.importer.Remembers setting)
      (fun _ _ => False) := by
  unfold resolveReference
  apply Ends.ofState
  split
  · rename_i path known
    have found := remembers.search_eq known
    exact Ends.pure ⟨by simp [Setting.answer, found], s.importer.resolved, rfl, remembers⟩
  · refine Ends.ofSetting (Ends.ofSetting ?_)
    have searched := setting.search_eq lexical reference dir
    dsimp only
    split
    · rename_i missing
      rw [missing] at searched
      exact Ends.pure ⟨by simp [Setting.answer, searched], s.importer.resolved, rfl, remembers⟩
    · rename_i place found
      rw [found] at searched
      rw [lexical.normalize]
      refine Ends.change (Ends.pure ⟨by simp [Setting.answer, searched], _, rfl, ?_⟩)
      intro r member
      cases List.mem_cons.mp member with
      | inl new => simpa [new] using searched
      | inr old => exact remembers r old

end Eval

end StyleResolution
