import StyleResolution.Compiler
import StyleResolution.Proofs.Evaluation.Quiet
import StyleResolution.Proofs.Import.Replaying

/-! # What expanding imports leaves alone

Opening an import may load a file and remember it; the frames keep their rules (`Loads`). Expanding
the imports of a frame changes the rules of that frame, and of no other (`Splices`). Both leave the
scoped part of the state as it was, on every exit, and never forget a loaded file.
-/

namespace StyleResolution

/-- The files in the cache have numbers of their own, and none has the number of the main sheet. -/
structure Numbered (files : List (Option CanonicalPath))
    (cache : List (CanonicalPath × LoadedFile)) : Prop where
  main : 0 < files.length
  inside : ∀ c ∈ cache, 0 < c.2.file ∧ c.2.file < files.length
  distinct : (cache.map (·.2.file)).Nodup

namespace Numbered

variable {files more : List (Option CanonicalPath)} {cache : List (CanonicalPath × LoadedFile)}

theorem mono (numbered : Numbered files cache) (grown : files.length ≤ more.length) :
    Numbered more cache where
  main := Nat.lt_of_lt_of_le numbered.main grown
  inside c cached := by
    have := numbered.inside c cached
    omega
  distinct := numbered.distinct

theorem load (numbered : Numbered files cache) (path : CanonicalPath) (rules : List Rule) :
    Numbered (files ++ [some path]) ((path, ⟨files.length, rules⟩) :: cache) where
  main := by simp
  inside c cached := by
    have main := numbered.main
    simp only [List.length_append, List.length_singleton]
    rcases List.mem_cons.mp cached with rfl | earlier
    · exact ⟨main, Nat.lt_succ_self _⟩
    · have := numbered.inside c earlier
      omega
  distinct := by
    refine List.nodup_cons.mpr ⟨fun member => ?_, numbered.distinct⟩
    obtain ⟨c, cached, same⟩ := List.mem_map.mp member
    have := (numbered.inside c cached).2
    simp only at same
    omega

end Numbered

/-- No frame was made, the scoped state was restored, and files were loaded at most. -/
structure Retains (s s' : Evaluation) : Prop where
  size : s'.frames.size = s.frames.size
  restored : s'.scopedPart = s.scopedPart
  made : s'.made = s.made
  cache : s.importer.cache <:+ s'.importer.cache
  numbered : Numbered s.importer.files s.importer.cache →
    Numbered s'.importer.files s'.importer.cache
  callings : s'.trace.callings = s.trace.callings
  history : ∀ limit, ProperSince limit s.history s'.history

theorem Retains.refl (s : Evaluation) : Retains s s :=
  ⟨rfl, rfl, rfl, List.suffix_rfl, id, rfl, fun _ => .refl _⟩

theorem Retains.trans (first : Retains s t) (second : Retains t u) : Retains s u where
  size := second.size.trans first.size
  restored := second.restored.trans first.restored
  made := second.made.trans first.made
  cache := first.cache.trans second.cache
  numbered := second.numbered ∘ first.numbered
  callings := second.callings.trans first.callings
  history limit := (first.history limit).trans (second.history limit)

/-- The second state comes from the first one by looking names up and by loading files. -/
structure Loads (s s' : Evaluation) : Prop extends Retains s s' where
  frame : ∀ id, (s.frames.get id).Indexed (s'.frames.get id)
  deferred : s'.importer.deferred = s.importer.deferred

namespace Loads

theorem refl (s : Evaluation) : Loads s s :=
  ⟨.refl s, fun _ => .refl _, rfl⟩

theorem trans (first : Loads s t) (second : Loads t u) : Loads s u where
  toRetains := first.toRetains.trans second.toRetains
  frame id := (first.frame id).trans (second.frame id)
  deferred := second.deferred.trans first.deferred

instance : IsPreorder Evaluation Loads where
  refl := refl
  trans _ _ _ := trans

theorem entries (loads : Loads s s') (id : FrameId) :
    (s'.frames.get id).entries = (s.frames.get id).entries :=
  (loads.frame id).entries

end Loads

theorem Quiet.loads (quiet : Quiet s s') : Loads s s' where
  size := quiet.size
  frame := quiet.frame
  restored := quiet.restored
  made := quiet.made
  deferred := by rw [quiet.importer]
  cache := quiet.importer ▸ List.suffix_rfl
  numbered := quiet.importer ▸ id
  callings := congrArg Trace.callings quiet.trace
  history := quiet.history

/-- The second state comes from the first one by changing the rules of one frame and by loading
    files. -/
structure Splices (id : FrameId) (s s' : Evaluation) : Prop extends Retains s s' where
  other : ∀ j, j ≠ id → (s.frames.get j).Indexed (s'.frames.get j)
  base : (s'.frames.get id).base = (s.frames.get id).base

namespace Splices

variable {id : FrameId}

theorem refl (id : FrameId) (s : Evaluation) : Splices id s s :=
  ⟨.refl s, fun _ _ => .refl _, rfl⟩

theorem trans (first : Splices id s t) (second : Splices id t u) : Splices id s u where
  toRetains := first.toRetains.trans second.toRetains
  other j ne := (first.other j ne).trans (second.other j ne)
  base := second.base.trans first.base

instance : IsPreorder Evaluation (Splices id) where
  refl := refl id
  trans _ _ _ := trans

end Splices

theorem Loads.splices (loads : Loads s s') (id : FrameId) : Splices id s s' where
  toRetains := loads.toRetains
  other j _ := loads.frame j
  base := (loads.frame id).base

namespace Eval

variable {α : Type} {setting : Setting}

theorem Keeps.loads (h : Keeps setting Quiet x) : Keeps setting Loads x :=
  fun s => (h s).loads

theorem Keeps.splices (h : Keeps setting Loads x) (id : FrameId) : Keeps setting (Splices id) x :=
  fun s => (h s).splices id

/-! ## Opening imports -/

theorem setSpan_loads (span : Span) : Keeps setting Loads (setSpan span) :=
  .change fun s => { Loads.refl s with }

theorem emit_loads (e : Event) : Keeps setting Loads (emit e) :=
  (emit_quiet e).loads

theorem registerSheet_loads (sheet : Stylesheet) :
    Keeps setting Loads (Compiler.registerSheet sheet) := by
  unfold Compiler.registerSheet
  split
  · refine .bind .ofSetting fun _ => ?_
    split
    · refine .change fun s => { Loads.refl s with numbered := fun numbered => numbered.mono ?_ }
      have := numbered.main
      simp only [Importer.setMain, List.length_cons, List.length_tail]
      omega
    · exact emit_loads _
  · exact .pure _

theorem importPath_loads (env : Environment) (i : Import) : Keeps setting Loads (importPath env i) := by
  refine .bind (setSpan_loads _) fun _ =>
    .bind ((value_quiet env i.path).locatedAt _).loads fun path => ?_
  split <;> exact .pure _

theorem loadFile_loads (path : CanonicalPath) : Keeps setting Loads (loadFile path) := by
  refine .of_ends fun s => ?_
  unfold loadFile
  refine .ofState ?_
  split
  · exact .change (.pure { Loads.refl s with })
  · refine .change (.ofSetting ?_)
    split
    · exact .failWith { Loads.refl s with }
    · rename_i source _
      refine .ofState (.change ?_)
      cases Stylesheet.read source s.importer.files.length (some path.toPath) with
      | error f =>
        exact { Loads.refl s with numbered := fun numbered => numbered.mono (by simp) }
      | ok sheet =>
        refine .bind_of_ok rfl (.change (.pure { Loads.refl s with
          cache := List.suffix_cons _ _
          numbered := fun numbered => numbered.load path sheet.rules }))

/-- What opening an import keeps depends on what is done to the tables and on how files are loaded. -/
theorem Keeps.openings [IsPreorder Evaluation R] (emits : ∀ e, Keeps setting R (emit e))
    (resolves : ∀ found, Keeps setting R (changeImporter fun i => { i with resolved := found :: i.resolved }))
    (marks : ∀ path, Keeps setting R (changeImporter fun i => { i with imported := path :: i.imported }))
    (loads : ∀ path, Keeps setting R (loadFile path)) :
    Composes.Openings fun _ x _ => Keeps setting R x where
  toComposes := Keeps.composes
  emit := emits
  fail := .fail
  resolve := resolves
  mark := marks
  load := loads
  withinDepth path h := .bind .ofSetting fun _ => .bind .ofState fun _ => by
    split
    · exact .failWith _
    · exact h

theorem openings_loads : Composes.Openings fun _ x _ => Keeps setting Loads x :=
  Keeps.openings emit_loads (fun _ => Keeps.change fun s => { Loads.refl s with })
    (fun _ => .change fun s => { Loads.refl s with }) loadFile_loads

theorem openImport_loads (i : Import) (path : String) : Keeps setting Loads (openImport i path) :=
  openings_loads.openImport i path

theorem noteOpening_loads (i : Import) (path : String) :
    Keeps setting Loads (noteOpening i path (openImport i path)) :=
  (openImport_loads i path).noteOpening (fun _ _ _ loads => { loads with }) i path

/-! ## Changing the rules of one frame -/

theorem changeFrame_splices (id : FrameId) (kept : ∀ g, (f g).base = g.base) :
    Keeps setting (Splices id) (changeFrame id f) := by
  refine .change fun s => { Splices.refl id s with
    size := by simp
    other := fun j ne => .inl (Frames.get_modify_of_ne _ ne _)
    base := ?_ }
  by_cases inside : id < s.frames.size
  · exact (congrArg (·.base) (Frames.get_modify_self inside f)).trans (kept _)
  · exact congrArg (·.base) (Frames.get_modify_of_size_le (Nat.le_of_not_lt inside) f id)

theorem whileImporting_splices {id : FrameId} {x : Eval α} (h : Keeps setting (Splices id) x) :
    Keeps setting (Splices id) (whileImporting x) := by
  refine h.between fun s s' splices => { splices with restored := ?_ }
  have parts := splices.restored
  simp only [Evaluation.scopedPart, Scoped.mk.injEq] at parts ⊢
  simp [parts]

theorem atBaseDepth_splices {id : FrameId} {x : Eval α} (depth : Nat) (h : Keeps setting (Splices id) x) :
    Keeps setting (Splices id) (atBaseDepth depth x) := by
  intro s
  have splices := h { s with importer := { s.importer with baseDepth := depth } }
  refine { splices with restored := ?_ }
  have parts := splices.restored
  simp only [Evaluation.scopedPart, Scoped.mk.injEq] at parts ⊢
  exact ⟨parts.1, parts.2.1, parts.2.2.1, parts.2.2.2.1, rfl, parts.2.2.2.2.2⟩

theorem imports_splices (id : FrameId) :
    Composes.Imports (fun _ x _ => Keeps setting (Splices id) x) id where
  toComposes := Keeps.composes
  emit e := (emit_loads e).splices id
  exhausted := .failWith _
  path env i := (importPath_loads env i).splices id
  opening i text := ((noteOpening_loads i text).locatedAt i.span).splices id
  splice _ kept := changeFrame_splices id kept
  defer _ _ := Keeps.change fun s => { Splices.refl _ s with }
  whileImporting := whileImporting_splices

theorem replaceImport_splices (id : FrameId) (env : Environment) (position : Nat) (site : Site)
    (i : Import) : Keeps setting (Splices id) (replaceImport id env position site i) :=
  (imports_splices id).replaceImport env position site i

theorem spliceImport_splices {expandAt : Nat → Nat → Eval Nat} {id : FrameId}
    (h : ∀ position count, Keeps setting (Splices id) (expandAt position count)) (env : Environment)
    (position : Nat) (site : Site) (i : Import) :
    Keeps setting (Splices id) (spliceImport expandAt id env position site i) :=
  @Composes.Imports.spliceImport _ id (imports_splices id) _ expandAt h env position site i

theorem expandRange_splices {expandAt : Nat → Nat → Eval Nat} {id : FrameId}
    (h : ∀ position count, Keeps setting (Splices id) (expandAt position count)) (env : Environment)
    (defer : Bool) (position count : Nat) :
    Keeps setting (Splices id) (expandRange expandAt id env defer position count) :=
  @Composes.Imports.expandRange _ id (imports_splices id) _ expandAt h env defer position count

theorem expandWithin_splices (id : FrameId) (env : Environment) (defer : Bool) (levels : Nat)
    (position count : Nat) :
    Keeps setting (Splices id) (expandWithin id env defer levels position count) :=
  (imports_splices id).expandWithin env defer levels position count

theorem importLevels_splices (id : FrameId) : Keeps setting (Splices id) importLevels :=
  .bind .ofSetting fun _ => .pure _

theorem expandImports_splices (id : FrameId) (env : Environment) (defer : Bool) :
    Keeps setting (Splices id) (expandImports id env defer) :=
  (imports_splices id).expandImports (importLevels_splices id) atBaseDepth_splices env defer

/-! ## Frames without imports -/

section

variable {s : Evaluation} {id : FrameId}

theorem expandRange_passes (expandAt : Nat → Nat → Eval Nat) (env : Environment) (defer : Bool)
    (entries : (s.frames.get id).entries = before ++ e :: after)
    (other : Compiler.isImport e.rule = false) (count : Nat) :
    expandRange expandAt id env defer before.length (count + 1) setting s =
      expandRange expandAt id env defer (before ++ [e]).length count setting s := by
  have found : (s.frames.get id).entryAt before.length = some e := by
    simp [Frame.entryAt_eq, entries]
  rw [expandRange, bind_apply]
  simp only [frame, bind_apply, state, pure_apply, found]
  refine congrFun (congrFun ?_ setting) s
  split
  · rename_i isImport
    cases isImport
    cases other
  · rw [List.length_append, List.length_singleton]

theorem expandRange_passesAll (expandAt : Nat → Nat → Eval Nat) (env : Environment) (defer : Bool)
    {before range after : List Entry} (entries : (s.frames.get id).entries = before ++ range ++ after)
    (others : ∀ e ∈ range, Compiler.isImport e.rule = false) (count : Nat) :
    expandRange expandAt id env defer before.length (range.length + count) setting s =
      expandRange expandAt id env defer (before ++ range).length count setting s := by
  induction range generalizing before with
  | nil => simp
  | cons e range ih =>
    simp only [List.forall_mem_cons] at others
    rw [List.length_cons, Nat.add_right_comm,
      expandRange_passes expandAt env defer (by simpa using entries) others.1,
      ih (by simpa using entries) others.2, List.append_assoc, List.singleton_append]

theorem expandRange_idle (expandAt : Nat → Nat → Eval Nat) (env : Environment) (defer : Bool)
    {before range after : List Entry} (entries : (s.frames.get id).entries = before ++ range ++ after)
    (others : ∀ e ∈ range, Compiler.isImport e.rule = false) :
    expandRange expandAt id env defer before.length range.length setting s =
      (.ok (before.length + range.length), s) := by
  refine (expandRange_passesAll expandAt env defer entries others 0).trans ?_
  rw [List.length_append]
  rfl

theorem expandImports_of_no_import
    (plain : ∀ e ∈ (s.frames.get id).entries, Compiler.isImport e.rule = false)
    (env : Environment) (defer : Bool) : expandImports id env defer setting s = (.ok (), s) := by
  let entered : Evaluation :=
    { s with importer := { s.importer with baseDepth := (s.frames.get id).base } }
  have whole : (entered.frames.get id).entries = [] ++ (s.frames.get id).entries ++ [] :=
    (List.append_nil _).symm
  have expanded := @expandRange_idle setting entered id
    (expandWithin id env defer setting.options.maxImportDepth) env defer _ _ _ whole plain
  simp only [expandImports, bind_apply, frame, state, pure_apply, importLevels, Eval.setting,
    atBaseDepth, between, expandWithin, ← Frame.length_entries]
  rw [← List.length_nil (α := Entry), expanded]

end

/-! ## Replaying deferred imports -/

theorem takeDeferred_splices (id : FrameId) : Keeps setting (Splices id) takeDeferred :=
  fun s => { Splices.refl _ s with }

theorem deferAll_splices (id : FrameId) (queue : List DeferredImport) :
    Keeps setting (Splices id) (deferAll queue) :=
  .change fun s => { Splices.refl _ s with }

theorem spliceDeferred_splices (root : FrameId) (d : DeferredImport) (site : Site) (i : Import) :
    Keeps setting (Splices root) (spliceDeferred root d site i) :=
  .bind (importLevels_splices root) fun _ => atBaseDepth_splices _ <|
    spliceImport_splices (expandWithin_splices root d.scope true _) _ _ _ _

theorem tryDeferred_splices (root : FrameId) (d : DeferredImport) (site : Site) (i : Import) :
    Keeps setting (Splices root) (tryDeferred root d site i) :=
  (spliceDeferred_splices root d site i).attempt

theorem replays_splices (root : FrameId) (s : Evaluation) :
    Replays setting root (fun _ => Splices root s) fun _ => Splices root s where
  requeue _ _ since := since.trans { Splices.refl _ _ with }
  splice _ since := by
    simp only [ite_self]
    exact ((spliceDeferred_splices root _ _ _).ends setting _).mono
      (fun _ _ later => since.trans later) fun _ _ later => since.trans later
  forget := id
  stuck := id
  exhausted := id

theorem replayPass_splices (root : FrameId) (pending : List DeferredImport) (pass : Pass) :
    Keeps setting (Splices root) (replayPass root pending pass) :=
  .of_ends fun s => (replays_splices root s).replayPass pending pass (.refl root s)

theorem replayOnce_splices (root : FrameId) : Keeps setting (Splices root) (replayOnce root) :=
  .of_ends fun s => (replays_splices root s).replayOnce (.refl root s)

theorem replayDeferred_splices (root : FrameId) (width : Nat) :
    Keeps setting (Splices root) (replayDeferred root width) :=
  .of_ends fun s => (replays_splices root s).replayDeferred (.refl root s) width

end Eval

end StyleResolution
