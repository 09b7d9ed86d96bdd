import StyleResolution.Proofs.Import.Tables
import StyleResolution.Proofs.Regime.Resolution
import StyleResolution.Proofs.Scope.Blocks

/-! # Where imports come from

However the importer is used, its tables agree. So the number that an import carries always leads
to the file in whose text the import stands, and the import is looked up from the directory of that
file: wherever its rule was spliced, and however often the mixin around it was expanded.
-/

namespace StyleResolution

/-! ## Sequences of calls -/

namespace Importer

/-- What can be asked of an importer. -/
inductive Call where
  | setMain (path : Path)
  | resolve (reference : String) (dir : Option Path)
  | openImport (node : Import) (text : String)
  /-- The rules being expanded are nested in so many imports. -/
  | nest (baseDepth openImports : Nat)
  deriving Repr

/-- Makes a call. All goes on after a failure, unless a file could not be loaded. -/
def Call.perform : Call → Eval Unit
  | .setMain path => Eval.registerMain path
  | .resolve reference dir => do
    let _ ← Eval.resolveReference reference dir
    pure ()
  | .openImport node text => do
    match ← Eval.attempt (Eval.openImport node text) with
    | .ok _ => pure ()
    | .error f => if f.isLoading then Eval.fail f else pure ()
  | .nest baseDepth openImports => Eval.changeImporter fun i => { i with baseDepth, openImports }

def performAll : List Call → Eval Unit
  | [] => pure ()
  | call :: calls => do
    call.perform
    performAll calls

end Importer

/-- The tables of the importer agree, and so does the log of loads. -/
structure Evaluation.Tidy (setting : Setting) (s : Evaluation) : Prop where
  consistent : s.importer.Consistent setting
  loads : s.loads = (s.importer.cache.map Prod.fst).reverse

theorem Evaluation.Tidy.of_logged (tidy : s.Tidy setting)
    (consistent : s'.importer.Consistent setting) (logged : Logged s s') : s'.Tidy setting where
  consistent := consistent
  loads := by
    obtain ⟨new, cache, loads⟩ := logged.grown
    simp [cache, loads, tidy.loads]

namespace Importer

variable {setting : Setting} {s : Evaluation}

theorem perform_tidy (lexical : setting.loader.Lexical) (tidy : s.Tidy setting)
    (call : Call) :
    Eval.Ends setting s call.perform (fun _ s' => s'.Tidy setting) (fun _ _ => True) := by
  have consistent := tidy.consistent
  cases call with
  | setMain path =>
    apply Eval.Ends.ofSetting
    rw [lexical.normalize]
    exact ⟨consistent.setMain _, tidy.loads⟩
  | resolve reference dir =>
    refine Eval.Ends.bind (Eval.resolveReference_searches lexical consistent.remembers reference dir)
      ?_ nofun
    intro found t resolved
    obtain ⟨-, resolved, rfl, remembers⟩ := resolved
    exact Eval.Ends.pure ⟨consistent.resolves remembers, tidy.loads⟩
  | openImport node text =>
    have attempted : Eval.Ends setting s (Eval.attempt (Eval.openImport node text))
        (fun outcome s' => (∀ f, outcome = .error f → f.isLoading = false) → s'.Tidy setting)
        (fun _ _ => False) := by
      apply Eval.Ends.attempt
      refine Eval.Ends.mono (Eval.openImport_consistent lexical consistent node text) ?_ ?_
      · intro opened t ended _
        exact tidy.of_logged ended.1.1 ended.1.2
      · intro f t ended loaded
        obtain ⟨consistent, logged⟩ := ended.1 (loaded f rfl)
        exact tidy.of_logged consistent logged
    refine Eval.Ends.bind attempted ?_ nofun
    intro outcome t ended
    cases outcome with
    | ok opened => exact Eval.Ends.pure (ended (by simp))
    | error f =>
      cases loading : f.isLoading with
      | true =>
        simp only [loading, if_true]
        exact .fail trivial
      | false =>
        simp only [loading, Bool.false_eq_true, if_false]
        exact Eval.Ends.pure (ended (by simpa using loading))
  | nest baseDepth openImports => exact ⟨consistent.nested _ _ _, tidy.loads⟩

theorem performAll_tidy (lexical : setting.loader.Lexical) (calls : List Call)
    (tidy : s.Tidy setting) :
    Eval.Ends setting s (performAll calls) (fun _ s' => s'.Tidy setting) (fun _ _ => True) := by
  induction calls generalizing s with
  | nil => exact .pure tidy
  | cons call calls ih =>
    apply Eval.Ends.seq (perform_tidy lexical tidy call)
    exact fun _ _ tidy => ih tidy

/-! ## The tables, number by number -/

/-- What the tables say about the files with numbers, given the files that were loaded. -/
structure Tabled (setting : Setting) (loads : List CanonicalPath) (i : Importer) : Prop where
  registered : ∀ k, 1 ≤ k → ((i.filePath k).isSome ↔ k ≤ i.cache.length)
  /-- Numbers go no further than there are files to read, so they fit in 32 bits if all files can be
      counted with so many. -/
  bounded : ∀ k, (i.filePath k).isSome → k ≤ setting.loader.paths.length
  distinct : ∀ j k path, 1 ≤ j → 1 ≤ k → i.filePath j = some path → i.filePath k = some path → j = k
  cached : ∀ path, (∃ k, 1 ≤ k ∧ i.filePath k = some path) ↔ (i.cache.lookup path).isSome
  /-- A file is loaded when it gets its number, and never again. -/
  loaded : ∀ path, loads.count path = if (i.cache.lookup path).isSome then 1 else 0
  /-- The cached rules are those of the file, with all positions in the file of that number. -/
  parsed : ∀ k path, 1 ≤ k → i.filePath k = some path →
    ∃ rules, i.cache.lookup path = some ⟨k, rules⟩ ∧ setting.loader.Reads path k rules ∧
      Rule.AllIn k rules
  remembered : ∀ r ∈ i.resolved, setting.search r.reference r.dir = some r.path
  known : ∀ reference dir path, i.known? reference dir = some path →
    setting.search reference dir = some path

theorem Consistent.exists_cached {i : Importer} (consistent : i.Consistent setting)
    (positive : 1 ≤ k) (found : i.filePath k = some path) :
    ∃ c ∈ i.cache, c.1 = path ∧ c.2.file = k := by
  obtain ⟨j, rfl⟩ : ∃ j, k = j + 1 := ⟨k - 1, by omega⟩
  rw [consistent.filePath_succ] at found
  obtain ⟨c, at_, rfl⟩ := Option.map_eq_some_iff.mp found
  exact ⟨c, List.mem_reverse.mp (List.mem_of_getElem? at_), rfl, (consistent.read j c at_).1⟩

theorem isSome_lookup_iff {i : Importer} :
    (i.cache.lookup path).isSome ↔ path ∈ i.cache.map Prod.fst := by
  rw [Option.isSome_iff_ne_none, ne_eq, List.lookup_eq_none_iff]
  constructor
  · intro found
    by_contra absent
    refine found fun c cached => ?_
    have different : path ≠ c.1 := by
      rintro rfl
      exact absent (List.mem_map_of_mem cached)
    simpa using different
  · intro member absent
    obtain ⟨c, cached, rfl⟩ := List.mem_map.mp member
    exact absurd (absent c cached) (by simp)

theorem Consistent.registered {i : Importer} (consistent : i.Consistent setting) (k : Nat) :
    (i.filePath (k + 1)).isSome ↔ k + 1 ≤ i.cache.length := by
  rw [consistent.filePath_succ, Option.isSome_map, isSome_getElem?, List.length_reverse]
  exact Nat.lt_iff_add_one_le

theorem Consistent.length_cache_le {i : Importer} (consistent : i.Consistent setting) :
    i.cache.length ≤ setting.loader.paths.length := by
  have read : ∀ path ∈ i.cache.map Prod.fst, ∃ source, setting.loader.load path = .ok source := by
    intro path member
    obtain ⟨c, cached, rfl⟩ := List.mem_map.mp member
    obtain ⟨source, -, loads, -⟩ := consistent.reads_of_mem cached
    exact ⟨source, loads⟩
  simpa using (Sources.subperm_paths consistent.once read).length_le

theorem tabled_of_tidy (tidy : s.Tidy setting) : s.importer.Tabled setting s.loads where
  registered k positive := by
    obtain ⟨j, rfl⟩ : ∃ j, k = j + 1 := ⟨k - 1, by omega⟩
    exact tidy.consistent.registered j
  bounded k found := by
    cases k with
    | zero => exact Nat.zero_le _
    | succ k =>
      exact ((tidy.consistent.registered k).mp found).trans tidy.consistent.length_cache_le
  distinct j k path fromOne fromOne' found found' := by
    obtain ⟨c, cached, rfl, rfl⟩ := tidy.consistent.exists_cached fromOne found
    obtain ⟨c', cached', same, rfl⟩ := tidy.consistent.exists_cached fromOne' found'
    have first := tidy.consistent.lookup_of_mem cached
    have second := tidy.consistent.lookup_of_mem cached'
    rw [same, first] at second
    exact congrArg LoadedFile.file (Option.some.inj second)
  cached path := by
    rw [isSome_lookup_iff]
    constructor
    · intro numbered
      obtain ⟨k, positive, found⟩ := numbered
      obtain ⟨c, cached, rfl, -⟩ := tidy.consistent.exists_cached positive found
      exact List.mem_map_of_mem cached
    · intro member
      obtain ⟨c, cached, rfl⟩ := List.mem_map.mp member
      obtain ⟨k, at_⟩ := List.getElem?_of_mem (List.mem_reverse.mpr cached)
      refine ⟨c.2.file, ?_, tidy.consistent.filePath_of_mem cached⟩
      rw [(tidy.consistent.read k c at_).1]
      omega
  loaded path := by
    have once : (s.importer.cache.map Prod.fst).reverse.Nodup :=
      List.nodup_reverse.mpr tidy.consistent.once
    rw [tidy.loads]
    by_cases member : path ∈ s.importer.cache.map Prod.fst
    · rw [if_pos (isSome_lookup_iff.mpr member)]
      exact List.count_eq_one_of_mem once (List.mem_reverse.mpr member)
    · rw [if_neg fun found => member (isSome_lookup_iff.mp found)]
      exact List.count_eq_zero_of_not_mem (by simpa using member)
  parsed k path positive found := by
    obtain ⟨c, cached, rfl, rfl⟩ := tidy.consistent.exists_cached positive found
    have reads := tidy.consistent.reads_of_mem cached
    exact ⟨c.2.rules, tidy.consistent.lookup_of_mem cached, reads, reads.allIn⟩
  remembered := tidy.consistent.remembers
  known _ _ _ found := tidy.consistent.remembers.search_eq found

end Importer

/-! ## Imports of a compilation -/

def CanonicalPath.directory? (home : Option CanonicalPath) : Option Path :=
  (home.bind parent?).map toPath

/-- The import stands in the sheet itself, or in the text of an imported file. -/
inductive StandsIn (setting : Setting) (sheet : Stylesheet) (i : Import) :
    Option CanonicalPath → Prop where
  | sheet : i.span.file = 0 → .fileImport i ∈ Rule.partsOf sheet.rules →
      StandsIn setting sheet i (setting.mainPath sheet)
  | file {path : CanonicalPath} {rules : List Rule} :
      setting.loader.Reads path i.span.file rules → .fileImport i ∈ Rule.partsOf rules →
      StandsIn setting sheet i (some path)

/-- But for the variables in its path, the import stands in a file, and it was looked up from the
    directory of that file. -/
def Opening.Grounded (setting : Setting) (sheet : Stylesheet) (o : Opening) : Prop :=
  ∃ written home, StandsIn setting sheet written home ∧
    o.node = { written with path := o.node.path } ∧
    o.before.directory o.node.span.file = CanonicalPath.directory? home ∧
    o.before.Agrees o.node o.path (setting.answer o.path (CanonicalPath.directory? home)) o.outcome

namespace Provenance

variable {setting : Setting} (sheet : Stylesheet)

def Sourced (cache : List (CanonicalPath × LoadedFile)) (i : Import) : Prop :=
  ∃ written, i = { written with path := i.path } ∧
    ((written.span.file = 0 ∧ .fileImport written ∈ Rule.partsOf sheet.rules) ∨
      ∃ c ∈ cache, c.2.file = written.span.file ∧ .fileImport written ∈ Rule.partsOf c.2.rules)

theorem standsIn_of_sourced {importer : Importer} (consistent : importer.Consistent setting)
    (main : importer.filePath 0 = setting.mainPath sheet) (sourced : Sourced sheet importer.cache i) :
    ∃ written, i = { written with path := i.path } ∧
      StandsIn setting sheet written (importer.filePath i.span.file) := by
  obtain ⟨written, same, stands⟩ := sourced
  have file : i.span.file = written.span.file := by rw [same]
  refine ⟨written, same, ?_⟩
  rw [file]
  cases stands with
  | inl own =>
    rw [own.1, main]
    exact .sheet own.1 own.2
  | inr other =>
    obtain ⟨c, cached, number, inside⟩ := other
    rw [← number, consistent.filePath_of_mem cached]
    refine .file ?_ inside
    rw [← number]
    exact consistent.reads_of_mem cached

def SourcedRule (cache : List (CanonicalPath × LoadedFile)) (r : Rule) : Prop :=
  ∀ i, .fileImport i ∈ r.parts → Sourced sheet cache i

variable {sheet}

theorem SourcedRule.of_cached (cached : c ∈ cache) (allIn : Rule.AllIn c.2.file c.2.rules)
    (inside : ∀ p ∈ r.parts, p ∈ Rule.partsOf c.2.rules ∨ ∀ i, p ≠ .fileImport i) :
    SourcedRule sheet cache r := by
  intro i member
  cases inside _ member with
  | inl within => exact ⟨i, rfl, .inr ⟨c, cached, (allIn _ within).symm, within⟩⟩
  | inr no => exact absurd rfl (no i)

theorem parts_of_mem_block {r inner : Rule} (isBlock : r.block? = some rules)
    (member : inner ∈ rules) (part : p ∈ inner.parts) : p ∈ r.parts := by
  have within : p ∈ Rule.partsOf rules := Rule.mem_partsOf.mpr ⟨inner, member, part⟩
  cases r <;> simp only [Rule.block?, Option.some.injEq, reduceCtorEq] at isBlock <;>
    subst isBlock <;> simp only [Rule.parts, List.mem_cons] <;> exact .inr within

theorem rule_mem_of_ofBlock (member : p ∈ Placed.ofBlock site rules) : p.rule ∈ rules := by
  obtain ⟨k, inside, rfl⟩ := List.mem_mapIdx.mp member
  exact List.getElem_mem inside

theorem contribution_sourced {loaded : LoadedFile} (cached : (path, loaded) ∈ cache)
    (allIn : Rule.AllIn loaded.file loaded.rules) (i : Import) :
    ∀ p ∈ Eval.contribution i loaded, SourcedRule sheet cache p.rule := by
  intro p member
  unfold Eval.contribution at member
  dsimp only at member
  split at member
  · rw [List.mem_singleton.mp member]
    refine SourcedRule.of_cached cached allIn fun part inside => ?_
    simp only [Rule.parts, List.mem_cons] at inside
    cases inside with
    | inl whole => exact .inr fun i => by simp [whole]
    | inr within => exact .inl within
  · refine SourcedRule.of_cached cached allIn fun part inside => .inl ?_
    exact Rule.mem_partsOf.mpr ⟨p.rule, rule_mem_of_ofBlock member, inside⟩

end Provenance

open Provenance in
def Regime.provenance {setting : Setting} (lexical : setting.loader.Lexical)
    (sheet : Stylesheet) : Regime setting where
  holds importer openings := importer.Consistent setting ∧
    importer.filePath 0 = setting.mainPath sheet ∧ ∀ o ∈ openings, o.Grounded setting sheet
  law openings := ∀ o ∈ openings, o.Grounded setting sheet
  rule importer p := SourcedRule sheet importer.cache p.rule
  lawful holds := holds.2.2
  mono rule grows i member := by
    obtain ⟨written, same, stands⟩ := rule i member
    refine ⟨written, same, stands.imp_right fun other => ?_⟩
    obtain ⟨c, cached, inside⟩ := other
    exact ⟨c, grows.cache.subset cached, inside⟩
  block rule isBlock p member i part :=
    rule i (parts_of_mem_block isBlock (rule_mem_of_ofBlock member) part)
  definition site _ i member := by simp [Rule.parts] at member
  settled rule path j member := by
    simp only [Rule.parts, List.mem_singleton, Rule.fileImport.injEq] at member
    obtain ⟨written, same, stands⟩ := rule _ (List.mem_singleton.mpr rfl)
    refine ⟨written, ?_, stands⟩
    rw [member, same]
  opens s openings i site text holds rule := by
    obtain ⟨tables, main, grounded⟩ := holds
    have consistent : s.importer.Consistent setting :=
      tables.nested s.importer.baseDepth s.importer.openImports s.importer.deferred
    obtain ⟨written, same, stands⟩ :=
      standsIn_of_sourced sheet consistent main (rule i (List.mem_singleton.mpr rfl))
    have ground : ∀ {outcome} {after : Importer},
        s.importer.Agrees i text (setting.answer text (s.importer.directory i.span.file)) outcome →
        ∀ o ∈ (⟨i, text, s.importer, outcome, after⟩ : Opening) :: openings,
          o.Grounded setting sheet := by
      intro outcome after agrees o member
      cases List.mem_cons.mp member with
      | inl new =>
        rw [new]
        exact ⟨written, _, stands, same, rfl, agrees⟩
      | inr old => exact grounded o old
    refine .mono (Eval.openImport_consistent lexical consistent i text) ?_ ?_
    · intro opened t ended
      obtain ⟨⟨consistent', logged⟩, agrees, cached⟩ := ended
      refine ⟨⟨consistent'.nested 0 0 [], ?_, ground agrees⟩, fun path loaded opens => ?_⟩
      · exact (logged.filePath_zero consistent.main).trans main
      · have inCache := cached path loaded opens
        exact contribution_sourced inCache (consistent'.reads_of_mem inCache).allIn i
    · intro f t ended
      exact ⟨ground ended.2, trivial⟩

theorem mainImporter_consistent (sheet : Stylesheet) :
    (Compiler.mainImporter setting sheet).Consistent setting := by
  have consistent := Importer.Consistent.empty setting
  unfold Compiler.mainImporter
  split
  · exact consistent.setMain _
  · exact consistent

/-- The tables of an importer agree after all calls, up to the first file that cannot be loaded; and
    all imports of a compilation are looked up from the directory of the file they stand in. -/
theorem importer_tables_agree (setting : Setting) (lexical : setting.loader.Lexical) :
    (∀ calls s, Importer.performAll calls setting {} = (.ok (), s) →
      s.importer.Tabled setting s.loads) ∧
    ∀ sheet, Rule.AllIn 0 sheet.rules →
      ∀ o ∈ (Compiler.resolveSheet sheet setting {}).2.trace.openings, o.Grounded setting sheet := by
  refine ⟨fun calls s performed => ?_, fun sheet allIn => ?_⟩
  · have tidy : Evaluation.Tidy setting {} := ⟨.empty setting, rfl⟩
    exact Importer.tabled_of_tidy ((Importer.performAll_tidy lexical calls tidy).result performed)
  · apply Compiler.resolveSheet_lawful (R := .provenance lexical sheet) sheet
    · refine ⟨mainImporter_consistent sheet, ?_, by simp⟩
      simp [Importer.filePath, Compiler.mainImporter_files]
    · intro _ p member i part
      have within : .fileImport i ∈ Rule.partsOf sheet.rules :=
        Rule.mem_partsOf.mpr ⟨p.rule, Provenance.rule_mem_of_ofBlock member, part⟩
      exact ⟨i, rfl, .inl ⟨allIn _ within, within⟩⟩

/-- Two files of one name in different directories. -/
def twinFiles : Setting :=
  { loader := ((({} : Loader).insert ⟨"lib/a.less"⟩ "@import 'b';").insert ⟨"lib/b.less"⟩ "").insert
      ⟨"b.less"⟩ "" }

/-- The first import brings an import of the same reference as the second. -/
def twinImports : Stylesheet :=
  ⟨some ⟨"main.less"⟩,
    [.fileImport ⟨.keyword "lib/a", {}, none, Span.none⟩,
      .fileImport ⟨.keyword "b", {}, none, Span.none⟩]⟩

def twinCalls : List Importer.Call :=
  [.setMain ⟨"main.less"⟩, .openImport ⟨.keyword "lib/a", {}, none, Span.none⟩ "lib/a", .nest 0 1,
    .openImport ⟨.keyword "b", {}, none, ⟨1, 1, 1⟩⟩ "b", .nest 0 0,
    .openImport ⟨.keyword "b", {}, none, Span.none⟩ "b"]

theorem twinImports_stay_apart :
    (∃ s, Importer.performAll twinCalls twinFiles {} = (.ok (), s) ∧
      s.importer.files = [some ⟨["main.less"]⟩, some ⟨["lib", "a.less"]⟩, some ⟨["lib", "b.less"]⟩,
        some ⟨["b.less"]⟩] ∧
      s.importer.Tabled twinFiles s.loads) ∧
    (Compiler.resolveSheet twinImports twinFiles {}).2.trace.openings.map (·.path) =
      ["b", "b", "lib/a"] ∧
    ∀ o ∈ (Compiler.resolveSheet twinImports twinFiles {}).2.trace.openings,
      o.Grounded twinFiles twinImports := by
  obtain ⟨tables, openings⟩ := importer_tables_agree twinFiles (Loader.lexical rfl)
  have performed : (Importer.performAll twinCalls twinFiles {}).1.toOption = some () ∧
      (Importer.performAll twinCalls twinFiles {}).2.importer.files =
        [some ⟨["main.less"]⟩, some ⟨["lib", "a.less"]⟩, some ⟨["lib", "b.less"]⟩,
          some ⟨["b.less"]⟩] := by
    decide +kernel
  have run : Importer.performAll twinCalls twinFiles {} =
      (.ok (), (Importer.performAll twinCalls twinFiles {}).2) := by
    rcases outcome : Importer.performAll twinCalls twinFiles {} with ⟨f | u, s⟩
    · rw [outcome] at performed
      cases performed.1
    · rfl
  refine ⟨⟨_, run, performed.2, tables twinCalls _ run⟩, by decide +kernel, ?_⟩
  exact openings twinImports (by unfold Rule.AllIn; decide +kernel)

end StyleResolution
