import StyleResolution.Proofs.Coupling.Simulation
import StyleResolution.Proofs.Import.Chain

/-! # Expanding imports in frames that belong together

The imports of frames that belong together are the same and stand in the same order, so they are
opened in the same order, and what they bring is spliced into aligned rules at places that belong
together. Imports that are deferred are queued at such places.
-/

namespace StyleResolution

open Eval

/-! ## Opening imports -/

namespace Importer.Same

variable {i j : Importer}

section

variable (same : i.Same j)

include same

theorem cache : j.cache = i.cache :=
  (congrArg Importer.cache same).symm

theorem nesting : j.nesting = i.nesting :=
  (congrArg Importer.nesting same).symm

theorem baseDepth : j.baseDepth = i.baseDepth :=
  (congrArg Importer.baseDepth same).symm

theorem map {f : Importer → Importer}
    (apart : ∀ i : Importer, { f i with deferred := [] } = f { i with deferred := [] }) :
    (f i).Same (f j) := by
  unfold Importer.Same
  rw [apart, apart, same]

theorem enter : ({ i with openImports := i.openImports + 1 } : Importer).Same
    { j with openImports := j.openImports + 1 } :=
  same.map (f := fun k => { k with openImports := k.openImports + 1 }) fun _ => rfl

theorem leave : ({ i with openImports := i.openImports - 1 } : Importer).Same
    { j with openImports := j.openImports - 1 } :=
  same.map (f := fun k => { k with openImports := k.openImports - 1 }) fun _ => rfl

theorem atBase (depth : Nat) : ({ i with baseDepth := depth } : Importer).Same
    { j with baseDepth := depth } :=
  same.map (f := fun k => { k with baseDepth := depth }) fun _ => rfl

end

end Importer.Same

namespace Coupling

variable {setting : Setting} {s t : Evaluation}

theorem changeImporter_tied {f : Importer → Importer} {next next' : Unit → Eval α}
    {ok : α → Evaluation → α → Evaluation → Prop} (same : s.importer.Same t.importer)
    (apart : ∀ i : Importer, { f i with deferred := [] } = f { i with deferred := [] })
    (h : ∀ s' t', s'.importer.Same t'.importer → Tied .none setting s' t' (next ()) (next' ()) ok) :
    Tied .none setting s t (changeImporter f >>= next) (changeImporter f >>= next') ok :=
  h _ _ (same.map apart)

theorem resolveReference_tied (same : s.importer.Same t.importer) (reference : String)
    (dir : Option Path) :
    Tied .none setting s t (resolveReference reference dir) (resolveReference reference dir)
      fun a s' b t' => a = b ∧ s'.importer.Same t'.importer := by
  unfold resolveReference
  have known : t.importer.known? reference dir = s.importer.known? reference dir :=
    (congrArg (·.known? reference dir) same).symm
  refine .ofState ?_
  rw [known]
  split
  · exact .pure ⟨rfl, same⟩
  · refine .ofSetting (.ofSetting ?_)
    dsimp only
    split
    · exact .pure ⟨rfl, same⟩
    · split
      · exact .pure ⟨rfl, same⟩
      · exact changeImporter_tied same (fun _ => rfl) fun _ _ same => .pure ⟨rfl, same⟩

theorem loadFile_tied (same : s.importer.Same t.importer) (path : CanonicalPath) :
    Tied .none setting s t (loadFile path) (loadFile path)
      fun a s' b t' => a = b ∧ s'.importer.Same t'.importer := by
  unfold loadFile
  have files : t.importer.files = s.importer.files := (congrArg Importer.files same).symm
  refine .ofState ?_
  rw [same.cache]
  split
  · exact .change (.pure ⟨rfl, same⟩)
  · refine .change (.ofSetting ?_)
    split
    · exact .failWith _
    · refine .ofState ?_
      dsimp only
      rw [files]
      refine changeImporter_tied same (fun _ => rfl) fun s' t' same => ?_
      cases Stylesheet.read _ s.importer.files.length (some path.toPath) with
      | error f => exact .fail fun _ => rfl
      | ok sheet =>
        exact .ahead rfl (.behind rfl (changeImporter_tied same (fun _ => rfl)
          fun _ _ same => .pure ⟨rfl, same⟩))

theorem openImport_tied (same : s.importer.Same t.importer) (i : Import) (path : String) :
    Tied .none setting s t (openImport i path) (openImport i path)
      fun a s' b t' => a = b ∧ s'.importer.Same t'.importer := by
  unfold openImport
  have directory : t.importer.directory i.span.file = s.importer.directory i.span.file :=
    (congrArg (·.directory i.span.file) same).symm
  split
  · exact .pure ⟨rfl, same⟩
  · refine .ofSetting (.ofState ?_)
    rw [same.nesting]
    split
    · exact .failWith _
    · refine .ofState ?_
      rw [directory]
      refine .bind (resolveReference_tied same path _) ?_ fun _ _ => id
      rintro found s' _ t' ⟨rfl, same⟩
      split
      · rename_i canonical
        have imported : t'.importer.imported = s'.importer.imported :=
          (congrArg Importer.imported same).symm
        refine .ofSetting (.ofState ?_)
        rw [imported]
        split
        · exact .change (.pure ⟨rfl, same⟩)
        · refine changeImporter_tied same (fun _ => rfl) fun s' t' same => ?_
          refine .bind (loadFile_tied same canonical) ?_ fun _ _ => id
          rintro loaded s'' _ t'' ⟨rfl, same⟩
          exact .pure ⟨rfl, same⟩
      · split
        · exact .change (.pure ⟨rfl, same⟩)
        · exact .failWith _
      · exact .failWith _

/-! ## Replacing imports -/

variable {K : Coupling} {W : World} {i j : FrameId} {env env' : Environment} {tight causes : Prop}
  {front front' mid mid' back back' : List Entry}

theorem importPath_tied (lawful : K.Lawful setting) (sim : K.Sim W s t) (envs : EnvLink W env env')
    (node : Import) :
    Tied .none setting s t (importPath env node) (importPath env' node)
      fun a s' b t' => a = b ∧ K.Sim W s' t' := by
  refine .change (.bind (.locatedAt (value_tied lawful (sim.respan _ _) envs _) _ _) ?_
    fun _ _ => id)
  rintro path s' _ t' ⟨rfl, sim⟩
  split <;> exact .pure ⟨rfl, sim⟩

theorem opened_tied (sim : K.Sim W s t) (node : Import) (text : String) :
    Tied (K.proviso tight causes) setting s t
      (locatedAt node.span (noteOpening node text (openImport node text)))
      (locatedAt node.span (noteOpening node text (openImport node text)))
      fun a s' b t' => a = b ∧ K.Sim W s' t' ∧ Loads s s' ∧ Loads t t' ∧
        ∀ path loaded, a = .file path loaded → (path, loaded) ∈ s'.importer.cache := by
  have same : Tied .none setting s t (noteOpening node text (openImport node text))
      (noteOpening node text (openImport node text))
      fun a s' b t' => a = b ∧ s'.importer.Same t'.importer := by
    intro _
    have related := @openImport_tied setting s t sim.importer node text trivial
    unfold noteOpening
    rcases runX : openImport node text setting s with ⟨f | a, s'⟩ <;>
      rcases runY : openImport node text setting t with ⟨g | b, t'⟩ <;>
      rw [runX, runY] at related <;> exact related
  refine ((same.locatedAt _ _).of_none.and (openImport_located node text s)
    (openImport_located node text t)).mono ?_
  rintro a s' b t' ⟨⟨result, same⟩, ⟨loads, answer⟩, loadsToo, -⟩
  exact ⟨result, sim.extend loads.extends loadsToo.extends same, loads, loadsToo,
    fun _ _ isFile => (isFile ▸ answer).cached⟩

theorem EntryLink.exists_import (lawful : K.Lawful setting) (link : K.EntryLink W e e')
    (isImport : Compiler.isImport e.rule = true) :
    ∃ node site site' nesting, e = ⟨⟨.fileImport node, site⟩, nesting⟩ ∧
      e' = ⟨⟨.fileImport node, site'⟩, nesting⟩ := by
  obtain ⟨⟨rule, site⟩, nesting⟩ := e
  obtain ⟨⟨rule', site'⟩, nesting'⟩ := e'
  cases rule with
  | fileImport node =>
    obtain rfl : rule' = .fileImport node := link.1.same lawful rfl
    obtain rfl : nesting' = nesting := link.2
    exact ⟨node, site, site', nesting', rfl, rfl⟩
  | _ => cases isImport

/-- The rules of the frames `i` and `j`, divided at places that belong together. -/
structure Stretch (K : Coupling) (W : World) (i j : FrameId)
    (front front' mid mid' back back' : List Entry) (s t : Evaluation) : Prop where
  left : (s.frames.get i).entries = front ++ mid ++ back
  right : (t.frames.get j).entries = front' ++ mid' ++ back'
  front : K.Matched W front front'
  mid : K.Matched W mid mid'
  back : K.Matched W back back'

theorem entries_spliceAt {f : Frame} {front back : List Entry}
    (entries : f.entries = front ++ [e] ++ back) (rules : List Placed) (nesting : Nat) :
    (f.spliceAt front.length 1 rules nesting).entries =
      front ++ rules.map (fun p => { p with nesting }) ++ back := by
  rw [Frame.entries_spliceAt, entries, ← List.append_cons, splice_eq_append]

theorem nestingAt_front {f : Frame} {e : Entry} {front back : List Entry}
    (entries : f.entries = front ++ [e] ++ back) : f.nestingAt front.length = e.nesting := by
  simp [Frame.nestingAt_eq, entries]

theorem splice_tied (sim : K.Sim W s t) (linked : W.ids i j)
    (stretch : K.Stretch W i j front front' [e] [e'] back back' s t) {rules rules' : List Placed}
    (aligned : Aligned Placed.rule K.cut (K.Linked W) rules rules') {f f' : Frame → Frame}
    (left : f (s.frames.get i) = (s.frames.get i).spliceAt front.length 1 rules nesting)
    (right : f' (t.frames.get j) = (t.frames.get j).spliceAt front'.length 1 rules' nesting) :
    Tied (K.proviso tight causes) setting s t (changeFrame i f) (changeFrame j f')
      fun _ s' _ t' => K.Sim W s' t' ∧ s'.importer = s.importer ∧ t'.importer = t.importer ∧
        ∃ new new', K.Stretch W i j front front' new new' back back' s' t' ∧
          new.length = rules.length ∧ new'.length = rules'.length := by
  intro _
  obtain ⟨inside, insideToo⟩ := sim.inside i j linked
  have entries := entries_spliceAt stretch.left rules nesting
  have entriesToo := entries_spliceAt stretch.right rules' nesting
  have new := Matched.ofPlaced aligned nesting
  have link := sim.frames i j linked
  have spliced : K.FrameLink W (f (s.frames.get i)) (f' (t.frames.get j)) := by
    rw [left, right]
    refine ⟨?_, link.base, link.closures⟩
    rw [entries, entriesToo]
    exact (stretch.front.append new).append stretch.back
  refine ⟨sim.modify linked spliced (left ▸ .spliceAt ..) (right ▸ .spliceAt ..), rfl, rfl, _, _,
    ⟨?_, ?_, stretch.front, new, stretch.back⟩, by simp, by simp⟩
  · rw [Frames.get_modify_self inside, left, entries]
  · rw [Frames.get_modify_self insideToo, right, entriesToo]

/-- Both replacements are of the same kind, with so many rules. -/
inductive Replaced (n n' : Nat) : Replacement → Replacement → Prop where
  | settled : Replaced n n' (.settled n) (.settled n')
  | opened : Replaced n n' (.opened n) (.opened n')

theorem Stretch.of_loads (stretch : K.Stretch W i j front front' mid mid' back back' s t)
    (left : Loads s s') (right : Loads t t') :
    K.Stretch W i j front front' mid mid' back back' s' t' :=
  { stretch with
    left := (left.entries i).trans stretch.left
    right := (right.entries j).trans stretch.right }

theorem Lawful.contribution (lawful : K.Lawful setting) (fair : Grows s K.final)
    (cached : (path, loaded) ∈ s.importer.cache) (node : Import) :
    Aligned Placed.rule K.cut (K.Linked W) (contribution node loaded) (contribution node loaded) := by
  apply Aligned.refl
  intro p member
  exact .twin (lawful.files _ (fair.cache.mem cached) node p member)

/-- How both computations replace an import at places that belong together. -/
def ReplacedIn (K : Coupling) (W : World) (i j : FrameId) (front front' back back' : List Entry)
    (s t : Evaluation) (r : Replacement) (s' : Evaluation) (r' : Replacement) (t' : Evaluation) :
    Prop :=
  K.Sim W s' t' ∧ s'.importer.deferred = s.importer.deferred ∧
    t'.importer.deferred = t.importer.deferred ∧
    ∃ new new', K.Stretch W i j front front' new new' back back' s' t' ∧
      Replaced new.length new'.length r r'

theorem splicedBy_tied (sim : K.Sim W s t) (linked : W.ids i j)
    (stretch : K.Stretch W i j front front' [e] [e'] back back' s t)
    (aligned : Aligned Placed.rule K.cut (K.Linked W) rules rules')
    (left : f (s.frames.get i) = (s.frames.get i).spliceAt front.length 1 rules nesting)
    (right : f' (t.frames.get j) = (t.frames.get j).spliceAt front'.length 1 rules' nesting)
    (replaced : Replaced rules.length rules'.length r r') :
    Tied (K.proviso tight causes) setting s t
      (do changeFrame i f; pure r) (do changeFrame j f'; pure r')
      (K.ReplacedIn W i j front front' back back' s t) := by
  refine .bind (splice_tied sim linked stretch aligned left right) ?_
    fun _ => Growing.since inferInstance
  rintro _ s' _ t' ⟨sim, importer, importerToo, new, new', stretch, count, countToo⟩
  refine Tied.pure ⟨sim, by rw [importer], by rw [importerToo], new, new', stretch, ?_⟩
  rw [count, countToo]
  exact replaced

theorem replaceImport_tied (lawful : K.Lawful setting) (sim : K.Sim W s t) (linked : W.ids i j)
    (envs : EnvLink W env env')
    (stretch : K.Stretch W i j front front' [⟨⟨.fileImport node, site⟩, nesting⟩]
      [⟨⟨.fileImport node, site'⟩, nesting⟩] back back' s t) :
    Tied (K.proviso tight causes) setting s t (replaceImport i env front.length site node)
      (replaceImport j env' front'.length site' node)
      (K.ReplacedIn W i j front front' back back' s t) := by
  unfold replaceImport
  refine .bind ((importPath_tied lawful sim envs node).of_none.keeping
    (importPath_loads env node) (importPath_loads env' node)) ?_ ?_
  · rintro ⟨path, text⟩ s₁ _ t₁ ⟨⟨rfl, sim⟩, loads₁, loadsToo₁⟩
    refine .bind (opened_tied sim node text) ?_ ?_
    · rintro opened s₂ _ t₂ ⟨rfl, sim, loads₂, loadsToo₂, cached⟩
      have loads := loads₁.trans loads₂
      have loadsToo := loadsToo₁.trans loadsToo₂
      have stretch := stretch.of_loads loads loadsToo
      have depth : (s₂.frames.get i).nestingAt front.length = nesting := nestingAt_front stretch.left
      have depthToo : (t₂.frames.get j).nestingAt front'.length = nesting :=
        nestingAt_front stretch.right
      unfold ReplacedIn
      rw [← loads.deferred, ← loadsToo.deferred]
      cases opened with
      | passThrough =>
        exact splicedBy_tied sim linked stretch (.cons .fileImport .nil)
          (congrArg (Frame.spliceAt _ _ 1 _) depth) (congrArg (Frame.spliceAt _ _ 1 _) depthToo)
          .settled
      | skipped =>
        exact splicedBy_tied sim linked stretch .nil
          (congrArg (Frame.spliceAt _ _ 1 _) depth) (congrArg (Frame.spliceAt _ _ 1 _) depthToo)
          .settled
      | file canonical loaded =>
        refine Tied.assume fun fair => Tied.ofState (Tied.change ?_)
        rw [sim.importer.nesting]
        exact splicedBy_tied (sim.logged _ _) linked { stretch with }
          (lawful.contribution fair (cached _ _ rfl) node) rfl rfl .opened
    · exact fun opened => Growing.since (by cases opened <;> infer_instance)
  · exact fun found => Growing.since
      (@Growing.bind _ _ _ _ _ inferInstance fun opened => by cases opened <;> infer_instance)

/-! ## Places of deferred imports -/

/-- Imports that belong together stand at the positions `l` and `l'`, if the rules start at the
    positions `n` and `n'`. -/
def Place (K : Coupling) (W : World) (n n' : Nat) (es es' : List Entry) (l l' : Nat) : Prop :=
  ∃ front e back front' e' back', es = front ++ e :: back ∧ es' = front' ++ e' :: back' ∧
    K.Matched W front front' ∧ K.EntryLink W e e' ∧ Compiler.isImport e.rule = true ∧
      K.Matched W back back' ∧ l = n + front.length ∧ l' = n' + front'.length

namespace Place

variable {n n' l l' : Nat} {es es' more more' : List Entry}

theorem append (place : K.Place W n n' es es' l l') (aligned : K.Matched W more more') :
    K.Place W n n' (es ++ more) (es' ++ more') l l' := by
  obtain ⟨front, e, back, front', e', back', rfl, rfl, fronts, items, isImport, backs, at_, atToo⟩ :=
    place
  exact ⟨front, e, back ++ more, front', e', back' ++ more', by simp, by simp, fronts, items, isImport,
    backs.append aligned, at_, atToo⟩

theorem behind (place : K.Place W (n + more.length) (n' + more'.length) es es' l l')
    (aligned : K.Matched W more more') : K.Place W n n' (more ++ es) (more' ++ es') l l' := by
  obtain ⟨front, e, back, front', e', back', rfl, rfl, fronts, items, isImport, backs, at_, atToo⟩ :=
    place
  refine ⟨more ++ front, e, back, more' ++ front', e', back', by simp, by simp, aligned.append fronts,
    items, isImport, backs, ?_, ?_⟩
  · rw [at_, List.length_append, Nat.add_assoc]
  · rw [atToo, List.length_append, Nat.add_assoc]

theorem last (aligned : K.Matched W done done') (items : K.EntryLink W e e')
    (isImport : Compiler.isImport e.rule = true) :
    K.Place W n n' (done ++ [e]) (done' ++ [e']) (n + done.length) (n' + done'.length) :=
  ⟨done, e, [], done', e', [], rfl, rfl, aligned, items, isImport, .nil, rfl, rfl⟩

end Place

/-- Deferred imports that belong together wait at places that belong together. -/
structure Stands (K : Coupling) (W : World) (n n' : Nat) (es es' : List Entry)
    (d d' : DeferredImport) : Prop where
  scope : EnvLink W d.scope d'.scope
  depth : d'.depth = d.depth
  place : K.Place W n n' es es' d.location d'.location

/-- The imports of the queues belong together, one after the other. -/
abbrev Queued (K : Coupling) (W : World) (n n' : Nat) (es es' : List Entry) :
    List DeferredImport → List DeferredImport → Prop :=
  List.Forall₂ (K.Stands W n n' es es')

theorem Queued.append (queued : K.Queued W n n' es es' q q') (aligned : K.Matched W more more') :
    K.Queued W n n' (es ++ more) (es' ++ more') q q' :=
  List.Forall₂.imp (fun _ _ stands => { stands with place := stands.place.append aligned }) queued

/-! ## Expanding ranges of rules -/

/-- Between `front` and `back`, the imports of `done` are expanded or deferred, and those of `rest`
    are still to come. -/
structure Expanding (K : Coupling) (W : World) (i j : FrameId) (defer : Bool)
    (front front' done done' rest rest' back back' : List Entry) (s t : Evaluation) : Prop where
  sim : K.Sim W s t
  stretch : K.Stretch W i j (front ++ done) (front' ++ done') rest rest' back back' s t
  passed : K.Matched W done done'
  queued : defer = true → K.Queued W front.length front'.length done done' s.importer.deferred
    t.importer.deferred

/-- How both computations end that expand the rules `rest` and `rest'`. -/
def Expanded (K : Coupling) (W : World) (i j : FrameId) (defer : Bool)
    (front front' done done' back back' : List Entry) (stop : Nat) (s' : Evaluation) (stop' : Nat)
    (t' : Evaluation) : Prop :=
  ∃ new new', stop = (front ++ (done ++ new)).length ∧ stop' = (front' ++ (done' ++ new')).length ∧
    K.Expanding W i j defer front front' (done ++ new) (done' ++ new') [] [] back back' s' t'

section Expanding

variable {defer : Bool} {done done' rest rest' : List Entry}

theorem Stretch.regroup (stretch : K.Stretch W i j front front' mid mid' (rest ++ back)
      (rest' ++ back') s t) (rests : K.Matched W rest rest') (backs : K.Matched W back back') :
    K.Stretch W i j (front ++ mid) (front' ++ mid') rest rest' back back' s t where
  left := by rw [stretch.left, List.append_assoc (front ++ mid)]
  right := by rw [stretch.right, List.append_assoc (front' ++ mid')]
  front := stretch.front.append stretch.mid
  mid := rests
  back := backs

theorem Expanding.withImporters
    (h : K.Expanding W i j defer front front' done done' rest rest' back back' s t)
    (same : a.Same b) (left : a.deferred = s.importer.deferred)
    (right : b.deferred = t.importer.deferred) :
    K.Expanding W i j defer front front' done done' rest rest' back back' { s with importer := a }
      { t with importer := b } where
  sim := h.sim.withImporters same
  stretch := { h.stretch with }
  passed := h.passed
  queued := by
    dsimp only
    rw [left, right]
    exact h.queued

theorem Expanding.advance
    (h : K.Expanding W i j defer front front' done done' (skip ++ rest) (skip' ++ rest') back back' s t)
    (skipped : K.Matched W skip skip') (rests : K.Matched W rest rest') :
    K.Expanding W i j defer front front' (done ++ skip) (done' ++ skip') rest rest' back back' s t where
  sim := h.sim
  stretch :=
    { left := by simpa using h.stretch.left
      right := by simpa using h.stretch.right
      front := by
        have fronts := h.stretch.front.append skipped
        rwa [List.append_assoc, List.append_assoc] at fronts
      mid := rests
      back := h.stretch.back }
  passed := h.passed.append skipped
  queued deferring := (h.queued deferring).append skipped

theorem Expanding.enqueue
    (h : K.Expanding W i j true front front' done done' (e :: rest) (e' :: rest') back back' s t)
    (same : K.EntryLink W e e') (rests : K.Matched W rest rest') (envs : EnvLink W env env')
    (isImport : Compiler.isImport e.rule = true) (u : Event) :
    K.Expanding W i j true front front' (done ++ [e]) (done' ++ [e']) rest rest' back back'
      { s with
        events := s.events.push u
        importer := s.importer.defer ⟨(front ++ done).length, env, s.importer.nesting⟩ }
      { t with
        events := t.events.push u
        importer := t.importer.defer ⟨(front' ++ done').length, env', t.importer.nesting⟩ } := by
  have skipped : K.Matched W [e] [e'] := .cons same .nil
  have next := Expanding.advance h skipped rests
  have stands : K.Stands W front.length front'.length (done ++ [e]) (done' ++ [e'])
      ⟨(front ++ done).length, env, s.importer.nesting⟩
      ⟨(front' ++ done').length, env', t.importer.nesting⟩ :=
    { scope := envs
      depth := h.sim.importer.nesting
      place := by
        rw [List.length_append, List.length_append]
        exact Place.last h.passed same isImport }
  exact
    { sim := (next.sim.logged u u).withImporters h.sim.importer
      stretch := { next.stretch with }
      passed := next.passed
      queued := fun _ => List.rel_append (next.queued rfl) (.cons stands .nil) }

theorem Expanded.skip {skip skip' : List Entry} {stop stop' : Nat}
    (h : K.Expanded W i j defer front front' (done ++ skip) (done' ++ skip') back back' stop s stop' t) :
    K.Expanded W i j defer front front' done done' back back' stop s stop' t := by
  obtain ⟨new, new', at_, atToo, ended⟩ := h
  simp only [List.append_assoc] at at_ atToo ended
  exact ⟨skip ++ new, skip' ++ new', at_, atToo, ended⟩

theorem tied_congr (left : x setting s = x' setting s) (right : y setting t = y' setting t)
    (h : Tied P setting s t x' y' ok) : Tied P setting s t x y ok := by
  unfold Tied
  rw [left, right]
  exact h

theorem expandRange_skips (expandAt expandAt' : Nat → Nat → Eval Nat) (skip skip' : List Entry)
    (h : K.Expanding W i j defer front front' done done' (skip ++ rest) (skip' ++ rest') back back'
      s t) (plain : ∀ e ∈ skip, Compiler.isImport e.rule = false)
    (plainToo : ∀ e ∈ skip', Compiler.isImport e.rule = false)
    (next : Tied (K.proviso tight causes) setting s t
      (expandRange expandAt i env defer (front ++ (done ++ skip)).length rest.length)
      (expandRange expandAt' j env' defer (front' ++ (done' ++ skip')).length rest'.length)
      (K.Expanded W i j defer front front' (done ++ skip) (done' ++ skip') back back')) :
    Tied (K.proviso tight causes) setting s t
      (expandRange expandAt i env defer (front ++ done).length (skip ++ rest).length)
      (expandRange expandAt' j env' defer (front' ++ done').length (skip' ++ rest').length)
      (K.Expanded W i j defer front front' done done' back back') := by
  have entries : (s.frames.get i).entries = (front ++ done) ++ skip ++ (rest ++ back) := by
    simpa using h.stretch.left
  have entriesToo : (t.frames.get j).entries = (front' ++ done') ++ skip' ++ (rest' ++ back') := by
    simpa using h.stretch.right
  have left := @expandRange_passesAll setting s i expandAt env defer _ _ _ entries plain rest.length
  have right := @expandRange_passesAll setting t j expandAt' env' defer _ _ _ entriesToo plainToo
    rest'.length
  rw [← List.length_append, List.append_assoc front] at left
  rw [← List.length_append, List.append_assoc front'] at right
  exact tied_congr left right (next.mono fun _ _ _ _ ended => ended.skip)

section

variable (lawful : K.Lawful setting) (linked : W.ids i j) (envs : EnvLink W env env')
  (inner : ∀ {done done' rest rest' back back' : List Entry} {s t : Evaluation},
    K.Expanding W i j defer front front' done done' rest rest' back back' s t →
    Tied (K.proviso tight causes) setting s t
      (expandWithin i env defer levels (front ++ done).length rest.length)
      (expandWithin j env' defer levels (front' ++ done').length rest'.length)
      (K.Expanded W i j defer front front' done done' back back'))

include lawful linked envs inner

theorem spliceImport_tied (h : K.Expanding W i j defer front front' done done'
      (⟨⟨.fileImport node, site⟩, nesting⟩ :: rest) (⟨⟨.fileImport node, site'⟩, nesting⟩ :: rest')
      back back' s t)
    (rests : K.Matched W rest rest') : Tied (K.proviso tight causes) setting s t
      (spliceImport (expandWithin i env defer levels) i env (front ++ done).length site node)
      (spliceImport (expandWithin j env' defer levels) j env' (front' ++ done').length site' node)
      fun n s' n' t' => ∃ new new', n = new.length ∧ n' = new'.length ∧
        K.Expanding W i j defer front front' (done ++ new) (done' ++ new') rest rest' back back'
          s' t' := by
  have here : K.Stretch W i j (front ++ done) (front' ++ done')
      [⟨⟨.fileImport node, site⟩, nesting⟩] [⟨⟨.fileImport node, site'⟩, nesting⟩]
      (rest ++ back) (rest' ++ back') s t :=
    { left := by simpa using h.stretch.left
      right := by simpa using h.stretch.right
      front := h.stretch.front
      mid := .cons ⟨.fileImport, rfl⟩ .nil
      back := rests.append h.stretch.back }
  unfold spliceImport
  refine .bind (replaceImport_tied lawful h.sim linked envs here) ?_ ?_
  · rintro r s₁ r' t₁ ⟨sim, deferred, deferredToo, new, new', stretch, replaced⟩
    have queued : defer = true → K.Queued W front.length front'.length done done'
        s₁.importer.deferred t₁.importer.deferred := by
      rw [deferred, deferredToo]
      exact h.queued
    cases replaced with
    | settled =>
      refine .pure ⟨new, new', rfl, rfl, sim, ?_, h.passed.append stretch.mid,
        fun deferring => (queued deferring).append stretch.mid⟩
      simpa only [List.append_assoc] using stretch.regroup rests h.stretch.back
    | opened =>
      have replacing : K.Expanding W i j defer front front' done done' new new' (rest ++ back)
          (rest' ++ back') s₁ t₁ := ⟨sim, stretch, h.passed, queued⟩
      have expanding : Tied (K.proviso tight causes) setting s₁ t₁
          (whileImporting (expandWithin i env defer levels (front ++ done).length new.length))
          (whileImporting (expandWithin j env' defer levels (front' ++ done').length new'.length))
          (K.Expanded W i j defer front front' done done' (rest ++ back) (rest' ++ back')) := by
        refine .between ((inner (replacing.withImporters sim.importer.enter rfl rfl)).mono ?_)
          fun _ grows => { grows with }
        rintro stop s' stop' t' ⟨new, new', at_, atToo, ended⟩
        exact ⟨new, new', at_, atToo, ended.withImporters ended.sim.importer.leave rfl rfl⟩
      refine .bind expanding ?_ fun _ => Growing.since inferInstance
      rintro stop s₂ stop' t₂ ⟨new, new', rfl, rfl, ended⟩
      refine .pure ⟨new, new', ?_, ?_, { ended with stretch := ?_ }⟩
      · simp only [List.length_append]
        omega
      · simp only [List.length_append]
        omega
      · simpa only [List.append_nil] using ended.stretch.regroup rests h.stretch.back
  · exact fun r => Growing.since (by cases r <;> infer_instance)

/-- The imports among rules that belong together are expanded alike, given that this holds of the
    files they bring. -/
theorem expandRange_tied
    (h : K.Expanding W i j defer front front' done done' rest rest' back back' s t) :
    Tied (K.proviso tight causes) setting s t
      (expandRange (expandWithin i env defer levels) i env defer (front ++ done).length rest.length)
      (expandRange (expandWithin j env' defer levels) j env' defer (front' ++ done').length
        rest'.length)
      (K.Expanded W i j defer front front' done done' back back') := by
  have imports := @Matched.importsMatch K setting W lawful
  have aligned := h.stretch.mid
  induction aligned generalizing done done' s t with
  | nil => exact Tied.pure ⟨[], [], by simp, by simp, by simpa using h⟩
  | @swap v v' r r' rest rest' passes first second aligned ih =>
    obtain ⟨plain, plainToo⟩ := Aligned.not_isImport_of_passes passes
    have skipped : K.Matched W [v, r] [r', v'] := .swap passes first second .nil
    refine expandRange_skips _ _ [v, r] [r', v'] h ?_ ?_
      (ih (h.advance skipped aligned))
    · simp [plain, plainToo]
    · simp [imports.same _ _ first, imports.same _ _ second, plain, plainToo]
  | @cut e new rest rest' replaced aligned ih =>
    obtain ⟨plain, plainToo⟩ := imports.cut e new replaced
    have skipped : K.Matched W [e] new := by
      have cut : K.Matched W [e] (new ++ []) := .cut replaced .nil
      rwa [List.append_nil] at cut
    exact expandRange_skips _ _ [e] new h (by simpa using plain) plainToo
      (ih (h.advance skipped aligned))
  | @cons e e' rest rest' same aligned ih =>
    have skipped : K.Matched W [e] [e'] := .cons same .nil
    cases isImport : Compiler.isImport e.rule with
    | false =>
      refine expandRange_skips _ _ [e] [e'] h (by simpa using isImport) ?_
        (ih (h.advance skipped aligned))
      simp [imports.same _ _ same, isImport]
    | true =>
      obtain ⟨node, site, site', nesting, rfl, rfl⟩ := same.exists_import lawful isImport
      have found : (s.frames.get i).entryAt (front ++ done).length =
          some ⟨⟨.fileImport node, site⟩, nesting⟩ := by
        simp [Frame.entryAt_eq, h.stretch.left]
      have foundToo : (t.frames.get j).entryAt (front' ++ done').length =
          some ⟨⟨.fileImport node, site'⟩, nesting⟩ := by
        simp [Frame.entryAt_eq, h.stretch.right]
      refine .ofState ?_
      rw [found, foundToo]
      dsimp only
      split
      · rename_i deferring
        simp only [Bool.and_eq_true] at deferring
        obtain ⟨rfl, -⟩ := deferring
        have next := ih (Expanding.enqueue h same aligned envs isImport (.deferring node.path))
        have behind : ∀ (es ds : List Entry) (e : Entry),
            (es ++ (ds ++ [e])).length = (es ++ ds).length + 1 := by
          intro es ds e
          simp [Nat.add_assoc]
        rw [behind, behind] at next
        exact .change (.change (next.mono fun _ _ _ _ ended => ended.skip))
      · refine .bind (spliceImport_tied lawful linked envs inner h aligned) ?_
          fun _ => Growing.since inferInstance
        rintro n s' n' t' ⟨new, new', rfl, rfl, h⟩
        rw [← List.length_append, ← List.length_append, List.append_assoc, List.append_assoc]
        exact (ih h).mono fun _ _ _ _ ended => ended.skip

end

/-- The imports among rules that belong together are expanded alike. -/
theorem expandWithin_tied (lawful : K.Lawful setting) (linked : W.ids i j)
    (envs : EnvLink W env env') (levels : Nat)
    (h : K.Expanding W i j defer front front' done done' rest rest' back back' s t) :
    Tied (K.proviso tight causes) setting s t
      (expandWithin i env defer levels (front ++ done).length rest.length)
      (expandWithin j env' defer levels (front' ++ done').length rest'.length)
      (K.Expanded W i j defer front front' done done' back back') := by
  induction levels generalizing done done' rest rest' back back' s t with
  | zero => exact .failWith _
  | succ levels ih => exact expandRange_tied lawful linked envs ih h

theorem atBaseDepth_tied (depth : Nat)
    (h : Tied (K.proviso tight causes) setting
      { s with importer := { s.importer with baseDepth := depth } }
      { t with importer := { t.importer with baseDepth := depth } } x y fun a s' b t' =>
        ok a { s' with importer := { s'.importer with baseDepth := s.importer.baseDepth } }
          b { t' with importer := { t'.importer with baseDepth := t.importer.baseDepth } }) :
    Tied (K.proviso tight causes) setting s t (atBaseDepth depth x) (atBaseDepth depth y) ok :=
  .ofState (.between h fun _ grows => { grows with })

theorem expandImports_tied (lawful : K.Lawful setting) (linked : W.ids i j)
    (envs : EnvLink W env env') (sim : K.Sim W s t) (defer : Bool)
    (empty : defer = true → s.importer.deferred = [] ∧ t.importer.deferred = []) :
    Tied (K.proviso tight causes) setting s t (expandImports i env defer) (expandImports j env' defer)
      fun _ s' _ t' => K.Sim W s' t' ∧ (defer = true →
        K.Queued W 0 0 (s'.frames.get i).entries (t'.frames.get j).entries s'.importer.deferred
          t'.importer.deferred) := by
  have link := sim.frames i j linked
  have start : K.Expanding W i j defer [] [] [] [] (s.frames.get i).entries (t.frames.get j).entries
      [] [] s t :=
    { sim := sim
      stretch := ⟨by simp, by simp, .nil, link.entries, .nil⟩
      passed := .nil
      queued := fun deferring => by
        rw [(empty deferring).1, (empty deferring).2]
        exact .nil }
  refine .ofState (.ofSetting ?_)
  rw [link.base, ← Frame.length_entries, ← Frame.length_entries]
  have entered := start.withImporters (sim.importer.atBase (s.frames.get i).base) rfl rfl
  refine atBaseDepth_tied _ (.bind (expandWithin_tied lawful linked envs _ entered) ?_
    fun _ => Growing.since inferInstance)
  rintro _ s' _ t' ⟨new, new', -, -, ended⟩
  have entries : (s'.frames.get i).entries = new := by simpa using ended.stretch.left
  have entriesToo : (t'.frames.get j).entries = new' := by simpa using ended.stretch.right
  refine .pure ⟨?_, fun deferring => ?_⟩
  · rw [sim.importer.baseDepth]
    exact ended.sim.withImporters (ended.sim.importer.atBase _)
  · simpa [entries, entriesToo] using ended.queued deferring

end Expanding

end Coupling

end StyleResolution
