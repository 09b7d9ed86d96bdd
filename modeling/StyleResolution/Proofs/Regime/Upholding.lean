import StyleResolution.Proofs.Evaluation.Finishing
import StyleResolution.Proofs.Import.Replacement
import StyleResolution.Proofs.Scope.Blocks
import StyleResolution.Proofs.Scope.Names
import StyleResolution.Proofs.Sheet.Steps

/-! # What holds throughout a compilation

A regime is an invariant of compilations. It says something about the importer and about the imports
that were opened so far, something about the rules in scope, which passes from a rule to the rules
of its block, and something about failures, which may have been given the position of a rule. To
establish a regime it is enough to look at the opening of an import: nothing else adds to the tables
of the importer or brings new rules into scope.

A failure may leave the importer in the middle of opening an import. All that is known of the state
then is the law about the imports that were opened, unless the failure is that of an undefined
variable, from which a compilation recovers.
-/

namespace StyleResolution

open Eval

def Importer.tables (i : Importer) : Importer :=
  { i with baseDepth := 0, openImports := 0, deferred := [] }

/-- Files are only ever added to the cache and to those that are registered. -/
structure Importer.Grows (i j : Importer) : Prop where
  cache : i.cache <:+ j.cache
  files : i.files <+: j.files

namespace Importer.Grows

variable {i j k : Importer}

theorem rfl : i.Grows i :=
  ⟨List.suffix_rfl, List.prefix_rfl⟩

theorem trans (first : i.Grows j) (second : j.Grows k) : i.Grows k :=
  ⟨first.cache.trans second.cache, first.files.trans second.files⟩

theorem of_tables (same : j.tables = i.tables) : i.Grows j := by
  have cache : j.tables.cache = i.tables.cache := by rw [same]
  have files : j.tables.files = i.tables.files := by rw [same]
  exact ⟨⟨[], cache.symm⟩, ⟨[], by rw [List.append_nil]; exact files.symm⟩⟩

end Importer.Grows

/-- An invariant of compilations. -/
structure Regime (setting : Setting) where
  /-- What holds of the importer and of the imports that were opened, newest first. -/
  holds : Importer → List Opening → Prop
  /-- What holds of the imports that were opened, also after a failure. -/
  law : List Opening → Prop
  /-- What holds of a rule in scope, given the files that were loaded. -/
  rule : Importer → Placed → Prop
  /-- What holds of the position of a rule in scope. -/
  known : Importer → Span → Prop := fun _ _ => True
  /-- What holds of a failure, and of one that has been given a position. -/
  fails : Bool → Failure → Importer → Prop := fun _ _ _ => True
  lawful : ∀ {importer openings}, holds importer openings → law openings
  mono : ∀ {i j p}, rule i p → i.Grows j → rule j p
  block : ∀ {i r site rules}, rule i ⟨r, site⟩ → r.block? = some rules →
    ∀ p ∈ Placed.ofBlock site rules, rule i p
  definition : ∀ {i d} site, known i d.span → rule i ⟨.variable d, site⟩
  settled : ∀ {i node site}, rule i ⟨.fileImport node, site⟩ →
    ∀ path, rule i ⟨.fileImport { node with path }, site⟩
  position : ∀ {i r site}, rule i ⟨r, site⟩ → known i r.span := by intros; trivial
  knownLater : ∀ {i j span}, known i span → i.Grows j → known j span := by intros; trivial
  failsLater : ∀ {i j m f}, fails m f i → i.Grows j → fails m f j := by intros; trivial
  unplaced : ∀ {i} cause, fails false { cause } i := by intros; trivial
  exhausted : ∀ {i}, fails true { cause := .exhausted } i := by intros; trivial
  placed : ∀ {i span} cause, known i span → fails true { cause, span := some span } i := by
    intros; trivial
  warning : ∀ {i} message, setting.options.warningsAsErrors = true →
    fails false { cause := .warning message, span := some Span.none } i := by intros; trivial
  located : ∀ {i m f span}, fails m f i → known i span → fails true (f.located span) i := by
    intros; trivial
  inside : ∀ {i m f frame}, fails m f i → fails m (f.inside frame) i := by intros; trivial
  loosen : ∀ {i m f}, fails true f i → fails m f i := by intros; trivial
  opens : ∀ (s : Evaluation) (openings : List Opening) (i : Import) (site : Site) (text : String),
    holds s.importer.tables openings → rule s.importer ⟨.fileImport i, site⟩ →
    Eval.Ends setting s (openImport i text)
      (fun opened s' =>
        holds s'.importer.tables (⟨i, text, s.importer, .ok opened, s'.importer⟩ :: openings) ∧
        ∀ path loaded, opened = .file path loaded →
          ∀ p ∈ contribution i loaded, rule s'.importer p)
      (fun f s' => law (⟨i, text, s.importer, .error f, s'.importer⟩ :: openings) ∧
        fails false f s'.importer)

namespace Regime

variable {setting : Setting} (R : Regime setting)

theorem restLater {e : Entry} {es : List Entry} (under : ∀ e' ∈ e :: es, R.rule i e'.toPlaced)
    (grows : i.Grows j) : ∀ e' ∈ es, R.rule j e'.toPlaced :=
  fun e' later => R.mono (under e' (List.mem_cons_of_mem _ later)) grows

/-- The names of the frame are those of its rules, and its rules are under the regime. -/
structure Governs (i : Importer) (f : Frame) : Prop where
  fresh : f.Fresh
  rules : ∀ e ∈ f.entries, R.rule i e.toPlaced

def Block (i : Importer) (site : Site) (rules : List Rule) : Prop :=
  ∀ p ∈ Placed.ofBlock site rules, R.rule i p

/-- The state is under the regime. -/
structure Orderly (s : Evaluation) : Prop where
  holds : R.holds s.importer.tables s.trace.openings
  frames : ∀ id, R.Governs s.importer (s.frames.get id)
  span : s.span = Span.none ∨ R.known s.importer s.span

variable {R}

namespace Governs

variable {i j : Importer} {f : Frame}

theorem mono (governs : R.Governs i f) (grows : i.Grows j) : R.Governs j f where
  fresh := governs.fresh
  rules e member := R.mono (governs.rules e member) grows

theorem indexed (governs : R.Governs i f) (h : f.Indexed f') : R.Governs i f' where
  fresh := governs.fresh.of_indexed h
  rules := by
    rw [h.entries]
    exact governs.rules

theorem empty (i : Importer) : R.Governs i Frame.empty where
  fresh := Frame.Fresh.ofPlaced [] 0
  rules _ member := nomatch member

theorem ofBlock {site : Site} {rules : List Rule} (block : R.Block i site rules)
    (nesting : Nat) : R.Governs i (Frame.ofBlock site rules nesting) where
  fresh := Frame.Fresh.ofPlaced _ _
  rules e member := by
    obtain ⟨p, inside, rfl⟩ := Frame.mem_ofBlock.mp member
    exact block p inside

theorem spliceAt (governs : R.Governs i f) {rules : List Placed}
    (new : ∀ p ∈ rules, R.rule i p) (position remove nesting : Nat) :
    R.Governs i (f.spliceAt position remove rules nesting) where
  fresh := Frame.Fresh.spliceAt ..
  rules e member := by
    simp only [Frame.entries_spliceAt, List.mem_append, List.mem_map] at member
    rcases member with (front | ⟨p, inside, rfl⟩) | back
    · exact governs.rules e (List.mem_of_mem_take front)
    · exact new p inside
    · exact governs.rules e (List.mem_of_mem_drop back)

theorem prependExports (governs : R.Governs i f) {rules : List Placed}
    (new : ∀ p ∈ rules, R.rule i p) (closure : List FrameId) (source : Frame) :
    R.Governs i (f.prependExports rules closure source) where
  fresh := governs.fresh.prependExports ..
  rules e member := by
    rw [Frame.prependExports_entries] at member
    rcases List.mem_append.mp member with added | own
    · obtain ⟨p, inside, rfl⟩ := List.mem_map.mp added
      exact new p inside
    · exact governs.rules e own

theorem position (governs : R.Governs i f) (found : f.names.definitionOf name = some v) :
    R.known i v.definition.span := by
  obtain ⟨e, inside, isVariable⟩ := governs.fresh.variable_mem found
  have known := R.position (governs.rules e inside)
  unfold Placed.asVariable at isVariable
  cases isRule : e.rule <;> simp only [isRule] at isVariable <;> cases isVariable
  rw [isRule] at known
  exact known

end Governs

theorem Block.mono (block : R.Block i site rules) (grows : i.Grows j) : R.Block j site rules :=
  fun p member => R.mono (block p member) grows

/-- Frames, tables, trace of openings and position are the same. -/
structure Unaffected (s s' : Evaluation) : Prop where
  frames : s'.frames = s.frames
  tables : s'.importer.tables = s.importer.tables
  openings : s'.trace.openings = s.trace.openings
  span : s'.span = s.span

theorem Unaffected.grows (same : Unaffected s s') : s.importer.Grows s'.importer :=
  .of_tables same.tables

namespace Orderly

variable {s s' : Evaluation}

section

variable (orderly : R.Orderly s)

include orderly

theorem of_loads (frame : ∀ id, (s.frames.get id).Indexed (s'.frames.get id))
    (grows : s.importer.Grows s'.importer) (span : s'.span = s.span)
    (holds : R.holds s'.importer.tables s'.trace.openings) : R.Orderly s' where
  holds := holds
  frames id := ((orderly.frames id).indexed (frame id)).mono grows
  span := by
    rw [span]
    exact orderly.span.imp_right fun known => R.knownLater known grows

theorem congr (same : Unaffected s s') : R.Orderly s' := by
  refine orderly.of_loads (fun id => same.frames ▸ .refl _) same.grows same.span ?_
  rw [same.tables, same.openings]
  exact orderly.holds

theorem of_quiet (quiet : Quiet s s') : R.Orderly s' := by
  refine orderly.of_loads quiet.frame (quiet.importer ▸ .rfl) quiet.span ?_
  rw [quiet.importer, quiet.trace]
  exact orderly.holds

theorem add (governs : R.Governs s.importer f) :
    R.Orderly { s with frames := (s.frames.add f).2 } :=
  { orderly with frames := Frames.forall_get_add orderly.frames governs }

theorem modify {id : FrameId} {change : Frame → Frame}
    (governs : R.Governs s.importer (s.frames.get id) →
      R.Governs s.importer (change (s.frames.get id))) :
    R.Orderly { s with frames := s.frames.modify id change } :=
  { orderly with frames := Frames.forall_get_modify orderly.frames (governs (orderly.frames id)) }

end

end Orderly

/-! ## Computations under a regime -/

variable (R) in
/-- From the state `s`, the computation has failed under the regime. -/
structure Failed (m : Bool) (s : Evaluation) (f : Failure) (s' : Evaluation) : Prop where
  law : R.law s'.trace.openings
  grows : s.importer.Grows s'.importer
  fails : R.fails m f s'.importer
  orderly : f.isUndefinedVariable = true → R.Orderly s'

variable (R) in
/-- From the state `s`, the computation ends in a state under the regime, and with a result as
    `post` says; whatever fails has been given a position if `m` says so. -/
def Upholds {α : Type} (m : Bool) (s : Evaluation) (x : Eval α) (post : α → Evaluation → Prop) :
    Prop :=
  Eval.Ends setting s x
    (fun a s' => R.Orderly s' ∧ s.importer.Grows s'.importer ∧ post a s') (R.Failed m s)

variable (R) in
/-- The computation upholds the regime wherever it holds. -/
def Sound {α : Type} (m : Bool) (x : Eval α) : Prop :=
  ∀ {s}, R.Orderly s → R.Upholds m s x fun _ _ => True

namespace Upholds

variable {α β : Type} {m : Bool} {s : Evaluation} {post : α → Evaluation → Prop}

theorem pure (orderly : R.Orderly s) (h : post a s) : R.Upholds m s (Pure.pure a : Eval α) post :=
  Eval.Ends.pure ⟨orderly, .rfl, h⟩

theorem fail (orderly : R.Orderly s) (fails : R.fails m f s.importer) :
    R.Upholds m s (fail f : Eval α) post :=
  Eval.Ends.fail ⟨R.lawful orderly.holds, .rfl, fails, fun _ => orderly⟩

theorem failWith (orderly : R.Orderly s) (cause : Cause) :
    R.Upholds false s (failWith cause : Eval α) post :=
  fail orderly (R.unplaced cause)

theorem exhausted (orderly : R.Orderly s) :
    R.Upholds m s (Eval.failWith .exhausted : Eval α) post :=
  fail orderly (R.loosen R.exhausted)

theorem loosen (h : R.Upholds true s x post) : R.Upholds m s x post :=
  Eval.Ends.mono h (fun _ _ ended => ended) fun _ _ failed =>
    { failed with fails := R.loosen failed.fails }

/-- The files that were loaded before count as loaded from the start. -/
theorem extend (grows : s.importer.Grows t.importer) (h : R.Upholds m t x post) :
    Eval.Ends setting t x
      (fun a s' => R.Orderly s' ∧ s.importer.Grows s'.importer ∧ post a s') (R.Failed m s) :=
  Eval.Ends.mono h (fun _ _ ended => ⟨ended.1, grows.trans ended.2.1, ended.2.2⟩)
    fun _ _ failed => { failed with grows := grows.trans failed.grows }

theorem bind {x : Eval β} {next : β → Eval α} {mid : β → Evaluation → Prop}
    (first : R.Upholds m s x mid)
    (then_ : ∀ b s', R.Orderly s' → s.importer.Grows s'.importer → mid b s' →
      R.Upholds m s' (next b) post) : R.Upholds m s (x >>= next) post := by
  refine Eval.Ends.seq first (fun b s' ended => ?_)
  obtain ⟨orderly, grows, h⟩ := ended
  exact extend grows (then_ b s' orderly grows h)

theorem mapFailure (h : R.Upholds m s x post) (same : ∀ f, (g f).cause = f.cause)
    (fails : ∀ f i, s.importer.Grows i → R.fails m f i → R.fails m' (g f) i) :
    R.Upholds m' s (mapFailure g x) post := by
  refine Eval.Ends.mapFailure (Eval.Ends.mono h (fun _ _ ended => ended) fun f s' failed => ?_)
  refine ⟨failed.law, failed.grows, fails f _ failed.grows failed.fails, fun undefined => ?_⟩
  apply failed.orderly
  unfold Failure.isUndefinedVariable at undefined ⊢
  rwa [same] at undefined

theorem locatedAt (h : R.Upholds m s x post) (known : R.known s.importer span) :
    R.Upholds true s (locatedAt span x) post :=
  h.mapFailure (fun _ => rfl) fun _ _ grows fails => R.located fails (R.knownLater known grows)

theorem insideOf (h : R.Upholds m s x post) (frame : Unit → String) :
    R.Upholds m s (insideOf frame x) post :=
  h.mapFailure (fun _ => rfl) fun _ _ _ fails => R.inside fails

theorem change (orderly : R.Orderly s) (same : Unaffected s (f s)) :
    R.Upholds m s (change f) fun _ _ => True :=
  ⟨orderly.congr same, same.grows, trivial⟩

theorem between (entered : Unaffected s (enter s)) (left : ∀ t, Unaffected t (leave t))
    (h : R.Upholds m (enter s) x fun _ _ => True) :
    R.Upholds m s (between enter leave x) fun _ _ => True := by
  refine Eval.Ends.between (Eval.Ends.mono h (fun a t ended => ?_) fun f t failed => ?_)
  · exact ⟨ended.1.congr (left t), (entered.grows.trans ended.2.1).trans (left t).grows, trivial⟩
  · exact ⟨(left t).openings ▸ failed.law, (entered.grows.trans failed.grows).trans (left t).grows,
      R.failsLater failed.fails (left t).grows, fun undefined =>
        (failed.orderly undefined).congr (left t)⟩

theorem ofState (h : R.Upholds m s (next s) post) : R.Upholds m s (state >>= next) post := h

theorem ofSetting (h : R.Upholds m s (next setting) post) :
    R.Upholds m s (Eval.setting >>= next) post := h

theorem addFrame (orderly : R.Orderly s) (governs : R.Governs s.importer f) :
    R.Upholds m s (addFrame f) fun _ _ => True :=
  ⟨orderly.add governs, .rfl, trivial⟩

theorem changeFrame (orderly : R.Orderly s) {id : FrameId} {f : Frame → Frame}
    (governs : R.Governs s.importer (s.frames.get id) →
      R.Governs s.importer (f (s.frames.get id))) :
    R.Upholds m s (changeFrame id f) fun _ _ => True :=
  ⟨orderly.modify governs, .rfl, trivial⟩

end Upholds

end Regime

namespace Eval

open Regime

variable {α : Type} {setting : Setting} {R : Regime setting} {m : Bool} {s : Evaluation}

theorem emit_upholds (orderly : R.Orderly s) (e : Event) :
    R.Upholds m s (emit e) fun _ _ => True :=
  .change orderly ⟨rfl, rfl, rfl, rfl⟩

theorem setSpan_upholds (orderly : R.Orderly s) (known : R.known s.importer span) :
    R.Upholds m s (setSpan span) fun _ _ => True :=
  ⟨{ orderly with span := .inr known }, .rfl, trivial⟩

/-! ## Values -/

theorem sound_composes : Composes fun _ x _ => R.Sound m x where
  pure _ := fun orderly => .pure orderly trivial
  bind first next := fun orderly =>
    Upholds.bind (first orderly) fun b _ orderly _ _ => next b orderly
  ofState _ _ h := fun {s} orderly => Upholds.ofState (h s orderly)
  ofSetting _ _ h := fun orderly => Upholds.ofSetting (h setting orderly)

/-- A warning is given the position of the rule that is being evaluated. -/
theorem warn_upholds (message : String) : R.Sound false (warn message) := by
  intro s orderly
  refine Upholds.ofState (Upholds.ofSetting ?_)
  split
  · rename_i strict
    refine .fail orderly ?_
    cases orderly.span with
    | inl start =>
      rw [start]
      exact R.warning message strict
    | inr known => exact R.loosen (R.placed _ known)
  · apply Upholds.bind (emit_upholds orderly _)
    exact fun _ _ orderly _ _ => .change orderly ⟨rfl, rfl, rfl, rfl⟩

theorem terms_upholds : Composes.Terms fun _ x _ => R.Sound false x where
  toComposes := sound_composes
  emit e := fun orderly => emit_upholds orderly e
  warn := warn_upholds
  inParens h := fun orderly => .between ⟨rfl, rfl, rfl, rfl⟩ (fun _ => ⟨rfl, rfl, rfl, rfl⟩)
    (h (orderly.congr ⟨rfl, rfl, rfl, rfl⟩))

theorem consult_upholds (orderly : R.Orderly s) (id : FrameId) :
    R.Upholds m s (consult id) fun index s' => ∃ f, R.Governs s'.importer f ∧ index = f.names := by
  have quiet := (consult_quiet id).ends setting s
  refine Ends.mono (Ends.and quiet (consult_ends id)) (fun index t ended => ?_) fun _ _ h => h.2.elim
  obtain ⟨kept, rfl⟩ := ended
  exact ⟨orderly.of_quiet kept, kept.importer ▸ .rfl, _, kept.importer ▸ orderly.frames id, rfl⟩

theorem lookupIn_upholds (name : String) (ids : List FrameId) (orderly : R.Orderly s) :
    R.Upholds m s (lookupIn name ids) fun found s' =>
      ∀ v, found = some v → R.known s'.importer v.definition.span := by
  induction ids generalizing s with
  | nil => exact .pure orderly (by simp)
  | cons id ids ih =>
    apply Upholds.bind (consult_upholds orderly id)
    intro index t orderly _ named
    split
    · rename_i v found
      refine .pure orderly fun w same => ?_
      obtain ⟨f, governs, rfl⟩ := named
      cases same
      exact governs.position found
    · exact ih orderly

theorem lookup_upholds (env : Environment) (name : String) (orderly : R.Orderly s) :
    R.Upholds false s (lookup env name) fun v s' => R.known s'.importer v.definition.span := by
  apply Upholds.bind (lookupIn_upholds name env.chain orderly)
  intro found t orderly _ known
  cases found with
  | some v => exact .pure orderly (known v rfl)
  | none => exact .failWith orderly _

theorem dereferenceWithin_upholds (env : Environment) (n : Nat) (v : Variable)
    (orderly : R.Orderly s) (known : R.known s.importer v.definition.span) :
    R.Upholds false s (dereferenceWithin env n v) fun _ _ => True := by
  induction n generalizing v s with
  | zero => exact .exhausted orderly
  | succ n ih =>
    apply Upholds.ofState
    split
    · exact .fail orderly (R.loosen (R.placed _ known))
    · have fetches : ∀ name,
          R.Sound false (do dereferenceWithin env n (← lookup env name)) := fun name _ orderly =>
        Upholds.bind (lookup_upholds env name orderly) fun w _ orderly _ known =>
          ih w orderly known
      have evaluated : R.Sound false (outsideParens (valueWith (fun name => do
          dereferenceWithin env n (← lookup env name)) v.definition.value)) := fun orderly =>
        Upholds.ofState (.between ⟨rfl, rfl, rfl, rfl⟩ (fun _ => ⟨rfl, rfl, rfl, rfl⟩)
          (terms_upholds.spine.valueWith_self fetches _ (orderly.congr ⟨rfl, rfl, rfl, rfl⟩)))
      refine (Upholds.locatedAt (m := false) ?_ known).loosen
      exact .between ⟨rfl, rfl, rfl, rfl⟩ (fun _ => ⟨rfl, rfl, rfl, rfl⟩)
        (evaluated (orderly.congr ⟨rfl, rfl, rfl, rfl⟩))

theorem dereference_upholds (env : Environment) (v : Variable) (orderly : R.Orderly s)
    (known : R.known s.importer v.definition.span) :
    R.Upholds false s (dereference env v) fun _ _ => True :=
  Upholds.ofState (dereferenceWithin_upholds env _ v orderly known)

theorem values_upholds : Composes.Conditions fun _ x _ => R.Sound false x where
  toTerms := terms_upholds
  value env v := terms_upholds.spine.valueWith_self (fun name _ orderly =>
    Upholds.bind (lookup_upholds env name orderly) fun w _ orderly _ known =>
      dereference_upholds env w orderly known) v

theorem defaultGroup_upholds (callable : Callable) (scope : Environment) :
    R.Sound false (defaultGroup callable scope) :=
  values_upholds.defaultGroup (fun _ h _ orderly => Upholds.ofState (.between ⟨rfl, rfl, rfl, rfl⟩
    (fun _ => ⟨rfl, rfl, rfl, rfl⟩) (h (orderly.congr ⟨rfl, rfl, rfl, rfl⟩)))) callable scope

theorem evaluatePrelude_upholds (env : Environment) (prelude : Option Value) (orderly : R.Orderly s)
    (known : R.known s.importer span) :
    R.Upholds true s (evaluatePrelude env span prelude) fun _ _ => True := by
  cases prelude with
  | none => exact .pure orderly trivial
  | some v =>
    apply Upholds.bind ((values_upholds.value env v orderly).locatedAt known)
    exact fun _ _ orderly _ _ => .pure orderly trivial

/-! ## Expanding imports -/

/-- Files are added to those that are known when an import is opened, and the trace and the position
    are left alone. -/
theorem openImport_grows (i : Import) (text : String) :
    Keeps setting (fun s s' => s'.trace = s.trace ∧ s'.span = s.span ∧ s.importer.Grows s'.importer)
      (openImport i text) := by
  have : IsPreorder Evaluation fun s s' =>
      s'.trace = s.trace ∧ s'.span = s.span ∧ s.importer.Grows s'.importer :=
    { refl := fun _ => ⟨rfl, rfl, .rfl⟩
      trans := fun _ _ _ first second => ⟨second.1.trans first.1, second.2.1.trans first.2.1,
        first.2.2.trans second.2.2⟩ }
  refine (Keeps.openings (fun _ => Keeps.change fun _ => ⟨rfl, rfl, .rfl⟩)
    (fun _ => Keeps.change fun _ => ⟨rfl, rfl, List.suffix_rfl, List.prefix_rfl⟩)
    (fun _ => Keeps.change fun _ => ⟨rfl, rfl, List.suffix_rfl, List.prefix_rfl⟩)
    fun path => ?_).openImport i text
  refine Keeps.of_ends fun s => Ends.ofState ?_
  split
  · exact Ends.change (Ends.pure ⟨rfl, rfl, .rfl⟩)
  · refine Ends.change (Ends.ofSetting ?_)
    split
    · exact Ends.failWith ⟨rfl, rfl, .rfl⟩
    · rename_i source _
      have registered : s.importer.files <+: s.importer.files ++ [some path] :=
        List.prefix_append _ _
      refine Ends.ofState (Ends.change ?_)
      cases Stylesheet.read source s.importer.files.length (some path.toPath) with
      | error f => exact Ends.fail ⟨rfl, rfl, List.suffix_rfl, registered⟩
      | ok sheet =>
        exact Ends.bind_of_ok rfl (Ends.change (Ends.pure
          ⟨rfl, rfl, List.suffix_cons _ _, registered⟩))

theorem importPath_upholds (orderly : R.Orderly s) (env : Environment)
    (known : R.known s.importer i.span) : R.Upholds true s (importPath env i) fun _ _ => True := by
  apply Upholds.bind (setSpan_upholds orderly known)
  intro _ t orderly grows _
  apply Upholds.bind ((values_upholds.value env i.path orderly).locatedAt
    (R.knownLater known grows))
  intro path u orderly _ _
  split <;> exact .pure orderly trivial

theorem openImport_upholds (orderly : R.Orderly s) (rule : R.rule s.importer ⟨.fileImport i, site⟩)
    (text : String) : R.Upholds false s (noteOpening i text (openImport i text)) fun opened s' =>
      ∀ path loaded, opened = .file path loaded →
        ∀ p ∈ contribution i loaded, R.rule s'.importer p := by
  have opens : Ends setting s (noteOpening i text (openImport i text))
      (fun opened s' => (R.holds s'.importer.tables s'.trace.openings ∧ s'.span = s.span ∧
          s.importer.Grows s'.importer) ∧
        ∀ path loaded, opened = .file path loaded →
          ∀ p ∈ contribution i loaded, R.rule s'.importer p)
      (fun f s' => (R.law s'.trace.openings ∧ R.fails false f s'.importer) ∧
        s.importer.Grows s'.importer) := by
    refine Ends.noteOpening (Ends.mono ((R.opens s _ i site text orderly.holds rule).and
      ((openImport_grows i text).ends setting s)) (fun opened t ended => ?_) fun f t ended => ?_)
    · obtain ⟨⟨holds, brought⟩, trace, span, grows⟩ := ended
      exact ⟨⟨by simpa [Evaluation.note, trace] using holds, span, grows⟩, brought⟩
    · obtain ⟨⟨law, fails⟩, trace, -, grows⟩ := ended
      exact ⟨⟨by simpa [Evaluation.note, trace] using law, fails⟩, grows⟩
  have loads := (noteOpening_loads i text).ends setting s
  have causes := ((openImport_failsOnly i text).noteOpening i text).ends setting s
  refine ((opens.and loads).and causes).mono (fun opened t ended => ?_) fun f t ended => ?_
  · obtain ⟨⟨⟨⟨holds, span, grows⟩, brought⟩, loads⟩, -⟩ := ended
    exact ⟨orderly.of_loads loads.frame grows span holds, grows, brought⟩
  · obtain ⟨⟨⟨⟨law, fails⟩, grows⟩, -⟩, cause⟩ := ended
    exact ⟨law, grows, fails, fun undefined => by
      simp [not_isUndefinedVariable_of_opening cause] at undefined⟩

theorem replaceImport_upholds (orderly : R.Orderly s) {i : Import} {site : Site}
    (rule : R.rule s.importer ⟨.fileImport i, site⟩) (id : FrameId) (env : Environment)
    (position : Nat) : R.Upholds true s (replaceImport id env position site i) fun _ _ => True := by
  apply Upholds.bind (importPath_upholds orderly env (R.position rule))
  intro found t orderly grows _
  have rule := R.mono rule grows
  apply Upholds.bind ((openImport_upholds orderly rule found.2).locatedAt (R.position rule))
  intro opened u orderly grows brought
  have rule := R.mono rule grows
  cases opened with
  | passThrough =>
    have settled : ∀ p ∈ [(⟨.fileImport { i with path := found.1 }, site⟩ : Placed)],
        R.rule u.importer p := by
      intro p member
      rw [List.mem_singleton.mp member]
      exact R.settled rule found.1
    apply Upholds.bind (.changeFrame orderly fun governs => governs.spliceAt settled ..)
    exact fun _ _ orderly _ _ => .pure orderly trivial
  | skipped =>
    apply Upholds.bind (.changeFrame orderly fun governs => governs.spliceAt (by simp) ..)
    exact fun _ _ orderly _ _ => .pure orderly trivial
  | file path loaded =>
    apply Upholds.ofState
    apply Upholds.bind (emit_upholds orderly _)
    intro _ v orderly grows _
    have new : ∀ p ∈ contribution i loaded, R.rule v.importer p := fun p member =>
      R.mono (brought path loaded rfl p member) grows
    apply Upholds.bind (.changeFrame orderly fun governs => governs.spliceAt new ..)
    exact fun _ _ orderly _ _ => .pure orderly trivial

theorem whileImporting_upholds (h : R.Sound m x) : R.Sound m (whileImporting x) :=
  fun orderly => .between ⟨rfl, rfl, rfl, rfl⟩ (fun _ => ⟨rfl, rfl, rfl, rfl⟩)
    (h (orderly.congr ⟨rfl, rfl, rfl, rfl⟩))

theorem atBaseDepth_upholds (depth : Nat) (h : R.Sound m x) : R.Sound m (atBaseDepth depth x) :=
  fun orderly => Upholds.ofState (.between ⟨rfl, rfl, rfl, rfl⟩ (fun _ => ⟨rfl, rfl, rfl, rfl⟩)
    (h (orderly.congr ⟨rfl, rfl, rfl, rfl⟩)))

section Expanding

variable {expandAt : Nat → Nat → Eval Nat}
  (expands : ∀ position count, R.Sound true (expandAt position count))

include expands

theorem spliceImport_upholds (orderly : R.Orderly s)
    (rule : R.rule s.importer ⟨.fileImport i, site⟩) (id : FrameId) (env : Environment)
    (position : Nat) :
    R.Upholds true s (spliceImport expandAt id env position site i) fun _ _ => True := by
  apply Upholds.bind (replaceImport_upholds orderly rule id env position)
  intro replacement t orderly _ _
  cases replacement with
  | settled count => exact .pure orderly trivial
  | opened count =>
    apply Upholds.bind (whileImporting_upholds (expands _ _) orderly)
    exact fun _ _ orderly _ _ => .pure orderly trivial

theorem expandRange_upholds (id : FrameId) (env : Environment) (defer : Bool)
    (position count : Nat) : R.Sound true (expandRange expandAt id env defer position count) := by
  induction count generalizing position with
  | zero => exact fun orderly => .pure orderly trivial
  | succ count ih =>
    intro s orderly
    apply Upholds.ofState
    split
    · rename_i i site nesting found
      split
      · apply Upholds.bind (emit_upholds orderly _)
        intro _ t orderly _ _
        apply Upholds.bind (Upholds.change orderly ⟨rfl, rfl, rfl, rfl⟩)
        exact fun _ _ orderly _ _ => ih _ orderly
      · have rule := (orderly.frames id).rules _ (Frame.mem_entries_of_entryAt found)
        apply Upholds.bind (spliceImport_upholds expands orderly rule id env position)
        exact fun _ _ orderly _ _ => ih _ orderly
    · exact ih _ orderly

end Expanding

theorem expandWithin_upholds (id : FrameId) (env : Environment) (defer : Bool)
    (levels position count : Nat) :
    R.Sound true (expandWithin id env defer levels position count) := by
  induction levels generalizing position count with
  | zero => exact fun orderly => .exhausted orderly
  | succ levels ih => exact expandRange_upholds ih id env defer position count

theorem expandImports_upholds (id : FrameId) (env : Environment) (defer : Bool) :
    R.Sound true (expandImports id env defer) := by
  intro s orderly
  refine Upholds.ofState (Upholds.ofSetting (atBaseDepth_upholds _ (fun orderly => ?_) orderly))
  apply Upholds.bind (expandWithin_upholds id env defer _ _ _ orderly)
  exact fun _ _ orderly _ _ => .pure orderly trivial

/-! ## Replaying deferred imports -/

theorem spliceDeferred_upholds (orderly : R.Orderly s) (root : FrameId) (d : DeferredImport)
    (rule : R.rule s.importer ⟨.fileImport i, site⟩) :
    R.Upholds true s (spliceDeferred root d site i) fun _ _ => True := by
  have entered : R.Orderly { s with importer := { s.importer with baseDepth := d.depth } } :=
    orderly.congr ⟨rfl, rfl, rfl, rfl⟩
  exact Upholds.ofSetting (Upholds.ofState (.between ⟨rfl, rfl, rfl, rfl⟩
    (fun _ => ⟨rfl, rfl, rfl, rfl⟩) (spliceImport_upholds (expandWithin_upholds root d.scope true _)
      entered (R.mono rule ⟨List.suffix_rfl, List.prefix_rfl⟩) root d.scope d.location)))

/-- The failure that a pass remembers has been given a position. -/
theorem replays_upholds (root : FrameId) (s : Evaluation) :
    Replays setting root (fun first t => R.Orderly t ∧ s.importer.Grows t.importer ∧
      ∀ f, first = some f → R.fails true f t.importer) (R.Failed true s) where
  requeue {_ t} events deferred holds := by
    obtain ⟨orderly, grows, first⟩ := holds
    have later : Unaffected t { t with events, importer := { t.importer with deferred } } :=
      ⟨rfl, rfl, rfl, rfl⟩
    exact ⟨orderly.congr later, grows.trans later.grows,
      fun f isFirst => R.failsLater (first f isFirst) later.grows⟩
  splice {first t d i site nesting} found holds := by
    obtain ⟨orderly, grows, earlier⟩ := holds
    have rule := (orderly.frames root).rules _ (Frame.mem_entries_of_entryAt found)
    refine Ends.mono (spliceDeferred_upholds orderly root d rule) ?_ ?_
    · intro _ u ended
      exact ⟨ended.1, grows.trans ended.2.1,
        fun f isFirst => R.failsLater (earlier f isFirst) ended.2.1⟩
    · intro f u failed
      split
      · rename_i undefined
        refine ⟨failed.orderly undefined, grows.trans failed.grows, fun g isFirst => ?_⟩
        rcases Option.or_eq_some_iff.mp isFirst with known | ⟨-, own⟩
        · exact R.failsLater (earlier g known) failed.grows
        · exact Option.some.inj own ▸ failed.fails
      · exact { failed with grows := grows.trans failed.grows }
  forget holds := ⟨holds.1, holds.2.1, by simp⟩
  stuck holds := ⟨R.lawful holds.1.holds, holds.2.1, holds.2.2 _ rfl, fun _ => holds.1⟩
  exhausted holds := ⟨R.lawful holds.1.holds, holds.2.1, R.exhausted, fun _ => holds.1⟩

theorem replayDeferred_upholds (root : FrameId) (width : Nat) :
    R.Sound true (replayDeferred root width) := by
  intro s orderly
  refine Ends.imp ((replays_upholds root s).replayDeferred ⟨orderly, .rfl, by simp⟩ width) ?_
  intro _ t ended
  exact ⟨ended.1, ended.2.1, trivial⟩

end Eval

end StyleResolution
