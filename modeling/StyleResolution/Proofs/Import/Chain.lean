import Mathlib.Data.List.TakeWhile
import StyleResolution.Proofs.Evaluation.Resolved
import StyleResolution.Proofs.Import.Tables
import StyleResolution.Proofs.Normal.FixedPoint

/-! # Chains of imports

A sheet imports a file, that file another one, and so on. The imports stand anywhere in their files,
inside of blocks or not, so some of them are expanded while others are open, and some only when the
block around them is evaluated. `At k` says that the files up to the number `k` were opened so far,
and `Carries j k` that a list of rules leads from one number to the other. The nesting that is
recorded with a rule is the number of its file; that is how the depth is counted across blocks. What
can stop the evaluation before the limit does are the rules on the way to the import beyond it: `Clear`
says that no others are met as long as the chain leads on.
-/

namespace StyleResolution

/-! ## Chains -/

namespace Rule

mutual

/-- The rule and the rules inside of it that are evaluated with it. Those in mixins are not. -/
def reached : Rule → List Rule
  | .ruleset selectors rules span => .ruleset selectors rules span :: reachedOf rules
  | .media features rules span => .media features rules span :: reachedOf rules
  | .atBlock name prelude rules span => .atBlock name prelude rules span :: reachedOf rules
  | r => [r]

def reachedOf : List Rule → List Rule
  | [] => []
  | r :: rules => r.reached ++ reachedOf rules

end

def asImport : Rule → Option Import
  | .fileImport i => some i
  | _ => none

def imports (r : Rule) : List Import :=
  r.reached.filterMap asImport

def importsOf (rules : List Rule) : List Import :=
  (reachedOf rules).filterMap asImport

/-- The rules that are met before the first import, those around it included. -/
def ahead (rules : List Rule) : List Rule :=
  (reachedOf rules).takeWhile fun r => r.asImport.isNone

def isCall : Rule → Bool
  | .call _ => true
  | _ => false

/-- Whether the rule is no ruleset, or has one selector, with elements and without `&`. -/
def isSingular : Rule → Bool
  | .ruleset [s] _ _ => !s.elements.isEmpty && !s.hasWildcard
  | .ruleset _ _ _ => false
  | _ => true

/-- Whether the values of the rule itself refer to no variable. -/
def isResolved : Rule → Bool
  | .variable d => !d.value.isUnresolved
  | r => !r.values.any Value.isUnresolved

end Rule

/-- The text by which the file of an import without variables is found. -/
def Setting.referenceOf (setting : Setting) (i : Import) : String :=
  (setting.settle i.path).reference

/-- The paths of the files by number, if the sheet and then `k` files were opened. -/
def filesUpTo (main : Option CanonicalPath) (path : Nat → CanonicalPath) (k : Nat) :
    List (Option CanonicalPath) :=
  main :: (List.range k).map fun j => some (path j)

/-- A sheet and `length` files, each of them imported once by the one before. The files have the
    numbers from 1 to `length`, and the sheet has the number 0. -/
structure ImportChain (setting : Setting) (sheet : Stylesheet) where
  length : Nat
  /-- The rules of each file by number. -/
  rules : Nat → List Rule
  /-- The import in each file by number. -/
  link : Nat → Import
  /-- The path of the file that is imported by each file. -/
  path : Nat → CanonicalPath
  lexical : setting.loader.Lexical
  starts : rules 0 = sheet.rules
  links : ∀ k < length, Rule.importsOf (rules k) = [link k]
  ends : Rule.importsOf (rules length) = []
  uncalled : ∀ k ≤ length, ∀ r ∈ Rule.reachedOf (rules k), r.isCall = false
  literal : ∀ k < length, (link k).isInterpolated = false
  kept : ∀ k < length, isPassThrough (link k).options (setting.referenceOf (link k)) = false
  leads : ∀ k < length, setting.search (setting.referenceOf (link k))
    (({ files := filesUpTo (setting.mainPath sheet) path k } : Importer).directory
      (link k).span.file) = some (path k)
  reads : ∀ k < length, setting.loader.Reads (path k) (k + 1) (rules (k + 1))
  distinct : ∀ j k, j < k → k < length → path j ≠ path k
  apart : ∀ k < length, setting.mainPath sheet ≠ some (path k)

namespace ImportChain

variable {setting : Setting} {sheet : Stylesheet} (c : ImportChain setting sheet)

/-- The rulesets in the files have one selector each, without `&`. -/
def Singular : Prop :=
  1 ≤ setting.options.maxSelectorExpansions ∧
    ∀ k ≤ c.length, ∀ r ∈ Rule.reachedOf (c.rules k), r.isSingular = true

/-- The values in the files refer to no variable. -/
def Resolved : Prop :=
  ∀ k ≤ c.length, ∀ r ∈ Rule.reachedOf (c.rules k), r.isResolved = true

/-- The sheet and the first `k` files were opened, and none is being evaluated. -/
structure At (k : Nat) (s : Evaluation) : Prop where
  within : k ≤ setting.options.maxImportDepth
  files : s.importer.files = filesUpTo (setting.mainPath sheet) c.path k
  cached : ∀ e ∈ s.importer.cache, ∃ j < k, e.1 = c.path j
  imported : ∀ p ∈ s.importer.imported, setting.mainPath sheet = some p ∨ ∃ j < k, p = c.path j
  remembers : s.importer.Remembers setting
  deferred : s.importer.deferred = []
  unguarded : s.defaultAnswer = none
  resting : s.evaluating = []

variable {c}

theorem At.quiet (h : c.At k s) (quiet : Quiet s s') : c.At k s' where
  within := h.within
  files := quiet.importer ▸ h.files
  cached := quiet.importer ▸ h.cached
  imported := quiet.importer ▸ h.imported
  remembers := quiet.importer ▸ h.remembers
  deferred := quiet.importer ▸ h.deferred
  unguarded := quiet.defaultAnswer.trans h.unguarded
  resting := quiet.evaluating.trans h.resting

variable (c) in
/-- No file was opened between the two states. -/
def Stays (s s' : Evaluation) : Prop :=
  ∀ k, c.At k s → c.At k s'

instance : IsPreorder Evaluation c.Stays where
  refl _ _ h := h
  trans _ _ _ first second k h := second k (first k h)

theorem At.opened (h : c.At k s) (within : k + 1 ≤ setting.options.maxImportDepth)
    (remembers : s'.importer.Remembers setting)
    (files : s'.importer.files = s.importer.files ++ [some (c.path k)])
    (cache : s'.importer.cache = (c.path k, loaded) :: s.importer.cache)
    (imported : s'.importer.imported = c.path k :: s.importer.imported)
    (deferred : s'.importer.deferred = s.importer.deferred)
    (defaultAnswer : s'.defaultAnswer = s.defaultAnswer) (evaluating : s'.evaluating = s.evaluating) :
    c.At (k + 1) s' := by
  have wider : ∀ {P : Nat → Prop}, (∃ j < k, P j) → ∃ j < k + 1, P j := by
    intro P earlier
    obtain ⟨j, before, holds⟩ := earlier
    exact ⟨j, by omega, holds⟩
  refine ⟨within, ?_, ?_, ?_, remembers, deferred.trans h.deferred,
    defaultAnswer.trans h.unguarded, evaluating.trans h.resting⟩
  · simp [files, h.files, filesUpTo, List.range_succ]
  · intro e member
    rw [cache] at member
    cases List.mem_cons.mp member with
    | inl first => exact ⟨k, by omega, by rw [first]⟩
    | inr earlier => exact wider (h.cached e earlier)
  · intro p member
    rw [imported] at member
    cases List.mem_cons.mp member with
    | inl first => exact .inr ⟨k, by omega, first⟩
    | inr earlier => exact (h.imported p earlier).imp_right wider

end ImportChain

namespace Eval

variable {setting : Setting} {sheet : Stylesheet} {c : ImportChain setting sheet} {s : Evaluation}
  {k : Nat}

/-! ## Opening the next file -/

theorem loadFile_reads (absent : s.importer.cache.lookup path = none)
    (reads : setting.loader.Reads path s.importer.files.length rules) :
    loadFile path setting s = (.ok ⟨s.importer.files.length, rules⟩,
      { s with
        events := s.events.push (.cacheMiss path)
        importer := { s.importer with
          files := s.importer.files ++ [some path]
          cache := (path, ⟨s.importer.files.length, rules⟩) :: s.importer.cache } }) := by
  obtain ⟨source, sheet, loads, read, rfl⟩ := reads
  simp only [loadFile, bind_apply, state, absent, emit, change, Eval.setting, loads, changeImporter,
    read, ofExcept, pure_apply]

theorem openImport_links (h : c.At k s) (inside : k < c.length) (nested : s.importer.nesting = k) :
    Ends setting s (openImport (c.link k) (setting.referenceOf (c.link k)))
      (fun opened s' => opened = .file (c.path k) ⟨k + 1, c.rules (k + 1)⟩ ∧ c.At (k + 1) s')
      (fun f _ => k = setting.options.maxImportDepth ∧
        f.cause = .importTooDeep (setting.referenceOf (c.link k)) k) := by
  have within := h.within
  unfold openImport
  rw [c.kept k inside, if_neg Bool.false_ne_true]
  apply Ends.ofSetting
  apply Ends.ofState
  rw [nested]
  split
  · have same : k = setting.options.maxImportDepth := by omega
    exact Ends.failWith ⟨same, by rw [← same]⟩
  · apply Ends.ofState
    apply Ends.bind (resolveReference_searches c.lexical h.remembers _ _) ?_ nofun
    rintro found t ⟨answer, resolved, rfl, remembers⟩
    have leads := c.leads k inside
    simp only [Importer.directory, Importer.filePath, ← h.files] at leads
    have answered : found = .ok (c.path k) := by
      simp only [answer, Setting.answer, Importer.directory, Importer.filePath, leads]
    subst answered
    have number : s.importer.files.length = k + 1 := by simp [h.files, filesUpTo]
    have read : setting.loader.Reads (c.path k) s.importer.files.length (c.rules (k + 1)) :=
      number ▸ c.reads k inside
    have new : c.path k ∉ s.importer.imported := by
      intro member
      cases h.imported _ member with
      | inl main => exact c.apart k inside main
      | inr earlier =>
        obtain ⟨j, before, same⟩ := earlier
        exact c.distinct j k before inside same.symm
    have absent : s.importer.cache.lookup (c.path k) = none := by
      apply List.lookup_eq_none_iff.mpr
      intro e cached
      obtain ⟨j, before, same⟩ := h.cached e cached
      simpa [same] using (c.distinct j k before inside).symm
    refine .ofSetting (.ofState ?_)
    rw [if_neg (by simp [new])]
    refine .change (.bind_of_ok (loadFile_reads absent read) (.pure ⟨?_, ?_⟩))
    · simp [number]
    · exact h.opened (by omega) remembers rfl rfl rfl rfl rfl rfl

end Eval

/-! ## Rules that lead on -/

namespace Rule

theorem mem_reachedOf : p ∈ reachedOf rules ↔ ∃ r ∈ rules, p ∈ r.reached := by
  induction rules with
  | nil => simp [reachedOf]
  | cons r rules ih => simp [reachedOf, ih]

theorem mem_reached_self (r : Rule) : r ∈ r.reached := by
  cases r <;> simp [reached]

theorem importsOf_cons (r : Rule) (rules : List Rule) :
    importsOf (r :: rules) = r.imports ++ importsOf rules :=
  List.filterMap_append

theorem importsOf_eq_nil : importsOf rules = [] ↔ ∀ r ∈ rules, r.imports = [] := by
  induction rules with
  | nil => simp [importsOf, reachedOf]
  | cons r rules ih => simp [importsOf_cons, ih]

theorem imports_of_block (block : r.reached = r :: reachedOf rules) (other : r.asImport = none) :
    r.imports = importsOf rules := by
  simp [imports, importsOf, block, other]

theorem imports_of_isImport (plain : Compiler.isImport r = true) :
    ∃ i, r = .fileImport i ∧ r.imports = [i] := by
  cases r with
  | fileImport i => exact ⟨i, rfl, rfl⟩
  | _ => cases plain

theorem ahead_of_none (none : r.imports = []) (rules : List Rule) :
    ahead (r :: rules) = r.reached ++ ahead rules := by
  apply List.takeWhile_append_of_pos
  intro p part
  simp [List.filterMap_eq_nil_iff.mp none p part]

theorem ahead_of_some (some : r.imports = [i]) (rules : List Rule) : ahead (r :: rules) = ahead [r] := by
  have stops : r.reached.takeWhile (fun p => p.asImport.isNone) ≠ r.reached := by
    intro all
    have none : r.imports = [] := List.filterMap_eq_nil_iff.mpr fun p part =>
      Option.isNone_iff_eq_none.mp (List.takeWhile_eq_self_iff.mp all p part)
    rw [none] at some
    cases some
  have shorter := mt (List.takeWhile_prefix _).eq_of_length stops
  simp only [ahead, reachedOf, List.append_nil]
  rw [List.takeWhile_append, if_neg shorter]

theorem ahead_of_block (block : r.reached = r :: reachedOf rules) (other : r.asImport = none) :
    ahead [r] = r :: ahead rules := by
  simp [ahead, reachedOf, block, other]

theorem isImport_of_none (none : r.imports = []) : Compiler.isImport r = false := by
  cases r with
  | fileImport i => cases none
  | _ => rfl

end Rule

namespace ImportChain

variable {setting : Setting} {sheet : Stylesheet} (c : ImportChain setting sheet)

/-- If the files up to the number `j` were opened before the rules, then those up to `k` are
    afterwards. There is no import among the rules, or the one of the file `j`, which is then part
    of a rule of that file. -/
inductive Carries : Nat → Nat → List Entry → Prop where
  | nil (k : Nat) : Carries k k []
  | idle {j k : Nat} {e : Entry} {es : List Entry} (none : e.rule.imports = [])
      (rest : Carries j k es) : Carries j k (e :: es)
  | link {j : Nat} {e : Entry} {es : List Entry} (inside : j < c.length)
      (own : e.rule.imports = [c.link j]) (nesting : e.nesting = j)
      (rest : ∀ e ∈ es, e.rule.imports = []) : Carries j c.length (e :: es)

variable {c} {j k : Nat} {es : List Entry}

theorem Carries.of_none (none : ∀ e ∈ es, e.rule.imports = []) (k : Nat) : c.Carries k k es := by
  induction es with
  | nil => exact .nil k
  | cons e es ih =>
    simp only [List.forall_mem_cons] at none
    exact .idle none.1 (ih none.2)

theorem Carries.append (carries : c.Carries j k es) (none : ∀ e ∈ more, e.rule.imports = []) :
    c.Carries j k (es ++ more) := by
  induction carries with
  | nil => exact .of_none none j
  | idle own _ ih => exact .idle own ih
  | link inside own nesting rest =>
    exact .link inside own nesting (List.forall_mem_append.mpr ⟨rest, none⟩)

theorem Carries.le (carries : c.Carries j k es) : j ≤ k := by
  induction carries with
  | nil => exact Nat.le_refl _
  | idle _ _ ih => exact ih
  | link inside => exact Nat.le_of_lt inside

theorem Carries.eq_of_lt (carries : c.Carries j k es) (before : k < c.length) : j = k := by
  induction carries with
  | nil => rfl
  | idle _ _ ih => exact ih before
  | link => exact absurd before (Nat.lt_irrefl _)

/-- What comes after the next import is not ahead. -/
theorem Carries.ahead_append (carries : c.Carries j c.length es) (before : j < c.length)
    (more : List Entry) :
    Rule.ahead ((es ++ more).map (·.rule)) = Rule.ahead (es.map (·.rule)) := by
  generalize last : c.length = k at carries before
  induction carries with
  | nil => omega
  | idle none _ ih =>
    simp only [List.cons_append, List.map_cons, Rule.ahead_of_none none, ih last before]
  | link _ own =>
    exact (Rule.ahead_of_some own _).trans (Rule.ahead_of_some own _).symm

theorem Carries.of_link (inside : k < c.length)
    (links : Rule.importsOf (es.map (·.rule)) = [c.link k]) (nesting : ∀ e ∈ es, e.nesting = k) :
    c.Carries k c.length es := by
  induction es with
  | nil => simp [Rule.importsOf, Rule.reachedOf] at links
  | cons e es ih =>
    simp only [List.map_cons, Rule.importsOf_cons] at links
    simp only [List.forall_mem_cons] at nesting
    cases own : e.rule.imports with
    | nil =>
      rw [own, List.nil_append] at links
      exact .idle own (ih links nesting.2)
    | cons i more =>
      simp only [own, List.cons_append, List.cons.injEq, List.append_eq_nil_iff] at links
      obtain ⟨rfl, rfl, rest⟩ := links
      refine .link inside own nesting.1 fun e member => ?_
      exact Rule.importsOf_eq_nil.mp rest _ (List.mem_map_of_mem member)

theorem Carries.of_file (inside : k ≤ c.length)
    (own : Rule.importsOf (es.map (·.rule)) = Rule.importsOf (c.rules k))
    (nesting : ∀ e ∈ es, e.nesting = k) : c.Carries k c.length es := by
  cases Nat.lt_or_eq_of_le inside with
  | inl before => exact .of_link before (own.trans (c.links k before)) nesting
  | inr last =>
    subst last
    refine .of_none (fun e member => ?_) _
    exact Rule.importsOf_eq_nil.mp (own.trans c.ends) _ (List.mem_map_of_mem member)

variable (c) in
/-- What holds of the rules in the files holds of the rule. -/
structure Conforms (r : Rule) : Prop where
  uncalled : r.isCall = false
  singular : c.Singular → r.isSingular = true
  resolved : c.Resolved → r.isResolved = true

variable (c) in
def Fit (r : Rule) : Prop :=
  ∀ p ∈ r.reached, c.Conforms p

theorem Fit.self {r : Rule} (fit : c.Fit r) : c.Conforms r :=
  fit r (Rule.mem_reached_self r)

theorem Fit.of_file (inside : k ≤ c.length) : ∀ r ∈ c.rules k, c.Fit r := by
  intro r member p part
  have reached : p ∈ Rule.reachedOf (c.rules k) := Rule.mem_reachedOf.mpr ⟨r, member, part⟩
  exact ⟨c.uncalled k inside p reached, fun singular => singular.2 k inside p reached,
    fun resolved => resolved k inside p reached⟩

theorem Fit.inner {r : Rule} {rules : List Rule} (fit : c.Fit r)
    (block : r.reached = r :: Rule.reachedOf rules) : ∀ p ∈ rules, c.Fit p := by
  intro p member q part
  apply fit
  rw [block]
  exact List.mem_cons_of_mem _ (Rule.mem_reachedOf.mpr ⟨p, member, part⟩)

variable (c)

/-- What stands in the place of the import of a file when it was opened. -/
def contributed : Nat → List Rule
  | 0 => c.rules 0
  | k + 1 => (Eval.contribution (c.link k) ⟨k + 1, c.rules (k + 1)⟩).map (·.rule)

/-- The rules before and around the imports in the sheet and the first `k` files, in order. -/
def way : Nat → List Rule
  | 0 => Rule.ahead (c.contributed 0)
  | k + 1 => way k ++ Rule.ahead (c.contributed (k + 1))

/-- The rule is on the way to the first import beyond the limit, and is evaluated before that import
    is opened: it is a block around an import, or such a block comes after it. What is on the way
    behind the last of these blocks is evaluated later, when all imports at the top of the block were
    opened. -/
def Ahead (r : Rule) : Prop :=
  ∃ front block, front ++ [block] <+: c.way setting.options.maxImportDepth ∧ block.imports ≠ [] ∧
    r ∈ front ++ [block]

/-- The rules are the next ones on the way, behind those in `front`. If there is no import among
    them, they are evaluated before the next one. -/
structure Clear (front : List Rule) (j k : Nat) (rules : List Rule) : Prop where
  idle : j = k → k < c.length → ∀ r ∈ Rule.reachedOf rules, c.Ahead r
  leads : j < k → front ++ Rule.ahead rules = c.way j

/-- The rules lead from one number to the other, and nothing is amiss in them. -/
structure Ready (front : List Rule) (j k : Nat) (es : List Entry) : Prop where
  carries : c.Carries j k es
  fit : ∀ e ∈ es, c.Fit e.rule
  clear : c.Clear front j k (es.map (·.rule))

/-- A rule that is met on the way along the chain. -/
structure Met (r : Rule) : Prop where
  conforms : c.Conforms r
  ahead : setting.options.maxImportDepth < c.length → c.Ahead r

/-- The rule cannot be evaluated where a number of files are open: a value of its own fails for the
    cause, or its selectors cannot be combined with those around. -/
inductive Spoils : Rule → Cause → Prop where
  | value {r : Rule} {v : Value} {env : Environment} {k : Nat} {s : Evaluation} {f : Failure}
      (own : v ∈ r.values) (unresolved : v.isUnresolved = true) (opened : c.At k s)
      (fails : (Eval.value env v setting s).1 = .error f) (blamed : Eval.OfValue f.cause) :
      Spoils r f.cause
  | definition {d : Definition} {site : Site} {env : Environment} {k : Nat} {s : Evaluation}
      {f : Failure} (unresolved : d.value.isUnresolved = true) (opened : c.At k s)
      (fails : (Eval.dereference env ⟨d, site⟩ setting s).1 = .error f)
      (blamed : Eval.OfValue f.cause) : Spoils (.variable d) f.cause
  | selectors {ancestors selectors : List Selector} {rules : List Rule} {span : Span}
      {error : Selector.CombineError} (mixed : ¬ c.Singular)
      (fails : Selector.combine ancestors selectors setting.options.maxSelectorExpansions =
        .error error) : Spoils (.ruleset selectors rules span) (.selectorCombination error)

/-- A failure is the one for the depth limit, which is lower than the chain is long; or else it is
    that of a rule which was met before. -/
def Stops (cause : Cause) : Prop :=
  (setting.options.maxImportDepth < c.length ∧
    cause = .importTooDeep (setting.referenceOf (c.link setting.options.maxImportDepth))
      setting.options.maxImportDepth) ∨
  (∃ r, c.Met r ∧ c.Spoils r cause) ∨ cause = .exhausted

/-- The computation ends as `ok` says, or with a failure that is accounted for. -/
abbrev Goes {α : Type} (s : Evaluation) (x : Eval α) (ok : α → Evaluation → Prop) : Prop :=
  Eval.Within c.Stops setting s x ok

variable {c} {front rules : List Rule}

theorem way_mono (le : j ≤ k) : c.way j <+: c.way k := by
  induction le with
  | refl => exact List.prefix_rfl
  | step _ ih => exact ih.trans (List.prefix_append ..)

theorem Clear.of_way (next : front ++ Rule.ahead rules = c.way k) : c.Clear front k c.length rules where
  idle _ before := absurd before (Nat.lt_irrefl _)
  leads _ := next

theorem Clear.tail (clear : c.Clear front j k (r :: rules)) (none : r.imports = []) :
    c.Clear (front ++ r.reached) j k rules where
  idle same before p part := clear.idle same before p (List.mem_append_right _ part)
  leads later := by
    rw [List.append_assoc, ← Rule.ahead_of_none none]
    exact clear.leads later

theorem Clear.cons (clear : c.Clear (front ++ r.reached) j k rules) (none : r.imports = [])
    (own : k < c.length → ∀ p ∈ r.reached, c.Ahead p) : c.Clear front j k (r :: rules) where
  idle same before := List.forall_mem_append.mpr ⟨own before, clear.idle same before⟩
  leads later := by
    rw [Rule.ahead_of_none none, ← List.append_assoc]
    exact clear.leads later

end ImportChain

namespace Eval

open ImportChain (Carries Ready Goes)

variable {setting : Setting} {sheet : Stylesheet} {c : ImportChain setting sheet} {s : Evaluation}
  {id : FrameId} {k : Nat}

/-! ## Expanding the imports of a frame -/

theorem value_stays (env : Environment) (v : Value) : Keeps setting c.Stays (value env v) :=
  fun s _ h => h.quiet (value_quiet env v s)

theorem importPath_links (h : c.At k s) (inside : k < c.length) (env : Environment) :
    c.Goes s (importPath env (c.link k)) fun found s' =>
      found.2 = setting.referenceOf (c.link k) ∧ c.At k s' ∧ Loads s s' := by
  have settles : c.Goes s (importPath env (c.link k)) fun found _ =>
      found.2 = setting.referenceOf (c.link k) := by
    refine ((importPath_settles env (c.literal k inside)).ends s).mono ?_ fun _ _ => False.elim
    intro found s' ended
    rw [ended.1 h.unguarded]
    rfl
  have stays : Keeps setting c.Stays (importPath env (c.link k)) := by
    refine .bind (.change fun s k h => { h with }) fun _ =>
      .bind ((value_stays env _).locatedAt _) fun path => ?_
    split <;> exact .pure _
  apply ((settles.keeping stays).keeping (importPath_loads env (c.link k))).imp
  intro found s' ended
  exact ⟨ended.1.1, ended.1.2 k h, ended.2⟩

theorem block_ready (inside : k ≤ c.length) (clear : c.Clear front k c.length (c.rules k))
    (site : Site) : c.Ready front k c.length (Frame.ofBlock site (c.rules k) k).entries where
  carries := .of_file inside (by rw [Frame.ofBlock_rules]) (by simp)
  fit e member := by
    have own := List.mem_map_of_mem (f := fun e : Entry => e.rule) member
    rw [Frame.ofBlock_rules] at own
    exact .of_file inside _ own
  clear := by rwa [Frame.ofBlock_rules]

/-- What a file of the chain contributes leads to the end of the chain, as one media block too. -/
theorem contribution_ready (inside : k < c.length) (own : c.Fit (.fileImport (c.link k))) :
    c.Ready (c.way k) (k + 1) c.length ((contribution (c.link k) ⟨k + 1, c.rules (k + 1)⟩).map
      fun p => { p with nesting := k + 1 }) := by
  have next : c.way k ++ Rule.ahead (c.contributed (k + 1)) = c.way (k + 1) := rfl
  cases media : (c.link k).media with
  | none =>
    simp only [ImportChain.contributed, contribution, media, Placed.ofBlock_rules] at next ⊢
    exact Frame.entries_ofBlock .. ▸ block_ready inside (.of_way next) _
  | some features =>
    simp only [ImportChain.contributed, contribution, media, List.map_cons, List.map_nil] at next ⊢
    refine ⟨.of_file inside ?_ (by simp), ?_, .of_way next⟩
    · simp only [List.map_cons, List.map_nil, Rule.importsOf_cons]
      rw [Rule.imports_of_block rfl rfl]
      exact List.append_nil _
    · intro e member
      obtain rfl := List.mem_singleton.mp member
      intro p part
      rcases List.mem_cons.mp part with rfl | inner
      · refine ⟨rfl, fun _ => rfl, fun resolved => ?_⟩
        have query : (c.link k).path.isUnresolved = false ∧ features.isUnresolved = false := by
          simpa [Rule.isResolved, Rule.values, media] using own.self.resolved resolved
        simp [Rule.isResolved, Rule.values, query.2]
      · obtain ⟨r, member, part⟩ := Rule.mem_reachedOf.mp inner
        exact ImportChain.Fit.of_file (c := c) inside r member p part

theorem replaceImport_links (h : c.At k s) (inside : k < c.length) (nested : s.importer.nesting = k)
    (own : c.Fit (.fileImport (c.link k))) (framed : id < s.frames.size)
    (entries : (s.frames.get id).entries = before ++ e :: after) (env : Environment) (site : Site) :
    c.Goes s (replaceImport id env before.length site (c.link k)) fun r s' =>
      id < s'.frames.size ∧ c.At (k + 1) s' ∧ s'.importer.nesting = k ∧
        ∃ new, (s'.frames.get id).entries = before ++ new ++ after ∧ r = .opened new.length ∧
          c.Ready (c.way k) (k + 1) c.length new := by
  apply Within.bind (importPath_links h inside env)
  intro found t ended
  obtain ⟨path, text⟩ := found
  obtain ⟨rfl, h, found⟩ := ended
  have nested : t.importer.nesting = k :=
    (Evaluation.nesting_eq_of_scopedPart_eq found.restored).trans nested
  have opening : c.Goes t (locatedAt (c.link k).span (noteOpening (c.link k)
      (setting.referenceOf (c.link k)) (openImport (c.link k)
        (setting.referenceOf (c.link k))))) fun opened u =>
          opened = .file (c.path k) ⟨k + 1, c.rules (k + 1)⟩ ∧ c.At (k + 1) u := by
    refine Within.locatedAt (.noteOpening ?_) _
    refine (openImport_links h inside nested).mono ?_ ?_
    · exact fun _ _ ended => ⟨ended.1, { ended.2 with }⟩
    · intro f u ended
      obtain ⟨rfl, cause⟩ := ended
      exact .inl ⟨inside, cause⟩
  refine Within.bind (opening.keeping ((noteOpening_loads _ _).locatedAt _)) ?_
  intro opened u ended
  obtain ⟨⟨rfl, h⟩, opened⟩ := ended
  have loads := found.trans opened
  have nested : u.importer.nesting = k :=
    (Evaluation.nesting_eq_of_scopedPart_eq opened.restored).trans nested
  have framed : id < u.frames.size := loads.size ▸ framed
  rw [← loads.entries id] at entries
  refine Ends.ofState (Ends.change (Ends.change (Ends.pure ⟨by simpa using framed, { h with },
    nested, _, ?_, ?_, contribution_ready inside own⟩)))
  · rw [Frames.get_modify_self framed, nested, Frame.entries_spliceAt, entries, splice_eq_append]
  · simp

variable (c id) in
/-- The rules between `before` and `after` were expanded: no import stands at their top any more, and
    they lead on to the number `k`. -/
structure Advanced (front : List Rule) (before final after : List Entry) (k : Nat)
    (s : Evaluation) : Prop where
  framed : id < s.frames.size
  entries : (s.frames.get id).entries = before ++ final ++ after
  expanded : ∀ e ∈ final, Compiler.isImport e.rule = false
  leads : ∃ m, c.At m s ∧ c.Ready front m k final

variable (c id) in
/-- Expanding a range of rules goes as far as the imports at its top lead. -/
def Advances (expandAt : Nat → Nat → Eval Nat) : Prop :=
  ∀ {s : Evaluation} {front : List Rule} {j k : Nat} (before range after : List Entry), c.At j s →
    s.importer.nesting = j → id < s.frames.size →
    (s.frames.get id).entries = before ++ range ++ after → c.Ready front j k range →
    c.Goes s (expandAt before.length range.length) fun stop s' =>
      ∃ final, Advanced c id front before final after k s' ∧ stop = before.length + final.length

theorem spliceImport_links (advances : Advances c id expandAt) (h : c.At k s)
    (inside : k < c.length) (nested : s.importer.nesting = k) (own : c.Fit (.fileImport (c.link k)))
    (framed : id < s.frames.size) (entries : (s.frames.get id).entries = before ++ e :: after)
    (env : Environment) (site : Site) :
    c.Goes s (spliceImport expandAt id env before.length site (c.link k)) fun count s' =>
      ∃ final, Advanced c id (c.way k) before final after c.length s' ∧ count = final.length := by
  apply Within.bind (replaceImport_links h inside nested own framed entries env site)
  intro r t ended
  obtain ⟨framed, h, nested, new, entries, rfl, ready⟩ := ended
  have deeper : t.importer.baseDepth + (t.importer.openImports + 1) = k + 1 := by
    rw [← Nat.add_assoc]
    exact congrArg (· + 1) nested
  have expanding : c.Goes t (whileImporting (expandAt before.length new.length)) fun stop u =>
      ∃ final, Advanced c id (c.way k) before final after c.length u ∧
        stop = before.length + final.length := by
    apply Ends.between
    refine Ends.imp (advances (s := { t with importer := { t.importer with
      openImports := t.importer.openImports + 1 } }) before new after { h with } deeper framed entries
      ready) ?_
    intro stop u ended
    obtain ⟨final, advanced, same⟩ := ended
    obtain ⟨m, h, ready⟩ := advanced.leads
    exact ⟨final, { advanced with leads := ⟨m, { h with }, ready⟩ }, same⟩
  apply Within.bind expanding
  intro stop u ended
  obtain ⟨final, advanced, rfl⟩ := ended
  exact .pure ⟨final, advanced, Nat.add_sub_cancel_left ..⟩

theorem expandRange_advances (advances : Advances c id expandAt) (env : Environment) (defer : Bool) :
    Advances c id (expandRange expandAt id env defer) := by
  intro s front j k before range after h nested framed entries ready
  obtain ⟨carries, fit, clear⟩ := ready
  induction carries generalizing front before with
  | nil => exact Ends.pure ⟨[], ⟨framed, entries, by simp, j, h, .nil j, by simp, clear⟩, rfl⟩
  | @idle k e range none rest ih =>
    simp only [List.forall_mem_cons] at fit
    unfold ImportChain.Goes Within Ends
    rw [List.length_cons, expandRange_passes expandAt env defer (by simpa using entries)
      (Rule.isImport_of_none none)]
    refine Ends.imp (ih _ (by simpa using entries) fit.2 (clear.tail none)) ?_
    intro stop u ended
    obtain ⟨final, advanced, same⟩ := ended
    obtain ⟨m, h, ready⟩ := advanced.leads
    refine ⟨e :: final, ⟨advanced.framed, by simpa using advanced.entries, ?_, m, h, ?_, ?_, ?_⟩, ?_⟩
    · exact List.forall_mem_cons.mpr ⟨Rule.isImport_of_none none, advanced.expanded⟩
    · exact .idle none ready.carries
    · exact List.forall_mem_cons.mpr ⟨fit.1, ready.fit⟩
    · refine ready.clear.cons none fun before p part => ?_
      exact clear.idle (rest.eq_of_lt before) before p (List.mem_append_left _ part)
    · simp [same]
      omega
  | @link e range inside own nesting rest =>
    have others : ∀ e ∈ range, Compiler.isImport e.rule = false :=
      fun e member => Rule.isImport_of_none (rest e member)
    cases plain : Compiler.isImport e.rule with
    | false =>
      have all : ∀ r ∈ e :: range, Compiler.isImport r.rule = false :=
        List.forall_mem_cons.mpr ⟨plain, others⟩
      unfold ImportChain.Goes Within Ends
      rw [expandRange_idle expandAt env defer entries all]
      exact ⟨_, ⟨framed, entries, all, j, h, .link inside own nesting rest, fit, clear⟩, rfl⟩
    | true =>
      obtain ⟨i, isImport, same⟩ := Rule.imports_of_isImport plain
      obtain rfl : i = c.link j := by simpa [own] using same.symm
      have ownFit := isImport ▸ fit e List.mem_cons_self
      have found : (s.frames.get id).entryAt before.length = some e := by
        simp [Frame.entryAt_eq, entries]
      obtain ⟨⟨rule, site⟩, nesting⟩ := e
      obtain rfl : rule = .fileImport (c.link j) := isImport
      -- All that is on the way so far was met before the import.
      obtain rfl : front = c.way j := (List.append_nil front).symm.trans (clear.leads inside)
      apply Ends.ofState
      rw [found]
      dsimp only
      rw [c.literal j inside, Bool.and_false, if_neg Bool.false_ne_true]
      apply Within.bind (spliceImport_links advances h inside nested ownFit framed
        (by simpa using entries) env site)
      intro count t ended
      obtain ⟨final, advanced, rfl⟩ := ended
      have behind : (t.frames.get id).entries = (before ++ final) ++ range ++ after := by
        simpa using advanced.entries
      unfold Within Ends
      rw [← List.length_append, expandRange_idle expandAt env defer behind others]
      obtain ⟨m, h, ready⟩ := advanced.leads
      refine ⟨final ++ range, ⟨advanced.framed, by simpa using behind, ?_, m, h, ?_, ?_, ?_⟩, ?_⟩
      · exact List.forall_mem_append.mpr ⟨advanced.expanded, others⟩
      · exact ready.carries.append rest
      · exact List.forall_mem_append.mpr ⟨ready.fit, (List.forall_mem_cons.mp fit).2⟩
      · refine ⟨fun _ before => absurd before (Nat.lt_irrefl _), fun later => ?_⟩
        rw [ready.carries.ahead_append later]
        exact ready.clear.leads later
      · simp [Nat.add_assoc]

theorem expandWithin_advances (env : Environment) (defer : Bool) (levels : Nat) :
    Advances c id (expandWithin id env defer levels) := by
  induction levels with
  | zero => exact fun _ _ _ _ _ _ _ _ => .failWith (.inr (.inr rfl))
  | succ levels ih => exact expandRange_advances ih env defer

end Eval

end StyleResolution
