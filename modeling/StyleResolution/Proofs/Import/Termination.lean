import Mathlib.Algebra.Order.Ring.Nat
import StyleResolution.Proofs.Scope.Sanity

/-! # Expanding imports comes to an end

A file is opened one level deeper than the import that names it, and no deeper than the limit allows,
so the levels that `expandWithin` is given never run out.

The deferred imports are bounded by a weight: an import at nesting `k` counts as much as all that the
file behind it could defer, at nesting `k + 1`, and one more. So a replayed import makes the queue
lighter, whatever it queues in turn.
-/

namespace StyleResolution

/-- What an import is worth in a queue, where no file has `width` rules. -/
def DeferredImport.weight (width limit : Nat) (d : DeferredImport) : Nat :=
  width ^ (limit - d.depth)

def queueWeight (width limit : Nat) (queue : List DeferredImport) : Nat :=
  (queue.map (DeferredImport.weight width limit)).sum

@[simp] theorem queueWeight_nil (width limit : Nat) : queueWeight width limit [] = 0 := rfl

@[simp] theorem queueWeight_cons (width limit : Nat) (d : DeferredImport)
    (queue : List DeferredImport) :
    queueWeight width limit (d :: queue) = d.weight width limit + queueWeight width limit queue := by
  simp [queueWeight]

@[simp] theorem queueWeight_append (width limit : Nat) (first second : List DeferredImport) :
    queueWeight width limit (first ++ second) =
      queueWeight width limit first + queueWeight width limit second := by
  simp [queueWeight]

@[simp] theorem queueWeight_shiftAll (width limit position : Nat) (delta : Int)
    (queue : List DeferredImport) :
    queueWeight width limit (DeferredImport.shiftAll position delta queue) =
      queueWeight width limit queue := by
  have same : ∀ d : DeferredImport,
      (d.shift position delta).weight width limit = d.weight width limit := by
    intro d
    unfold DeferredImport.shift
    split <;> rfl
  simp [queueWeight, DeferredImport.shiftAll, Function.comp_def, same]

/-- All that one file can defer weighs less than its import. -/
theorem opened_weight_lt {width limit nesting count : Nat} (narrow : count < width)
    (within : nesting + 1 ≤ limit) :
    count * width ^ (limit - (nesting + 1)) < width ^ (limit - nesting) := by
  have level : limit - nesting = limit - (nesting + 1) + 1 := by omega
  have positive : 0 < width ^ (limit - (nesting + 1)) := Nat.pow_pos (by omega)
  rw [level, Nat.pow_succ, Nat.mul_comm (width ^ _)]
  exact Nat.mul_lt_mul_of_pos_right narrow positive

/-- Which rules may stand in a frame at a base nesting: plain imports, and the rules of files that
    were opened deeper than the base. -/
structure Admits (setting : Setting) (sheet : Stylesheet) (base : Nat) (allowed : Entry → Prop) :
    Prop where
  plain : ∀ i site nesting, allowed ⟨⟨.fileImport i, site⟩, nesting⟩
  loaded : ∀ p nesting, base < nesting → nesting ≤ setting.options.maxImportDepth →
    (∀ inner, p.rule.block? = some inner →
      Rule.sizes inner < Compiler.ruleBound setting.loader sheet) → allowed ⟨p, nesting⟩

/-- A sane state in which only allowed rules stand in a frame whose imports are being expanded. -/
structure Hosts (setting : Setting) (sheet : Stylesheet) (id : FrameId) (base : Nat)
    (allowed : Entry → Prop) (s : Evaluation) : Prop where
  sane : Sane setting sheet s
  inside : id < s.frames.size
  allowed : ∀ e ∈ (s.frames.get id).entries, allowed e
  nested : base ≤ s.importer.nesting

variable {setting : Setting} {sheet : Stylesheet} {id : FrameId} {base : Nat}
  {allowed : Entry → Prop} {s : Evaluation}

theorem Hosts.of_loads (hosts : Hosts setting sheet id base allowed s) (loads : Loads s s')
    (sane : Sane setting sheet s') : Hosts setting sheet id base allowed s' where
  sane := sane
  inside := loads.size ▸ hosts.inside
  allowed := by
    rw [loads.entries]
    exact hosts.allowed
  nested := by
    rw [Evaluation.nesting_eq_of_scopedPart_eq loads.restored]
    exact hosts.nested

theorem Hosts.congr (hosts : Hosts setting sheet id base allowed s) (frames : s'.frames = s.frames)
    (cache : s'.importer.cache = s.importer.cache) (nested : base ≤ s'.importer.nesting) :
    Hosts setting sheet id base allowed s' where
  sane := hosts.sane.congr frames cache
  inside := frames ▸ hosts.inside
  allowed := frames ▸ hosts.allowed
  nested := nested

theorem Contributes.admitted (admits : Admits setting sheet base allowed)
    (caches : setting.loader.Caches s.importer.cache) (nested : base ≤ s.importer.nesting)
    (h : Contributes setting s i site nesting r new) : ∀ e ∈ new, allowed e := by
  intro e member
  cases h with
  | plain =>
    cases List.mem_singleton.mp member
    exact admits.plain _ _ _
  | nothing => cases member
  | file cached within =>
    obtain ⟨p, contributed, rfl⟩ := List.mem_map.mp member
    have known := @Eval.contribution_known sheet _ _ _ cached i p contributed
    exact admits.loaded p _ (Nat.lt_succ_of_le nested) within fun inner block =>
      sizes_lt_of_known caches (known inner block)

theorem Contributes.opened (caches : setting.loader.Caches s.importer.cache)
    (h : Contributes setting s i site nesting (.opened count) new) :
    count ≤ Compiler.ruleBound setting.loader sheet ∧
      s.importer.nesting + 1 ≤ setting.options.maxImportDepth := by
  cases h with
  | @file path loaded cached within =>
    refine ⟨?_, within⟩
    have few := @sizes_lt_of_known sheet _ _ caches _ (mem_knownBlocks_of_cached cached)
    have := Rule.length_le_sizes loaded.rules
    unfold Eval.contribution Placed.ofBlock
    dsimp only at few ⊢
    split
    · simp only [List.length_singleton]
      omega
    · simp only [List.length_mapIdx]
      omega

namespace Eval

/-- The weight of the queue of a state. -/
abbrev weightOf (setting : Setting) (width : Nat) (s : Evaluation) : Nat :=
  queueWeight width setting.options.maxImportDepth s.importer.deferred

/-! ## Replacing an import -/

theorem importPath_finishes (env : Environment) (i : Import) (fresh : s.frames.Fresh) :
    Finishes setting s (importPath env i) fun _ _ => True := by
  have evaluates : Finishes setting { s with span := i.span } (locatedAt i.span (value env i.path))
      fun _ _ => True := Within.locatedAt (value_finishes env i.path (by exact fresh)) _
  refine Ends.change (Within.bind evaluates fun path t _ => ?_)
  split <;> trivial

theorem replaceImport_bounded (env : Environment) (position : Nat) (site : Site) (i : Import)
    (fresh : s.frames.Fresh) :
    Finishes setting s (replaceImport id env position site i) fun _ _ => True := by
  refine .bind (importPath_finishes env i fresh) fun found t _ => ?_
  have opens : Finishes setting t (locatedAt i.span (noteOpening i found.2 (openImport i found.2)))
      fun _ _ => True :=
    .of_failsOnly (((openImport_failsOnly i found.2).noteOpening i found.2).locatedAt i.span) nofun
  refine .bind opens fun opened u _ => ?_
  split <;> trivial

theorem replaceImport_hosts (admits : Admits setting sheet base allowed)
    (hosts : Hosts setting sheet id base allowed s) (env : Environment) (position : Nat)
    (site : Site) (i : Import) :
    Ends setting s (replaceImport id env position site i)
      (fun r s' => Hosts setting sheet id base allowed s' ∧
        s'.importer.deferred = s.importer.deferred ∧ s'.importer.nesting = s.importer.nesting ∧
        ∀ count, r = .opened count → count ≤ Compiler.ruleBound setting.loader sheet ∧
          s.importer.nesting + 1 ≤ setting.options.maxImportDepth)
      (fun f s' => f.cause ≠ .exhausted ∧ (f.isUndefinedVariable = true →
        i.isInterpolated = true ∧ Hosts setting sheet id base allowed s' ∧
          s'.importer.deferred = s.importer.deferred)) := by
  have replaced := @replaceImport_ends setting s id hosts.inside env position site i
  have bounded := @replaceImport_bounded setting id s env position site i hosts.sane.fresh
  have splices := (replaceImport_splices id env position site i).ends setting s
  have known : (Regime.sane setting sheet).rule s.importer ⟨.fileImport i, site⟩ := nofun
  have upholds := replaceImport_upholds hosts.sane known id env position
  refine Ends.mono (((Ends.and replaced bounded).and splices).and upholds) ?_ ?_
  · rintro r s' ⟨⟨⟨⟨new, contributes, entries, deferred, -⟩, -⟩, splices⟩, sane, -⟩
    have nesting := Evaluation.nesting_eq_of_scopedPart_eq splices.restored
    have nested : base ≤ s'.importer.nesting := nesting.symm ▸ hosts.nested
    refine ⟨⟨sane, splices.size ▸ hosts.inside, ?_, nested⟩, deferred, nesting, ?_⟩
    · intro e member
      rw [entries] at member
      simp only [List.mem_append] at member
      rcases member with (front | middle) | back
      · exact hosts.allowed e (List.mem_of_mem_take front)
      · exact Contributes.admitted admits sane.holds nested contributes e middle
      · exact hosts.allowed e (List.mem_of_mem_drop back)
    · rintro count rfl
      exact nesting ▸ Contributes.opened sane.holds contributes
  · rintro f s' ⟨⟨⟨⟨loads, interpolated⟩, different⟩, -⟩, failed⟩
    exact ⟨different, fun undefined =>
      ⟨interpolated undefined, hosts.of_loads loads (failed.orderly undefined), loads.deferred⟩⟩

/-! ## Splicing imports -/

/-- How the imports among some rules are expanded: the state hosts the frame as before, and what was
    queued weighs no more than the rules that were gone through. With `defer`, no failure is for an
    undefined variable. -/
def ExpandsWithin (setting : Setting) (sheet : Stylesheet) (id : FrameId) (base : Nat)
    (allowed : Entry → Prop) (width : Nat) (defer : Bool) (s : Evaluation) (count : Nat)
    (x : Eval Nat) : Prop :=
  Ends setting s x
    (fun _ s' => Hosts setting sheet id base allowed s' ∧
      weightOf setting width s' ≤ weightOf setting width s +
        count * width ^ (setting.options.maxImportDepth - s.importer.nesting))
    (fun f _ => f.cause ≠ .exhausted ∧ (defer = true → f.isUndefinedVariable = false))

section Expansion

variable (admits : Admits setting sheet base allowed) {width : Nat}
  (wide : Compiler.ruleBound setting.loader sheet < width)

theorem whileImporting_within (keeps : Keeps setting (Splices id) x)
    (h : ExpandsWithin setting sheet id base allowed width defer
      { s with importer := { s.importer with openImports := s.importer.openImports + 1 } } count x)
    (nested : base ≤ s.importer.nesting) : Ends setting s (whileImporting x)
      (fun _ s' => Hosts setting sheet id base allowed s' ∧
        weightOf setting width s' ≤ weightOf setting width s +
          count * width ^ (setting.options.maxImportDepth - (s.importer.nesting + 1)))
      (fun f _ => f.cause ≠ .exhausted ∧ (defer = true → f.isUndefinedVariable = false)) := by
  have splices := keeps.ends setting
    { s with importer := { s.importer with openImports := s.importer.openImports + 1 } }
  have both := Ends.and h splices
  rw [Ends.iff_cases] at both ⊢
  simp only [whileImporting, between]
  rcases run : x setting { s with
    importer := { s.importer with openImports := s.importer.openImports + 1 } } with ⟨outcome, t⟩
  constructor
  · rintro stop t' ⟨⟩
    obtain ⟨⟨hosts, weight⟩, splices⟩ := both.1 stop t run
    have parts := splices.restored
    simp only [Evaluation.scopedPart, Scoped.mk.injEq] at parts
    refine ⟨hosts.congr rfl rfl ?_, weight⟩
    simp only [Importer.nesting] at nested ⊢
    omega
  · rintro f t' ⟨⟩
    exact (both.2 f t run).1

include admits wide

theorem spliceImport_within {expandAt : Nat → Nat → Eval Nat} {defer : Bool}
    (keeps : ∀ position count, Keeps setting (Splices id) (expandAt position count))
    (expands : ∀ position count t, Hosts setting sheet id base allowed t →
      t.importer.nesting = s.importer.nesting + 1 →
      t.importer.nesting ≤ setting.options.maxImportDepth →
        ExpandsWithin setting sheet id base allowed width defer t count (expandAt position count))
    (hosts : Hosts setting sheet id base allowed s) (env : Environment) (position : Nat)
    (site : Site) (i : Import) :
    Ends setting s (spliceImport expandAt id env position site i)
      (fun _ s' => Hosts setting sheet id base allowed s' ∧
        weightOf setting width s' <
          weightOf setting width s + width ^ (setting.options.maxImportDepth - s.importer.nesting))
      (fun f s' => f.cause ≠ .exhausted ∧ (defer = true → f.isUndefinedVariable = true →
        i.isInterpolated = true ∧ Hosts setting sheet id base allowed s' ∧
          s'.importer.deferred = s.importer.deferred)) := by
  refine .bind (replaceImport_hosts admits hosts env position site i) ?_ ?_
  · rintro r t ⟨hosts', deferred, nesting, opened⟩
    have same : weightOf setting width t = weightOf setting width s := by rw [weightOf, deferred]
    cases r with
    | settled count =>
      refine .pure ⟨hosts', ?_⟩
      have : 0 < width ^ (setting.options.maxImportDepth - s.importer.nesting) :=
        Nat.pow_pos (by omega)
      omega
    | opened count =>
      obtain ⟨few, within⟩ := opened count rfl
      have inner := expands position count
        { t with importer := { t.importer with openImports := t.importer.openImports + 1 } }
        (hosts'.congr rfl rfl (Nat.le_succ_of_le hosts'.nested))
        (by rw [← nesting]; rfl) (by rw [← nesting] at within; exact within)
      have imported := whileImporting_within (keeps position count) inner hosts'.nested
      refine .bind imported ?_ ?_
      · rintro stop u ⟨hosts'', weight⟩
        refine .pure ⟨hosts'', ?_⟩
        have := opened_weight_lt (Nat.lt_of_le_of_lt few wide) within
        rw [nesting] at weight
        omega
      · rintro f u ⟨different, defined⟩
        exact ⟨different, fun deferring undefined => by simp [defined deferring] at undefined⟩
  · rintro f t ⟨different, blocked⟩
    exact ⟨different, fun _ => blocked⟩

theorem expandRange_within
    (keeps : ∀ position count, Keeps setting (Splices id) (expandAt position count))
    (expands : ∀ position count t, Hosts setting sheet id base allowed t →
      t.importer.nesting = nesting + 1 → t.importer.nesting ≤ setting.options.maxImportDepth →
      ExpandsWithin setting sheet id base allowed width defer t count (expandAt position count))
    (env : Environment) (position count : Nat) (hosts : Hosts setting sheet id base allowed s)
    (atNesting : s.importer.nesting = nesting) :
    ExpandsWithin setting sheet id base allowed width defer s count
      (expandRange expandAt id env defer position count) := by
  induction count generalizing position s with
  | zero => exact .pure ⟨hosts, Nat.le_add_right _ _⟩
  | succ count ih =>
    -- What is left after one more rule, given what this rule added to the queue.
    have onward : ∀ next t, Hosts setting sheet id base allowed t → t.importer.nesting = nesting →
        weightOf setting width t ≤ weightOf setting width s +
          width ^ (setting.options.maxImportDepth - s.importer.nesting) →
        Ends setting t (expandRange expandAt id env defer next count)
          (fun _ s' => Hosts setting sheet id base allowed s' ∧
            weightOf setting width s' ≤ weightOf setting width s +
              (count + 1) * width ^ (setting.options.maxImportDepth - s.importer.nesting))
          (fun f _ => f.cause ≠ .exhausted ∧ (defer = true → f.isUndefinedVariable = false)) := by
      intro next t hosts' nesting' weight
      refine .imp (ih next hosts' nesting') ?_
      rintro stop u ⟨hosts'', later⟩
      refine ⟨hosts'', ?_⟩
      rw [nesting'.trans atNesting.symm] at later
      rw [Nat.add_mul, Nat.one_mul]
      omega
    refine .ofState ?_
    split
    · rename_i i site _ _
      split
      · refine .change (.change (onward _ _ (hosts.congr rfl rfl hosts.nested) atNesting ?_))
        simp only [weightOf, Importer.defer, queueWeight_append, queueWeight_cons, queueWeight_nil,
          DeferredImport.weight]
        omega
      · rename_i direct
        have spliced := spliceImport_within admits wide keeps
          (fun position count t hosts' nesting' within =>
            expands position count t hosts' (nesting'.trans (by rw [atNesting])) within)
          hosts env position site i
        have splices := (spliceImport_splices keeps env position site i).ends setting s
        refine .bind (.and spliced splices) ?_ ?_
        · rintro inserted t ⟨⟨hosts', weight⟩, splices⟩
          exact onward _ t hosts'
            ((Evaluation.nesting_eq_of_scopedPart_eq splices.restored).trans atNesting)
            (Nat.le_of_lt weight)
        · rintro f t ⟨⟨different, blocked⟩, -⟩
          refine ⟨different, fun deferring => ?_⟩
          cases undefined : f.isUndefinedVariable with
          | false => rfl
          | true => simp [deferring, (blocked deferring undefined).1] at direct
    · exact onward _ s hosts atNesting (Nat.le_add_right _ _)

theorem expandWithin_within (env : Environment) (defer : Bool) (levels position count : Nat)
    (hosts : Hosts setting sheet id base allowed s) (some_ : 1 ≤ levels)
    (enough : setting.options.maxImportDepth + 1 ≤ s.importer.nesting + levels) :
    ExpandsWithin setting sheet id base allowed width defer s count
      (expandWithin id env defer levels position count) := by
  induction levels generalizing s position count with
  | zero => cases some_
  | succ levels ih =>
    refine expandRange_within admits wide (expandWithin_splices id env defer levels) ?_ env position
      count hosts rfl
    intro position count t hosts' nesting within
    exact ih position count hosts' (by omega) (by omega)

theorem expandImports_within (env : Environment) (defer : Bool)
    (hosts : ∀ s', s'.frames = s.frames → s'.importer.cache = s.importer.cache →
      s'.importer.nesting = (s.frames.get id).base + s.importer.openImports →
        Hosts setting sheet id base allowed s') :
    Finishes setting s (expandImports id env defer) fun _ s' =>
      Sane setting sheet s' ∧ (∀ e ∈ (s'.frames.get id).entries, allowed e) ∧
        weightOf setting width s' ≤ weightOf setting width s +
          (s.frames.get id).size * width ^ setting.options.maxImportDepth := by
  refine .ofState (.ofSetting (.ofState ?_))
  refine .between ?_
  have expanded := expandWithin_within admits wide env defer (setting.options.maxImportDepth + 1) 0
    (s.frames.get id).size
    (hosts { s with importer := { s.importer with baseDepth := (s.frames.get id).base } } rfl rfl rfl)
    (Nat.succ_pos _) (Nat.le_add_left _ _)
  refine Ends.bind expanded ?_ fun _ _ h => h.1
  rintro stop t ⟨hosts', weight⟩
  refine .pure ⟨hosts'.sane.congr rfl rfl, hosts'.allowed, Nat.le_trans weight ?_⟩
  refine Nat.add_le_add_left (Nat.mul_le_mul_left _ ?_) _
  exact Nat.pow_le_pow_right (by omega) (Nat.sub_le _ _)

end Expansion

end Eval

end StyleResolution
