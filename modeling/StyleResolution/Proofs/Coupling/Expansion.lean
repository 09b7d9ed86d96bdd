import StyleResolution.Proofs.Coupling.Calls

/-! # Expansions that belong together

Callables that belong together expand to the same output and export definitions that belong
together. A static body is the same in both compilations, and so is what it contributes; it is read
off the body, because a call of such a body may have been replaced, in which case only the first
compilation expands it.
-/

namespace StyleResolution

namespace Eval

variable {setting : Setting}

/-! ## Exports -/

def exportVariable (env : Environment) (v : Variable) : Eval Placed := do
  let value ← dereference env v
  let site ← makeSite
  pure ⟨.variable { v.definition with value }, site⟩

instance (env : Environment) (v : Variable) : Growing setting (exportVariable env v) := by
  unfold exportVariable
  infer_instance

variable {env : Environment} {e : Entry} {es : List Entry}

theorem exportsOf_variable (rule : e.rule = .variable d) :
    exportsOf env (e :: es) = exportVariable env ⟨d, e.site⟩ >>= fun p =>
      exportsOf env es >>= fun others => pure (p :: others) := by
  conv_lhs => unfold exportsOf
  rw [rule]
  simp only [exportVariable, bind_assoc, pure_bind]

theorem exportsOf_mixin (rule : e.rule = .mixin head rules) :
    exportsOf env (e :: es) = exportsOf env es >>= fun others => pure (e.toPlaced :: others) := by
  conv_lhs => unfold exportsOf
  rw [rule]

theorem exportsOf_other (rule : e.rule.isExport = false) :
    exportsOf env (e :: es) = exportsOf env es := by
  conv_lhs => unfold exportsOf
  split
  · rename_i isVariable
    simp [isVariable, Rule.isExport] at rule
  · rename_i isMixin
    simp [isMixin, Rule.isExport] at rule
  · rfl

theorem exportsOf_others (none_ : ∀ e ∈ new, e.rule.isExport = false) :
    exportsOf env (new ++ es) = exportsOf env es := by
  induction new with
  | nil => rfl
  | cons e new ih =>
    simp only [List.forall_mem_cons] at none_
    rw [List.cons_append, exportsOf_other none_.1, ih none_.2]

end Eval

open Eval

theorem World.rel_mono {W W' : World} (grown : W ≤ W') (related : Option.Rel W.ids o o') :
    Option.Rel W'.ids o o' := by
  cases related with
  | none => exact .none
  | some same => exact .some (grown.1 _ _ same)

/-- One more definition was made, and nothing else that matters was changed. -/
structure Makes (s s' : Evaluation) : Prop where
  extends_ : Extends s s'
  importer : s'.importer = s.importer
  made : s'.made = s.made + 1

theorem Eval.exportVariable_makes {setting : Setting} (env : Environment) (v : Variable)
    (s : Evaluation) :
    Ends setting s (exportVariable env v)
      (fun p s' => ∃ value, p = ⟨.variable { v.definition with value }, .made s.made⟩ ∧ Makes s s')
      fun _ _ => True := by
  refine .bind ((dereference_quiet env v).ends setting s) ?_ fun _ _ _ => trivial
  intro value t quiet
  refine ⟨value, by rw [← quiet.made], ?_⟩
  exact
    { extends_ := quiet.extends.trans { Extends.refl t with made := Nat.le_succ _ }
      importer := quiet.importer
      made := congrArg (· + 1) quiet.made }

namespace Coupling

variable {K : Coupling} {setting : Setting} {W W' : World} {s s' t t' : Evaluation} {i j : FrameId}
  {env env' : Environment}

def Exported (name : String) (s t : Evaluation) (p : Placed) (s' : Evaluation) (p' : Placed)
    (t' : Evaluation) : Prop :=
  ∃ d : Definition, d.name = name ∧ p = ⟨.variable d, .made s.made⟩ ∧
    p' = ⟨.variable d, .made t.made⟩ ∧ Makes s s' ∧ Makes t t'

theorem exportVariable_tied (lawful : K.Lawful setting) (envs : EnvLink W env env')
    (sim : K.Sim W s t) {v w : Variable} (agree : v.Agree (K.SiteLink W) w) :
    Tied (K.proviso False False) setting s t (exportVariable env v) (exportVariable env' w)
      (Exported v.definition.name s t) := by
  have alike : Alike (K.SiteLink W) False env env' setting s t (dereference env v)
      (dereference env' w) := dereference_alike agree (sim.sameScope lawful envs)
  have values : Tied (K.proviso False False) setting s t (dereference env v) (dereference env' w) _ :=
    alike.under (fun _ _ => trivial) id fun _ => trivial
  have exported : Tied (K.proviso False False) setting s t (exportVariable env v)
      (exportVariable env' w) fun p _ p' _ => p'.rule = p.rule := by
    refine .bind values ?_ fun _ => Growing.since inferInstance
    rintro value s₁ _ t₁ ⟨rfl, -⟩ _
    exact congrArg (fun d : Definition => Rule.variable { d with value }) agree.1.symm
  refine (exported.and (exportVariable_makes env v s) (exportVariable_makes env' w t)).mono ?_
  rintro _ s' _ t' ⟨rule, ⟨value, rfl, left⟩, ⟨value', rfl, right⟩⟩
  exact ⟨{ v.definition with value }, rfl, rfl, congrArg (Placed.mk · _) rule, left, right⟩

theorem Sim.makes (sim : K.Sim W s t) (left : Makes s s') (right : Makes t t') : K.Sim W s' t' :=
  sim.extend left.extends_ right.extends_ (by rw [left.importer, right.importer]; exact sim.importer)

section

variable (lawful : K.Lawful setting)

include lawful

theorem exportVariable_pairs (envs : EnvLink W env env') (sim : K.Sim W s t)
    (agree : v.Agree (K.SiteLink W) w) :
    K.Pairs setting W s t (exportVariable env v) (exportVariable env' w) fun W' p p' =>
      (∃ d : Definition, d.name = v.definition.name ∧ p.rule = .variable d) ∧ K.Linked W' p p' := by
  refine (exportVariable_tied lawful envs sim agree).mono ?_
  rintro _ s' _ t' ⟨d, name, rfl, rfl, left, right⟩
  refine ⟨W.addMade s.made t.made, W.le_addMade _ _, ⟨⟨d, name, rfl⟩, ?_⟩, ?_⟩
  · exact .definition (.inr ⟨s.made, t.made, .inr ⟨rfl, rfl⟩, rfl, rfl⟩)
  · refine (sim.makes left right).link (by rw [left.made]; omega) (by rw [right.made]; omega) ?_
    intro c d old
    have := sim.before c d old
    omega

theorem exportVariable_crossed {α β : Type} {R : World → α → β → Prop} (envs : EnvLink W env env')
    (sim : K.Sim W s t) {v v' w w' : Variable} (first : v.Agree (K.SiteLink W) v')
    (second : w.Agree (K.SiteLink W) w') {next : Placed → Placed → Eval α}
    {next' : Placed → Placed → Eval β} [growing : ∀ p q, Growing setting (next p q)]
    (then_ : ∀ W' p q p' q' s' t', W ≤ W' →
      (∃ d : Definition, d.name = v.definition.name ∧ p.rule = .variable d) →
      (∃ d : Definition, d.name = w.definition.name ∧ q.rule = .variable d) →
      K.Linked W' p p' → K.Linked W' q q' → K.Sim W' s' t' →
      K.Pairs setting W' s' t' (next p q) (next' p' q') R) :
    K.Pairs setting W s t (exportVariable env v >>= fun p => exportVariable env w >>= fun q => next p q)
      (exportVariable env' w' >>= fun q => exportVariable env' v' >>= fun p => next' p q) R := by
  have late : ∀ q' t₁, exportVariable env' w' setting t = (.ok q', t₁) →
      Tied (K.proviso False False) setting s t₁ (exportVariable env v) (exportVariable env' v')
        (Exported v.definition.name s t₁) := by
    intro q' t₁ run
    obtain ⟨-, -, makes⟩ := (exportVariable_makes env' w' t).result run
    exact exportVariable_tied lawful envs (sim.extendRight makes.extends_ makes.importer) first
  have early : ∀ p s₁, exportVariable env v setting s = (.ok p, s₁) →
      Tied (K.proviso False False) setting s₁ t (exportVariable env w) (exportVariable env' w')
        (Exported w.definition.name s₁ t) := by
    intro p s₁ run
    obtain ⟨-, -, makes⟩ := (exportVariable_makes env v s).result run
    exact exportVariable_tied lawful envs (sim.extendLeft makes.extends_ makes.importer) second
  refine .crossed id late early ?_ (Growing.since inferInstance)
    fun p q => Growing.since (growing p q)
  rintro _ s₁ _ s₂ _ t₁ _ t₂ ⟨d, name, rfl, rfl, left, right⟩ ⟨d', name', rfl, rfl, leftToo, rightToo⟩
  have madeLeft := left.made
  have madeRight := rightToo.made
  have ended : K.Sim W s₂ t₂ := (sim.makes left rightToo).makes leftToo right
  -- The definition that was made first here was made last there.
  let W₁ := W.addMade s.made t₁.made
  let W₂ := W₁.addMade s₁.made t.made
  have grown : W ≤ W₂ := (W.le_addMade _ _).trans (W₁.le_addMade _ _)
  have linked : K.Sim W₁ s₂ t₂ := by
    refine ended.link (by rw [leftToo.made]; omega) (by rw [right.made]; omega) fun c d old => ?_
    have := sim.before c d old
    omega
  have linkedToo : K.Sim W₂ s₂ t₂ := by
    refine linked.link (by rw [leftToo.made]; omega) (by rw [right.made]; omega) ?_
    rintro c d (old | ⟨rfl, rfl⟩)
    · have := sim.before c d old
      omega
    · omega
  have rest : Tied _ setting s₂ t₂ _ _ _ :=
    then_ W₂ _ _ _ _ s₂ t₂ grown ⟨d, name, rfl⟩ ⟨d', name', rfl⟩
      (.definition (.inr ⟨s.made, t₁.made, .inl (.inr ⟨rfl, rfl⟩), rfl, rfl⟩))
      (.definition (.inr ⟨s₁.made, t.made, .inr ⟨rfl, rfl⟩, rfl, rfl⟩)) linkedToo
  exact rest.mono fun _ _ _ _ ⟨W', further, result⟩ => ⟨W', grown.trans further, result⟩

theorem EntryLink.agree (link : K.EntryLink W e e') (rule : e.rule = .variable d) :
    e'.rule = .variable d ∧ Variable.Agree (K.SiteLink W) ⟨d, e.site⟩ ⟨d, e'.site⟩ := by
  have same : e'.rule = .variable d := (link.1.same lawful (by rw [rule]; rfl)).trans rule
  have agree := link.1.asVariable lawful
  unfold Placed.asVariable at agree
  rw [rule, same] at agree
  cases agree with
  | some agree => exact ⟨same, agree⟩

theorem cuts.not_isExport (isCut : K.cuts e new) :
    ∀ n ∈ new, n.rule.isExport = false := by
  intro n member
  have static := isCut.static lawful n member
  cases rule : n.rule <;> simp_all [Rule.isStatic, Rule.isExport]

theorem Linked.isExport (link : K.Linked W p p') :
    p'.rule.isExport = p.rule.isExport := by
  cases link.shape lawful with
  | leaf => rfl
  | @block r => cases r <;> rfl

/-- Rules of frames that belong together export definitions that belong together. -/
theorem exportsOf_pairs (envs : EnvLink W' env env') (sim : K.Sim W' s t)
    (matched : K.Matched W es es') (grown : W ≤ W') :
    K.Pairs setting W' s t (exportsOf env es) (exportsOf env' es')
      fun W' => Aligned Placed.rule K.cut (K.Linked W') := by
  induction matched generalizing W' s t with
  | nil => exact .pure .nil sim
  | @cons e e' es es' link rest ih =>
    by_cases isExport : e.rule.isExport = true
    · cases rule : e.rule with
      | «variable» d =>
        obtain ⟨same, agree⟩ := (link.mono grown).agree lawful rule
        rw [exportsOf_variable rule, exportsOf_variable same]
        refine .bind (exportVariable_pairs lawful envs sim agree) ?_
        rintro W₁ p p' s₁ t₁ grown₁ ⟨-, first⟩ sim₁
        refine .bind (ih (envs.mono grown₁) sim₁ (grown.trans grown₁)) ?_
        intro W₂ others others' s₂ t₂ grown₂ aligned sim₂
        exact .pure (.cons (first.mono grown₂) aligned) sim₂
      | mixin head rules =>
        obtain ⟨rules', same, -⟩ := link.1.inner lawful (congrArg Rule.block? rule)
        rw [rule] at same
        rw [exportsOf_mixin rule, exportsOf_mixin same]
        refine .bind (ih envs sim grown) ?_
        intro W₁ others others' s₁ t₁ grown₁ aligned sim₁
        exact .pure (.cons (link.1.mono (grown.trans grown₁)) aligned) sim₁
      | _ => simp [rule, Rule.isExport] at isExport
    · have other : e.rule.isExport = false := by simpa using isExport
      rw [exportsOf_other other, exportsOf_other ((link.1.isExport lawful).trans other)]
      exact ih envs sim grown
  | @swap v v' r r' es es' passes first second rest ih =>
    obtain ⟨d, isVariable, notImport, others⟩ := passes
    obtain ⟨same, agree⟩ := (first.mono grown).agree lawful isVariable
    by_cases isExport : r.rule.isExport = true
    · cases rule : r.rule with
      | «variable» d' =>
        obtain ⟨sameToo, agreeToo⟩ := (second.mono grown).agree lawful rule
        rw [exportsOf_variable isVariable, exportsOf_variable sameToo]
        simp only [exportsOf_variable rule, exportsOf_variable same, bind_assoc, pure_bind]
        refine exportVariable_crossed lawful envs sim agree agreeToo ?_
        rintro W₁ p q p' q' s₁ t₁ grown₁ ⟨c, name, isC⟩ ⟨c', name', isC'⟩ link linkToo sim₁
        refine .bind (ih (envs.mono grown₁) sim₁ (grown.trans grown₁)) ?_
        intro W₂ more more' s₂ t₂ grown₂ aligned sim₂
        refine Ties.pure (.swap ⟨c, isC, by rw [isC']; rfl, ?_⟩ (link.mono grown₂)
          (linkToo.mono grown₂) aligned) sim₂
        intro c'' again
        rw [isC'] at again
        cases again
        rw [name, name']
        exact others d' rule
      | mixin head rules =>
        obtain ⟨rules', sameToo, -⟩ := second.1.inner lawful (congrArg Rule.block? rule)
        rw [rule] at sameToo
        rw [exportsOf_variable isVariable, exportsOf_mixin sameToo]
        simp only [exportsOf_mixin rule, exportsOf_variable same, bind_assoc, pure_bind]
        refine .bind (exportVariable_pairs lawful envs sim agree) ?_
        rintro W₁ p p' s₁ t₁ grown₁ ⟨⟨c, name, isC⟩, link⟩ sim₁
        refine .bind (ih (envs.mono grown₁) sim₁ (grown.trans grown₁)) ?_
        intro W₂ more more' s₂ t₂ grown₂ aligned sim₂
        refine .pure (.swap ⟨c, isC, notImport, ?_⟩ (link.mono grown₂)
          (second.1.mono ((grown.trans grown₁).trans grown₂)) aligned) sim₂
        intro c' again
        rw [rule] at again
        cases again
      | _ => simp [rule, Rule.isExport] at isExport
    · have other : r.rule.isExport = false := by simpa using isExport
      rw [exportsOf_variable isVariable, exportsOf_other other,
        exportsOf_other ((second.1.isExport lawful).trans other), exportsOf_variable same]
      refine .bind (exportVariable_pairs lawful envs sim agree) ?_
      rintro W₁ p p' s₁ t₁ grown₁ ⟨-, link⟩ sim₁
      refine .bind (ih (envs.mono grown₁) sim₁ (grown.trans grown₁)) ?_
      intro W₂ more more' s₂ t₂ grown₂ aligned sim₂
      exact .pure (.cons (link.mono grown₂) aligned) sim₂
  | @cut e new es es' isCut rest ih =>
    have notCall : e.rule.isExport = false := by
      rw [isCut.rule]
      rfl
    rw [exportsOf_other notCall, exportsOf_others (isCut.not_isExport lawful)]
    exact ih envs sim grown

theorem Linked.mixin {p p' : Placed} (link : K.Linked W p p') :
    FrameData.isMixin p'.rule = FrameData.isMixin p.rule ∧
      (FrameData.isMixin p.rule = true → K.SiteLink W p.site p'.site) := by
  have shape := link.shape lawful
  cases link with
  | twin twin =>
    refine ⟨?_, fun _ => SiteLink.twin twin⟩
    cases shape with
    | leaf => rfl
    | @block r => cases r <;> rfl
  | definition => exact ⟨rfl, nofun⟩
  | fileImport => exact ⟨rfl, nofun⟩

theorem mixins_link (aligned : Aligned Placed.rule K.cut (K.Linked W) rules rules') :
    List.Forall₂ (fun p p' => K.SiteLink W p.site p'.site)
      (rules.filter fun p => FrameData.isMixin p.rule) (rules'.filter fun p => FrameData.isMixin p.rule) := by
  rw [← List.filterMap_eq_filter]
  apply Aligned.filterMap aligned
  · intro p p' link
    obtain ⟨same, sites⟩ := link.mixin lawful
    by_cases isMixin : FrameData.isMixin p.rule = true
    · simp only [Option.guard, same, isMixin, if_true]
      exact .some (sites isMixin)
    · simp only [Option.guard, same, isMixin]
      exact .none
  · rintro p q ⟨d, rule, -⟩
    exact .inl (by simp [Option.guard, rule, FrameData.isMixin])
  · intro p new isCut
    refine ⟨by simp [Option.guard, isCut.1, FrameData.isMixin], fun q member => ?_⟩
    have static := (lawful.inlines _ isCut.2.1).static
    rw [← isCut.2.2] at static
    have := Rule.areStatic_iff.mp static _ (List.mem_map_of_mem member)
    cases rule : q.rule <;> simp_all [Option.guard, Rule.isStatic, FrameData.isMixin]

theorem FrameLink.prependExports (one : OneToOne (K.SiteLink W)) {f f' source source' : Frame}
    (link : K.FrameLink W f f') (sources : K.FrameLink W source source')
    (aligned : Aligned Placed.rule K.cut (K.Linked W) rules rules')
    {closure closure' : List FrameId} (closures : List.Forall₂ W.ids closure closure') :
    K.FrameLink W (f.prependExports rules closure source)
      (f'.prependExports rules' closure' source') where
  entries := by
    rw [Frame.prependExports_entries, Frame.prependExports_entries, link.base]
    exact Aligned.append (Matched.ofPlaced aligned f.base) link.entries
  base := by rw [Frame.prependExports_base, Frame.prependExports_base, link.base]
  closures := by
    rw [Frame.prependExports_closures, Frame.prependExports_closures]
    refine List.rel_append (List.forall₂_reverse_iff.mpr ?_) link.closures
    refine List.forall₂_map_left_iff.mpr (List.forall₂_map_right_iff.mpr ?_)
    refine (mixins_link lawful aligned).imp fun p p' sites => ⟨sites, ?_⟩
    have own := sources.closureOf one sites
    dsimp only
    generalize source.closureOf p.site = found at own ⊢
    generalize source'.closureOf p'.site = found' at own ⊢
    cases own with
    | none => exact closures
    | some own => exact own

theorem exportTo_pairs {caller caller' : Option FrameId} (callers : Option.Rel W.ids caller caller')
    (envs : EnvLink W env env') (linked : W.ids params params') (bodies : W.ids i j)
    (sim : K.Sim W s t) :
    K.Pairs setting W s t (exportTo caller env params i) (exportTo caller' env' params' j)
      fun _ _ _ => True := by
  unfold exportTo
  cases callers with
  | none => exact .pure trivial sim
  | @some caller caller' called =>
    refine .ofFrame ?_
    refine .bind (exportsOf_pairs lawful envs sim (sim.frames i j bodies).entries le_rfl) ?_
    intro W' rules rules' s' t' grown aligned sim'
    refine .ofFrame fun _ => ⟨W', le_rfl, trivial, ?_⟩
    have closures : List.Forall₂ W'.ids [params, i] [params', j] :=
      .cons (grown.1 _ _ linked) (.cons (grown.1 _ _ bodies) .nil)
    refine sim'.modify (grown.1 _ _ called) ?_ (.prependExports (sim'.fresh _) _ _ _)
      (.prependExports (sim'.freshToo _) _ _ _)
    exact (sim'.frames _ _ (grown.1 _ _ called)).prependExports lawful (sim'.one lawful)
      (sim'.frames _ _ (grown.1 _ _ bodies)) aligned closures

end

/-! ## Bodies -/

/-- The evaluators give the same for blocks that belong together. -/
def Evaluates (K : Coupling) (setting : Setting) (n m : Nat) : Prop :=
  ∀ {W : World} {s t : Evaluation} {env env' : Environment} (ctx : Context), EnvLink W env env' →
    K.Sim W s t →
      K.Pairs setting W s t (blockWithin n env ctx) (blockWithin m env' ctx) fun _ a b => a = b

theorem Sim.pairs_of_settles (sim : K.Sim W s t) (left : Settles setting s x o)
    (right : Settles setting t y o) : K.Pairs setting W s t x y fun _ a b => a = b := by
  intro _
  rcases runX : x setting s with ⟨f | a, s'⟩ <;> rcases runY : y setting t with ⟨g | b, t'⟩
  · exact .failed id
  · obtain ⟨result, -⟩ := right.result runY
    rcases left.failure runX with nothing | spent
    · simp [nothing] at result
    · exact ⟨id, spent⟩
  · obtain ⟨result, -⟩ := left.result runX
    rcases right.failure runY with nothing | spent
    · simp [nothing] at result
    · exact ⟨id, spent⟩
  · obtain ⟨result, extended, importer⟩ := left.result runX
    obtain ⟨resultToo, extendedToo, importerToo⟩ := right.result runY
    refine ⟨W, le_rfl, Option.some.inj (result.symm.trans resultToo), ?_⟩
    exact sim.extend extended extendedToo (by rw [importer, importerToo]; exact sim.importer)

theorem count_eq {S : Site → Site → Prop} (one : OneToOne S) {sites sites' : List Site}
    (related : List.Forall₂ S sites sites') (same : S site site') :
    sites'.count site' = sites.count site := by
  induction related with
  | nil => rfl
  | @cons a a' _ _ first _ ih =>
    have found : (a' == site') = (a == site) := by
      rw [Bool.eq_iff_iff, beq_iff_eq, beq_iff_eq]
      exact (one first same).symm
    simp only [List.count_cons, ih, found]

theorem Sim.expand (sim : K.Sim W s t) (sites : K.SiteLink W site site')
    (busy : ¬ K.Exact → ∃ inner, K.block site inner ∧ Rule.areStatic inner = false) :
    K.Sim W { s with expanding := site :: s.expanding }
      { t with expanding := site' :: t.expanding } :=
  { sim with
    idle := { sim.idle with }
    idleToo := { sim.idleToo with }
    expanding := .cons sites sim.expanding
    busy := fun inexact => List.forall_mem_cons.mpr ⟨busy inexact, sim.busy inexact⟩ }

theorem Sim.expanded (sim : K.Sim W s t) :
    K.Sim W { s with expanding := s.expanding.tail } { t with expanding := t.expanding.tail } :=
  { sim with
    idle := { sim.idle with }
    idleToo := { sim.idleToo with }
    expanding := by simpa only [List.drop_one] using List.forall₂_drop 1 sim.expanding
    busy := fun inexact site member => sim.busy inexact site (List.mem_of_mem_tail member) }

section Bodies

variable {n m : Nat} {c c' : MatchedCandidate} {caller caller' : Option FrameId}

section

variable (lawful : K.Lawful setting)

include lawful

theorem expandImports_pairs (linked : W.ids i j) (envs : EnvLink W env env') (sim : K.Sim W s t) :
    K.Pairs setting W s t (expandImports i env false) (expandImports j env' false)
      fun _ _ _ => True :=
  .of_tied ((expandImports_tied lawful linked envs sim false nofun).mono
    fun _ _ _ _ ended => ⟨trivial, ended.1⟩)

theorem evaluateBody_pairs (evaluates : K.Evaluates setting n m) (link : K.MatchedLink W c c')
    (sim : K.Sim W s t) (ctx : Context) (nesting : Nat) :
    K.Pairs setting W s t (evaluateBody (blockWithin n) ctx nesting c)
      (evaluateBody (blockWithin m) ctx nesting c')
      fun W' x y => W'.ids x.1 y.1 ∧ x.2 = y.2 := by
  refine .bind (addBlock_ties sim (link.callable.aligned lawful).2 nesting) ?_
  intro W₁ i j s₁ t₁ grown₁ linked sim₁
  have envs := (link.scope.mono grown₁).push linked
  refine .bind (expandImports_pairs lawful linked envs sim₁) ?_
  rintro W₂ _ _ s₂ t₂ grown₂ - sim₂
  refine .bind (evaluates ctx (envs.mono grown₂) sim₂) ?_
  rintro W₃ output _ s₃ t₃ grown₃ rfl sim₃
  exact .pure ⟨grown₃.1 _ _ (grown₂.1 _ _ linked), rfl⟩ sim₃

theorem expandBody_pairs (evaluates : K.Evaluates setting n m) (link : K.MatchedLink W c c')
    (callers : Option.Rel W.ids caller caller') (sim : K.Sim W s t) (ctx : Context)
    (nesting : Nat) : K.Pairs setting W s t (expandBody (blockWithin n) ctx nesting caller c)
      (expandBody (blockWithin m) ctx nesting caller' c') fun _ a b => a = b := by
  refine .ofState (.ofSetting ?_)
  rw [count_eq (sim.one lawful) sim.expanding link.callable.site, link.callable.name]
  dsimp only
  split
  · exact .failWith _
  · have begun : K.Sim W (beginBody c.callable.site setting s).2
        (beginBody c'.callable.site setting t).2 :=
      sim.extend { Extends.refl s with } { Extends.refl t with } sim.importer
    refine .change (.change ?_)
    refine .bind (evaluateBody_pairs lawful evaluates link (begun.logged _ _) ctx nesting) ?_
    rintro W₁ ⟨i, output⟩ ⟨j, _⟩ s₁ t₁ grown ⟨linked, rfl⟩ sim₁
    have callers := World.rel_mono grown callers
    have envs := (link.scope.mono grown).push linked
    refine .bind (exportTo_pairs lawful callers envs (grown.1 _ _ link.params) linked sim₁) ?_
    rintro W₂ _ _ s₂ t₂ - - sim₂
    exact .pure rfl sim₂

theorem expand_static (inexact : ¬ K.Exact) (link : K.MatchedLink W c c') (sim : K.Sim W s t)
    (ctx : Context) (nesting : Nat) (static : Rule.areStatic c.callable.rules = true) :
    K.Pairs setting W s t
      (whileExpanding c.callable.site (expandBody (blockWithin n) ctx nesting caller c))
      (whileExpanding c'.callable.site (expandBody (blockWithin m) ctx nesting caller' c'))
      fun _ a b => a = b := by
  obtain ⟨replaced, isReplaced⟩ : ∃ site, K.replaced site := by
    simpa [Exact] using inexact
  have lenient := (lawful.inlines replaced isReplaced).lenient
  have same : c'.callable.rules = c.callable.rules :=
    lawful.block_static (link.callable.aligned lawful).2 static
  have counts : (c'.callable.site :: t.expanding).count c'.callable.site =
      (c.callable.site :: s.expanding).count c.callable.site :=
    count_eq (sim.one lawful) (.cons link.callable.site sim.expanding) link.callable.site
  have left := expand_settles (blockWithin_settles lenient n) ctx nesting caller static sim.idle
  have right := expand_settles (blockWithin_settles lenient m) ctx nesting caller' (same ▸ static)
    sim.idleToo
  rw [counts, same] at right
  exact sim.pairs_of_settles left right

theorem expand_pairs (evaluates : K.Evaluates setting n m) (link : K.MatchedLink W c c')
    (callers : Option.Rel W.ids caller caller') (sim : K.Sim W s t) (ctx : Context)
    (nesting : Nat) : K.Pairs setting W s t
      (whileExpanding c.callable.site (expandBody (blockWithin n) ctx nesting caller c))
      (whileExpanding c'.callable.site (expandBody (blockWithin m) ctx nesting caller' c'))
      fun _ a b => a = b := by
  by_cases settled : ¬ K.Exact ∧ Rule.areStatic c.callable.rules = true
  · exact expand_static lawful settled.1 link sim ctx nesting settled.2
  · have known := (link.callable.aligned lawful).1
    have entered := sim.expand link.callable.site fun inexact =>
      ⟨_, known, eq_false_of_ne_true fun static => settled ⟨inexact, static⟩⟩
    refine .between (.mono (expandBody_pairs lawful evaluates link callers entered ctx nesting)
      ?_) fun _ fair => ⟨fair.cache, fair.callings⟩
    rintro a s' b t' ⟨W', grown, same, ended⟩
    exact ⟨W', grown, same, ended.expanded⟩

theorem expandAll_pairs (evaluates : K.Evaluates setting n m)
    (links : List.Forall₂ (K.MatchedLink W) cs cs') (callers : Option.Rel W.ids caller caller')
    (sim : K.Sim W s t) (ctx : Context) (nesting : Nat) :
    K.Pairs setting W s t (expandAll (blockWithin n) ctx nesting caller cs)
      (expandAll (blockWithin m) ctx nesting caller' cs') fun _ a b => a = b := by
  induction cs generalizing cs' W s t with
  | nil =>
    cases links
    exact .pure rfl sim
  | cons c cs ih =>
    obtain ⟨c', cs', link, rest, rfl⟩ := List.forall₂_cons_left_iff.mp links
    refine .bind (expand_pairs lawful evaluates link callers sim ctx nesting) ?_
    rintro W₁ first _ s₁ t₁ grown rfl sim₁
    have rest := rest.imp fun _ _ link => link.mono grown
    exact .map (ih rest (World.rel_mono grown callers) sim₁)

end

end Bodies

/-! ## Calls -/

variable {n m : Nat}

theorem resolveCall_pairs (lawful : K.Lawful setting) (evaluates : K.Evaluates setting n m)
    {call : MixinCall} (named : ∀ name ∈ call.path, K.named name) (envs : EnvLink W env env')
    (sim : K.Sim W s t) (ctx : Context) (nesting : Nat) :
    K.Pairs setting W s t (resolveCall (blockWithin n) env ctx nesting call)
      (resolveCall (blockWithin m) env' ctx nesting call) fun _ a b => a = b := by
  refine .bind (evaluateArguments_pairs lawful envs sim call.args) ?_
  rintro W₁ args _ s₁ t₁ grown₁ rfl sim₁
  refine .bind (findCandidates_ties lawful named (envs.mono grown₁) sim₁) ?_
  intro W₂ candidates candidates' s₂ t₂ grown₂ links sim₂
  rw [isEmpty_eq links, links.length_eq]
  split
  · exact .failWith _
  · have callers := envs.mono (grown₁.trans grown₂)
    refine .change ?_
    refine .bind (matchCandidates_pairs lawful links callers (sim₂.logged _ _) args call.span) ?_
    intro W₃ selection selection' s₃ t₃ grown₃ link sim₃
    rw [isEmpty_eq link.matched, link.failures]
    split
    · exact unmatched_pairs sim₃ call _ _
    · refine .bind (chosenGroup_pairs link.matched sim₃ call) ?_
      rintro W₄ group _ s₄ t₄ grown₄ rfl sim₄
      have chosen := List.rel_filter (R := K.MatchedLink W₃)
        (p := fun m => m.group == .plain || m.group == group)
        (q := fun m => m.group == .plain || m.group == group)
        (fun _ _ link => by simp [link.group]) link.matched
      exact expandAll_pairs lawful evaluates (chosen.imp fun _ _ link => link.mono grown₄)
        ((callers.mono grown₃).mono grown₄).innermost sim₄ _ nesting

theorem callMixin_pairs (lawful : K.Lawful setting) (evaluates : K.Evaluates setting n m)
    {call : MixinCall} (named : ∀ name ∈ call.path, K.named name) (envs : EnvLink W env env')
    (sim : K.Sim W s t) (ctx : Context) (nesting : Nat) :
    K.Pairs setting W s t (callMixin (blockWithin n) env ctx nesting call)
      (callMixin (blockWithin m) env' ctx nesting call) fun _ a b => a = b := by
  refine .change (((?_ : K.Pairs setting W _ _ _ _ _).locatedAt call.span).insideOf _)
  exact resolveCall_pairs lawful evaluates named envs (sim.respan _ _) ctx nesting

end Coupling

end StyleResolution
