import StyleResolution.Proofs.Coupling.Alignment
import StyleResolution.Proofs.Coupling.Static
import StyleResolution.Proofs.Evaluation.Growth

/-! # Sheets that belong together

A coupling says which rules of one sheet became which rules of another one, and which calls of the
first sheet were replaced by a sequence of rules. From it follows which states of the two
compilations belong together: frames that were made for blocks that belong together have aligned
rules, and everything else that a compilation depends on is the same in both.

Frames and definitions are numbered in the order in which they are made, and the two compilations do
not make the same ones at the same time. A `World` remembers which numbers belong together; it grows
as the compilations proceed.
-/

namespace StyleResolution

theorem Rule.areStatic_of_block? {r : Rule} {inner : List Rule} (has : r.block? = some inner)
    (static : r.isStatic = true) : areStatic inner = true := by
  cases r <;> simp_all [block?, isStatic]

def Calling.candidates (setting : Setting) (c : Calling) : List Candidate :=
  match Eval.findCandidates c.env c.call.path setting { frames := c.frames } with
  | (.ok found, _) => found
  | (.error _, _) => []

/-- How the rules of two sheets belong together. -/
structure Coupling where
  /-- A rule of the first sheet, or of a file, and the rule that it became. -/
  twin : Placed → Placed → Prop
  /-- The sites of the calls that were replaced. -/
  replaced : Site → Prop
  /-- What was called there. -/
  call : MixinCall
  /-- The rules that stand there now. -/
  body : List Rule
  /-- The names that may be called. -/
  named : String → Prop
  /-- The blocks of the first sheet and of the files. -/
  block : Site → List Rule → Prop
  /-- The state that the compilation of the first sheet ends in. -/
  final : Evaluation

namespace Coupling

def cut (K : Coupling) (p : Placed) (new : List Placed) : Prop :=
  p.rule = .call K.call ∧ K.replaced p.site ∧ new.map (·.rule) = K.body

def Exact (K : Coupling) : Prop :=
  ∀ site, ¬ K.replaced site

/-- Twins differ in the rules of their blocks at most, and those are aligned. -/
inductive Shape (K : Coupling) : Placed → Placed → Prop where
  | leaf {r : Rule} {site site' : Site} (bare : r.block? = none) : Shape K ⟨r, site⟩ ⟨r, site'⟩
  | block {r : Rule} {site site' : Site} {inner inner' : List Rule} (has : r.block? = some inner)
      (known : K.block site inner)
      (aligned : Aligned Placed.rule K.cut K.twin (Placed.ofBlock site inner)
        (Placed.ofBlock site' inner')) : Shape K ⟨r, site⟩ ⟨r.withBlock inner', site'⟩

/-- Where calls were replaced, they could be expanded, and to nothing but the rules that replace
    them. -/
structure Inlines (K : Coupling) (setting : Setting) : Prop where
  lenient : setting.options.warningsAsErrors = false
  depth : 1 ≤ setting.options.maxMixinDepth
  args : K.call.args = []
  unimportant : K.call.important = false
  static : Rule.areStatic K.body = true
  called : ∀ name ∈ K.call.path, K.named name
  /-- No call can mean one of the new rules. -/
  unnamed : ∀ selectors inner span, Rule.ruleset selectors inner span ∈ K.body →
    ∀ name, K.named name → selectors.any (·.mixinName == some name) = false
  functional : ∀ site inner inner', K.block site inner → K.block site inner' → inner = inner'
  /-- Each of the calls meant a single mixin. -/
  meant : ∀ c ∈ K.final.trace.callings, K.replaced c.site →
    ∃ site head scope, c.candidates setting = [⟨.mixin site head K.body, scope⟩] ∧
      head.params = [] ∧ head.guard = none

/-- What a coupling has to fulfil so that both sheets are compiled alike. -/
structure Lawful (K : Coupling) (setting : Setting) : Prop where
  one : ∀ p p' q q', K.twin p p' → K.twin q q' → (p.site = q.site ↔ p'.site = q'.site)
  written : ∀ p p', K.twin p p' →
    (∃ file path, p.site = .written file path) ∧ ∃ file path, p'.site = .written file path
  shape : ∀ p p', K.twin p p' → K.Shape p p'
  named : ∀ p p' c, K.twin p p' → p.rule = .call c → ∀ name ∈ c.path, K.named name
  kept : ∀ p p', K.twin p p' → ¬ K.replaced p.site
  files : ∀ c ∈ K.final.importer.cache, ∀ i, ∀ p ∈ Eval.contribution i c.2, K.twin p p
  inlines : ∀ site, K.replaced site → K.Inlines setting

/-- A comparison of the first compilation, up to its end, with the second one. -/
def proviso (K : Coupling) (tight causes : Prop) : Proviso :=
  ⟨fun s => Grows s K.final, tight, causes⟩

end Coupling

/-! ## Worlds -/

/-- Which frames and which made definitions of the two compilations belong together. -/
structure World where
  ids : FrameId → FrameId → Prop
  made : Nat → Nat → Prop

instance : Preorder World where
  le W W' := (∀ i j, W.ids i j → W'.ids i j) ∧ ∀ a b, W.made a b → W'.made a b
  le_refl _ := ⟨fun _ _ => id, fun _ _ => id⟩
  le_trans _ _ _ first second :=
    ⟨fun i j => second.1 i j ∘ first.1 i j, fun a b => second.2 a b ∘ first.2 a b⟩

namespace World

/-- The world in which nothing was made yet. -/
def none : World :=
  ⟨fun _ _ => False, fun _ _ => False⟩

def addIds (W : World) (i j : FrameId) : World :=
  { W with ids := fun k l => W.ids k l ∨ (k = i ∧ l = j) }

/-- The world with one more pair of definitions. -/
def addMade (W : World) (a b : Nat) : World :=
  { W with made := fun c d => W.made c d ∨ (c = a ∧ d = b) }

theorem le_addIds (W : World) (i j : FrameId) : W ≤ W.addIds i j :=
  ⟨fun _ _ => .inl, fun _ _ => id⟩

theorem le_addMade (W : World) (a b : Nat) : W ≤ W.addMade a b :=
  ⟨fun _ _ => id, fun _ _ => .inl⟩

theorem oneToOne_insert {S : Nat → Nat → Prop} (one : OneToOne S)
    (apart : ∀ a b, S a b → a ≠ n ∧ b ≠ m) : OneToOne fun a b => S a b ∨ (a = n ∧ b = m) := by
  rintro a a' b b' (old | ⟨rfl, rfl⟩) (oldToo | ⟨rfl, rfl⟩)
  · exact one old oldToo
  · have := apart a a' old
    omega
  · have := apart b b' oldToo
    omega
  · simp

end World

/-! ## Environments -/

/-- The frames of the environments belong together. -/
def EnvLink (W : World) (env env' : Environment) : Prop :=
  List.Forall₂ (List.Forall₂ W.ids) env.allStacks env'.allStacks

namespace EnvLink

variable {W W' : World} {env env' caller caller' : Environment}

theorem mono (link : EnvLink W env env') (grown : W ≤ W') : EnvLink W' env env' :=
  List.Forall₂.imp (fun _ _ => List.Forall₂.imp grown.1) link

theorem frames (link : EnvLink W env env') : List.Forall₂ W.ids env.frames env'.frames := by
  cases link with
  | cons first _ => exact first

theorem captured (link : EnvLink W env env') :
    List.Forall₂ (List.Forall₂ W.ids) env.captured env'.captured := by
  cases link with
  | cons _ rest => exact rest

theorem mk (frames : List.Forall₂ W.ids env.frames env'.frames)
    (captured : List.Forall₂ (List.Forall₂ W.ids) env.captured env'.captured) :
    EnvLink W env env' :=
  .cons frames captured

section

variable (link : EnvLink W env env')

include link

theorem push (same : W.ids i j) :
    EnvLink W (env.push i) (env'.push j) :=
  .mk (.cons same link.frames) link.captured

theorem capture (behind : EnvLink W caller caller') :
    EnvLink W (env.capture caller) (env'.capture caller') :=
  .mk link.frames behind

theorem pushAll (same : List.Forall₂ W.ids ids ids') :
    EnvLink W (env.pushAll ids) (env'.pushAll ids') :=
  .mk (List.rel_append (List.forall₂_reverse_iff.mpr same) link.frames) link.captured

theorem chain : List.Forall₂ W.ids env.chain env'.chain := by
  have flatten : ∀ {lists lists' : List (List FrameId)},
      List.Forall₂ (List.Forall₂ W.ids) lists lists' →
        List.Forall₂ W.ids lists.flatten lists'.flatten := by
    intro lists lists' related
    induction related with
    | nil => exact .nil
    | cons first _ ih => exact List.rel_append first ih
  exact flatten link

theorem innermost :
    Option.Rel W.ids env.innermost? env'.innermost? := by
  unfold Environment.innermost?
  have frames := link.frames
  generalize env.frames = ids at frames ⊢
  generalize env'.frames = ids' at frames ⊢
  cases frames with
  | nil => exact .none
  | cons first _ => exact .some first

end

end EnvLink

/-! ## Rules of frames -/

namespace Coupling

variable {K : Coupling} {setting : Setting} {W W' : World}

/-- The sites belong to the same rule: to twins, or to definitions that were made for each other. -/
def SiteLink (K : Coupling) (W : World) (site site' : Site) : Prop :=
  (∃ p p', K.twin p p' ∧ p.site = site ∧ p'.site = site') ∨
    ∃ a b, W.made a b ∧ site = .made a ∧ site' = .made b

theorem SiteLink.mono (link : K.SiteLink W site site') (grown : W ≤ W') :
    K.SiteLink W' site site' :=
  link.imp_right fun ⟨a, b, made, sites⟩ => ⟨a, b, grown.2 a b made, sites⟩

theorem SiteLink.twin (twin : K.twin p p') : K.SiteLink W p.site p'.site :=
  .inl ⟨p, p', twin, rfl, rfl⟩

theorem Lawful.oneToOne (lawful : K.Lawful setting) (made : OneToOne W.made) :
    OneToOne (K.SiteLink W) := by
  rintro a a' b b' (⟨p, p', twin, rfl, rfl⟩ | ⟨m, m', same, rfl, rfl⟩)
    (⟨q, q', twinToo, rfl, rfl⟩ | ⟨n, n', sameToo, rfl, rfl⟩)
  · exact lawful.one p p' q q' twin twinToo
  · obtain ⟨⟨_, _, site⟩, ⟨_, _, site'⟩⟩ := lawful.written p p' twin
    simp [site, site']
  · obtain ⟨⟨_, _, site⟩, ⟨_, _, site'⟩⟩ := lawful.written q q' twinToo
    simp [site, site']
  · simpa using made same sameToo

/-- The rules of two frames belong together: they are twins, definitions that were made for each
    other, or imports that stay in the output. -/
inductive Linked (K : Coupling) (W : World) : Placed → Placed → Prop where
  | twin {p p' : Placed} (twin : K.twin p p') : Linked K W p p'
  | definition {d : Definition} {site site' : Site} (sites : K.SiteLink W site site') :
      Linked K W ⟨.variable d, site⟩ ⟨.variable d, site'⟩
  | fileImport {i : Import} {site site' : Site} :
      Linked K W ⟨.fileImport i, site⟩ ⟨.fileImport i, site'⟩

/-- Callables that belong together. -/
inductive CallableLink (K : Coupling) : Callable → Callable → Prop where
  | mixin {site site' : Site} {head : MixinHead} {rules rules' : List Rule}
      (twin : K.twin ⟨.mixin head rules, site⟩ ⟨.mixin head rules', site'⟩) :
      CallableLink K (.mixin site head rules) (.mixin site' head rules')
  | ruleset {site site' : Site} {selectors : List Selector} {span : Span}
      {rules rules' : List Rule}
      (twin : K.twin ⟨.ruleset selectors rules span, site⟩ ⟨.ruleset selectors rules' span, site'⟩) :
      CallableLink K (.ruleset site selectors rules) (.ruleset site' selectors rules')

namespace Linked

variable {p p' : Placed}

theorem mono (link : K.Linked W p p') (grown : W ≤ W') : K.Linked W' p p' := by
  cases link with
  | twin twin => exact .twin twin
  | definition sites => exact .definition (sites.mono grown)
  | fileImport => exact .fileImport

section

variable (lawful : K.Lawful setting) (link : K.Linked W p p')

include lawful link

theorem shape : K.Shape p p' := by
  cases link with
  | twin twin => exact lawful.shape _ _ twin
  | definition => exact .leaf rfl
  | fileImport => exact .leaf rfl

theorem same (bare : p.rule.block? = none) :
    p'.rule = p.rule := by
  cases link.shape lawful with
  | leaf => rfl
  | block has =>
    rw [bare] at has
    cases has

theorem inner (has : p.rule.block? = some rules) :
    ∃ rules', p'.rule = p.rule.withBlock rules' ∧ K.twin p p' ∧ K.block p.site rules ∧
      Aligned Placed.rule K.cut K.twin (Placed.ofBlock p.site rules)
        (Placed.ofBlock p'.site rules') := by
  have shape := link.shape lawful
  cases link with
  | twin twin =>
    cases shape with
    | leaf bare =>
      rw [bare] at has
      cases has
    | @block r _ _ inner inner' hasToo known aligned =>
      obtain rfl : inner = rules := Option.some.inj (hasToo.symm.trans has)
      exact ⟨inner', rfl, twin, known, aligned⟩
  | definition => cases has
  | fileImport => cases has

theorem isImport :
    Compiler.isImport p'.rule = Compiler.isImport p.rule := by
  cases link.shape lawful with
  | leaf => rfl
  | @block r => cases r <;> rfl

theorem asVariable :
    Option.Rel (Variable.Agree (K.SiteLink W)) p.asVariable p'.asVariable := by
  have shape := link.shape lawful
  cases link with
  | definition sites => exact .some ⟨rfl, sites⟩
  | fileImport => exact .none
  | twin twin =>
    cases shape with
    | @leaf r site site' =>
      cases r with
      | «variable» d => exact .some ⟨rfl, SiteLink.twin twin⟩
      | _ => exact .none
    | @block r _ _ _ _ has =>
      cases r with
      | «variable» d => cases has
      | _ => exact .none

theorem definitionOf (name : String) :
    Option.Rel (Variable.Agree (K.SiteLink W)) (p.definitionOf name) (p'.definitionOf name) := by
  unfold Placed.definitionOf
  have found := link.asVariable lawful
  generalize p.asVariable = v at found ⊢
  generalize p'.asVariable = v' at found ⊢
  cases found with
  | none => exact .none
  | some agree =>
    simp only [Option.filter_some, agree.1]
    split
    · exact .some agree
    · exact .none

theorem asCallable :
    Option.Rel K.CallableLink p.asCallable p'.asCallable := by
  have shape := link.shape lawful
  cases link with
  | definition sites => exact .none
  | fileImport => exact .none
  | twin twin =>
    cases shape with
    | @leaf r _ _ bare =>
      cases r with
      | ruleset | mixin => cases bare
      | _ => exact .none
    | @block r site site' inner inner' has =>
      cases r with
      | mixin head rules => exact .some (.mixin twin)
      | ruleset selectors rules span =>
        unfold Placed.asCallable
        simp only [Rule.withBlock]
        split
        · exact .some (.ruleset twin)
        · exact .none
      | _ => exact .none

end

end Linked

namespace CallableLink

variable {c c' : Callable}

section

variable (link : K.CallableLink c c')

include link

theorem answersTo (name : String) :
    c'.answersTo name = c.answersTo name := by
  cases link <;> rfl

theorem params : c'.params = c.params := by
  cases link <;> rfl

theorem guard : c'.guard = c.guard := by
  cases link <;> rfl

theorem name : c'.name = c.name := by
  cases link <;> rfl

theorem isNamespace : c'.isNamespace = c.isNamespace := by
  cases link <;> rfl

theorem site : K.SiteLink W c.site c'.site := by
  cases link with
  | mixin twin => exact SiteLink.twin twin
  | ruleset twin => exact SiteLink.twin twin

end

theorem aligned (lawful : K.Lawful setting) (link : K.CallableLink c c') :
    K.block c.site c.rules ∧ Aligned Placed.rule K.cut K.twin (Placed.ofBlock c.site c.rules)
      (Placed.ofBlock c'.site c'.rules) := by
  cases link with
  | mixin twin | ruleset twin =>
    obtain ⟨rules', same, -, known, aligned⟩ :=
      (Linked.twin twin : K.Linked .none _ _).inner lawful rfl
    cases same
    exact ⟨known, aligned⟩

end CallableLink

theorem rules_of_static (aligned : Aligned Placed.rule K.cut K.twin ps ps')
    (static : ∀ p ∈ ps, p.rule.isStatic = true)
    (same : ∀ p ∈ ps, ∀ p', K.twin p p' → p'.rule = p.rule) :
    ps'.map (·.rule) = ps.map (·.rule) := by
  induction aligned with
  | nil => rfl
  | cons twin _ ih =>
    simp only [List.forall_mem_cons] at static same
    simp only [List.map_cons, same.1 _ twin, ih static.2 same.2]
  | @swap v _ _ _ _ _ passes =>
    obtain ⟨d, rule, -⟩ := passes
    have := static v List.mem_cons_self
    simp [rule, Rule.isStatic] at this
  | @cut p _ _ _ replaced =>
    have := static p List.mem_cons_self
    simp [replaced.1, Rule.isStatic] at this

theorem Lawful.twin_static (lawful : K.Lawful setting) (twin : K.twin p p')
    (static : p.rule.isStatic = true) : p'.rule = p.rule := by
  induction size : p.rule.size using Nat.strong_induction_on generalizing p p' with
  | _ n ih =>
    cases lawful.shape p p' twin with
    | leaf => rfl
    | @block r site site' inner inner' has _ aligned =>
      have inside : ∀ q ∈ Placed.ofBlock site inner, q.rule ∈ inner := fun q member => by
        rw [← Placed.ofBlock_rules site inner]
        exact List.mem_map_of_mem member
      have smaller : ∀ q ∈ Placed.ofBlock site inner, q.rule.size < n := by
        intro q member
        have := Rule.size_le_sizes (inside q member)
        have := Rule.size_of_block? has
        dsimp only at size
        omega
      have staticToo := Rule.areStatic_iff.mp (Rule.areStatic_of_block? has static)
      have rules := rules_of_static aligned (fun q member => staticToo _ (inside q member))
        fun q member q' twin => ih _ (smaller q member) twin (staticToo _ (inside q member)) rfl
      rw [Placed.ofBlock_rules, Placed.ofBlock_rules] at rules
      rw [rules]
      exact Rule.withBlock_of_block? has

theorem Lawful.block_static (lawful : K.Lawful setting)
    (aligned : Aligned Placed.rule K.cut K.twin (Placed.ofBlock site rules) (Placed.ofBlock site' rules'))
    (static : Rule.areStatic rules = true) : rules' = rules := by
  have each : ∀ p ∈ Placed.ofBlock site rules, p.rule.isStatic = true := by
    intro p member
    apply Rule.areStatic_iff.mp static
    rw [← Placed.ofBlock_rules site rules]
    exact List.mem_map_of_mem member
  have same := rules_of_static aligned each fun p member _ twin =>
    lawful.twin_static twin (each p member)
  rwa [Placed.ofBlock_rules, Placed.ofBlock_rules] at same

/-- Rules of frames that belong together, at the same import nesting. -/
def EntryLink (K : Coupling) (W : World) (e e' : Entry) : Prop :=
  K.Linked W e.toPlaced e'.toPlaced ∧ e'.nesting = e.nesting

/-- The call was replaced by these rules, at whatever import nesting. -/
def cuts (K : Coupling) (e : Entry) (new : List Entry) : Prop :=
  K.cut e.toPlaced (new.map (·.toPlaced))

/-- The rules of two frames belong together. -/
abbrev Matched (K : Coupling) (W : World) : List Entry → List Entry → Prop :=
  Aligned (fun e => e.rule) K.cuts (K.EntryLink W)

theorem EntryLink.mono (link : K.EntryLink W e e') (grown : W ≤ W') : K.EntryLink W' e e' :=
  ⟨link.1.mono grown, link.2⟩

theorem Matched.mono (aligned : K.Matched W es es') (grown : W ≤ W') : K.Matched W' es es' :=
  Aligned.mono aligned fun _ _ link => EntryLink.mono link grown

theorem Matched.ofPlaced (aligned : Aligned Placed.rule K.cut (K.Linked W) ps ps') (nesting : Nat) :
    K.Matched W (ps.map fun p => { p with nesting }) (ps'.map fun p => { p with nesting }) := by
  apply Aligned.map aligned
  · exact fun _ => rfl
  · exact fun _ _ link => ⟨link, rfl⟩
  · intro p new isCut
    simpa [cuts, Function.comp_def] using isCut

section Cuts

variable {e : Entry} {new : List Entry}

theorem cuts.rules (isCut : K.cuts e new) : new.map (·.rule) = K.body := by
  have := isCut.2.2
  rwa [List.map_map] at this

theorem cuts.static (lawful : K.Lawful setting) (isCut : K.cuts e new) :
    ∀ n ∈ new, n.rule.isStatic = true := by
  intro n member
  have static := (lawful.inlines _ isCut.2.1).static
  rw [← isCut.rules] at static
  exact Rule.areStatic_iff.mp static _ (List.mem_map_of_mem member)

theorem cuts.rule (isCut : K.cuts e new) : e.rule = .call K.call :=
  isCut.1

theorem cuts.definitionOf (lawful : K.Lawful setting) (isCut : K.cuts e new) (name : String) :
    e.toPlaced.definitionOf name = none ∧ ∀ n ∈ new, n.toPlaced.definitionOf name = none := by
  unfold Placed.definitionOf Placed.asVariable
  refine ⟨by simp [isCut.rule], fun n member => ?_⟩
  have static := isCut.static lawful n member
  cases rule : n.rule <;> simp_all [Rule.isStatic]

theorem cuts.callable (lawful : K.Lawful setting) (isCut : K.cuts e new) (named : K.named name) :
    e.toPlaced.asCallable.filter (·.answersTo name) = none ∧
      ∀ n ∈ new, n.toPlaced.asCallable.filter (·.answersTo name) = none := by
  unfold Placed.asCallable
  refine ⟨by simp [isCut.rule], fun n member => ?_⟩
  have static := isCut.static lawful n member
  cases rule : n.rule with
  | ruleset selectors rules span =>
    have unnamed := (lawful.inlines _ isCut.2.1).unnamed selectors rules span
      (by rw [← isCut.rules, ← rule]; exact List.mem_map_of_mem member) name named
    dsimp only
    split
    · simpa [Callable.answersTo] using unnamed
    · rfl
  | mixin => simp [rule, Rule.isStatic] at static
  | _ => rfl

end Cuts

variable {f f' : Frame}

theorem Matched.importsMatch (lawful : K.Lawful setting) :
    ImportsMatch (fun e : Entry => e.rule) K.cuts (K.EntryLink W) where
  same _ _ link := link.1.isImport lawful
  cut e new isCut := by
    refine ⟨?_, fun n member => Eval.not_isImport_of_isStatic (isCut.static lawful n member)⟩
    rw [isCut.rule]
    rfl

theorem Matched.definitions (lawful : K.Lawful setting) (matched : K.Matched W f.entries f'.entries) :
    (Index.ofRules f.rules).Agree (K.SiteLink W) (Index.ofRules f'.rules) := by
  have last : ∀ {vs ws : List Variable}, List.Forall₂ (Variable.Agree (K.SiteLink W)) vs ws →
      Option.Rel (Variable.Agree (K.SiteLink W)) vs.getLast? ws.getLast? := by
    intro vs ws related
    rw [← List.head?_reverse, ← List.head?_reverse]
    have reversed := List.forall₂_reverse_iff.mpr related
    generalize vs.reverse = vs at reversed ⊢
    generalize ws.reverse = ws at reversed ⊢
    cases reversed with
    | nil => exact .none
    | cons first _ => exact .some first
  intro name
  rw [Index.definitionOf_ofRules, Index.definitionOf_ofRules, ← f.map_toPlaced_entries,
    ← f'.map_toPlaced_entries, List.filterMap_map, List.filterMap_map]
  apply last
  apply Aligned.filterMap matched
  · exact fun e e' link => link.1.definitionOf lawful name
  · rintro e r ⟨d, variable_, -, others⟩
    simp only [Function.comp_apply, Placed.definitionOf, Placed.asVariable, variable_]
    cases rule : r.rule with
    | «variable» d' =>
      have different := others d' rule
      by_cases first : d.name = name
      · exact .inr (by simp [← first, different])
      · exact .inl (by simp [first])
    | _ => exact .inr rfl
  · exact fun e new isCut => isCut.definitionOf lawful name

theorem Matched.callables (lawful : K.Lawful setting) (matched : K.Matched W f.entries f'.entries)
    (named : K.named name) : List.Forall₂ K.CallableLink ((Index.ofRules f.rules).callablesNamed name)
      ((Index.ofRules f'.rules).callablesNamed name) := by
  unfold Index.callablesNamed
  rw [Index.callables_ofRules, Index.callables_ofRules, List.filter_filterMap, List.filter_filterMap,
    ← f.map_toPlaced_entries, ← f'.map_toPlaced_entries, List.filterMap_map, List.filterMap_map]
  apply Aligned.filterMap matched
  · intro e e' link
    have found := link.1.asCallable lawful
    dsimp only [Function.comp_apply]
    generalize e.toPlaced.asCallable = c at found ⊢
    generalize e'.toPlaced.asCallable = c' at found ⊢
    cases found with
    | none => exact .none
    | some callable =>
      simp only [Option.filter_some, callable.answersTo]
      split
      · exact .some callable
      · exact .none
  · rintro e r ⟨d, variable_, -⟩
    exact .inl (by simp [Placed.asCallable, variable_])
  · exact fun e new isCut => isCut.callable lawful named

end Coupling

end StyleResolution
