import StyleResolution.Proofs.Coupling.Edits

/-! # Calls and the rules they stand for

A call of a mixin without parameters and guard, whose rules are static, contributes what the rules
contribute where the call stands. So the call may be replaced by the rules, unless one of them can be
called itself: a call that could not reach it inside the mixin could reach it now.
-/

namespace StyleResolution

open Compiler

/-! ## Which block stands where -/

namespace Rule

def blockAt (rules : List Rule) : List Nat → Option (List Rule)
  | [] => some rules
  | i :: path => do
    let outer ← blockAt rules path
    let r ← outer[i]?
    r.block?

theorem blockAt_append {rules inner : List Rule} {i : Nat} {r : Rule} (at_ : rules[i]? = some r)
    (has : r.block? = some inner) (path : List Nat) :
    blockAt rules (path ++ [i]) = blockAt inner path := by
  induction path with
  | nil => simp [blockAt, at_, has]
  | cons k path ih => simp only [List.cons_append, blockAt, ih]

theorem mem_blocksFrom {position : Nat} (member : known ∈ blocksFrom site position rules) :
    ∃ i r inner, rules[i]? = some r ∧ r.block? = some inner ∧
      known ∈ blocksOf (site.child (position + i)) inner := by
  induction rules generalizing position with
  | nil => simp [blocksFrom] at member
  | cons r rest ih =>
    simp only [blocksFrom, List.mem_append] at member
    rcases member with first | later
    · cases has : r.block? with
      | none => cases r <;> simp_all [block?, blocks]
      | some inner =>
        rw [blocks_of_block? has] at first
        exact ⟨0, r, inner, rfl, has, first⟩
    · obtain ⟨i, r', inner, at_, has, within⟩ := ih later
      refine ⟨i + 1, r', inner, at_, has, ?_⟩
      rwa [← Nat.add_assoc, Nat.add_right_comm]

theorem blockAt_of_mem {file : Nat} {path : List Nat} {rules inner : List Rule} {site : Site}
    (member : (site, inner) ∈ blocksOf (.written file path) rules) :
    ∃ own, site = .written file (own ++ path) ∧ blockAt rules own = some inner := by
  induction size : sizes rules using Nat.strong_induction_on generalizing rules path with
  | _ n ih =>
    rcases List.mem_cons.mp member with same | within
    · cases same
      exact ⟨[], rfl, rfl⟩
    · obtain ⟨i, r, block, at_, has, deeper⟩ := mem_blocksFrom within
      have smaller : sizes block < n := by
        have := size_le_sizes (List.mem_of_getElem? at_)
        have := size_of_block? has
        omega
      obtain ⟨own, rfl, found⟩ := ih _ smaller deeper rfl
      refine ⟨own ++ [i], by simp, ?_⟩
      rw [blockAt_append at_ has, found]

end Rule

theorem knownBlocks_functional {sheet : Stylesheet} {files : List (Option CanonicalPath)}
    {cache : List (CanonicalPath × LoadedFile)} (numbered : Numbered files cache) {site : Site}
    {inner inner' : List Rule} (first : (site, inner) ∈ knownBlocks sheet cache)
    (second : (site, inner') ∈ knownBlocks sheet cache) : inner = inner' := by
  -- A known block is the block at a path of the sheet, or of a file in the cache.
  have found : ∀ {inner}, (site, inner) ∈ knownBlocks sheet cache →
      ∃ file path, site = .written file path ∧
        (file = 0 ∧ Rule.blockAt sheet.rules path = some inner ∨
          ∃ f ∈ cache, f.2.file = file ∧ Rule.blockAt f.2.rules path = some inner) := by
    intro inner known
    rcases List.mem_append.mp known with own | loaded
    · obtain ⟨path, rfl, at_⟩ := Rule.blockAt_of_mem own
      exact ⟨0, path, by simp, .inl ⟨rfl, at_⟩⟩
    · obtain ⟨f, cached, within⟩ := List.mem_flatMap.mp loaded
      obtain ⟨path, rfl, at_⟩ := Rule.blockAt_of_mem within
      exact ⟨f.2.file, path, by simp, .inr ⟨f, cached, rfl, at_⟩⟩
  obtain ⟨file, path, rfl, here⟩ := found first
  obtain ⟨_, _, same, there⟩ := found second
  cases same
  rcases here with ⟨rfl, here⟩ | ⟨f, cached, rfl, here⟩
  · rcases there with ⟨-, there⟩ | ⟨g, cachedToo, number, -⟩
    · exact Option.some.inj (here.symm.trans there)
    · exact absurd number (Nat.ne_of_gt (numbered.inside g cachedToo).1)
  · rcases there with ⟨number, -⟩ | ⟨g, cachedToo, number, there⟩
    · exact absurd number (Nat.ne_of_gt (numbered.inside f cached).1)
    · obtain rfl : g = f := List.inj_on_of_nodup_map numbered.distinct cachedToo cached number
      exact Option.some.inj (here.symm.trans there)

/-! ## Replacing calls -/

/-- The call at this position was replaced by the rules of `body`. -/
def Rule.InlinesAt (call : MixinCall) (body : List Rule) (position : Nat)
    (rules rules' : List Rule) : Prop :=
  ∃ front back, front.length = position ∧ rules = front ++ .call call :: back ∧
    rules' = front ++ body ++ back

theorem Rule.Edited.call_mem {call : MixinCall} {body rules rules' : List Rule} {position : Nat}
    {path : List Nat} (edited : Edited (InlinesAt call body position) path rules rules') :
    Rule.call call ∈ partsOf rules := by
  induction edited with
  | here changed =>
    obtain ⟨front, back, -, rfl, -⟩ := changed
    exact mem_partsOf_of_mem (by simp)
  | @inside path front back r inner inner' has _ ih =>
    exact mem_partsOf.mpr ⟨r, by simp, parts_of_block? has ih⟩

def Edit.inline (path : List Nat) (position : Nat) (call : MixinCall) (body : List Rule) : Edit where
  path := path
  change := Rule.InlinesAt call body position
  moves a b := a < position ∧ b = a ∨ position < a ∧ b + 1 = a + body.length
  gone a := a = position

theorem Edit.inline_sound (path : List Nat) (position : Nat) (call : MixinCall) (body : List Rule)
    (sheet : Stylesheet) (final : Evaluation) :
    (Edit.inline path position call body).Sound
      ((Edit.inline path position call body).coupling call body sheet final).cut where
  one := by
    intro a a' b b' first second
    simp only [Edit.inline] at first second
    omega
  kept a b moves gone := by
    simp only [Edit.inline] at moves gone
    omega
  aligned := by
    rintro R _ _ p' ⟨front, back, rfl, rfl, rfl⟩ related
    have moved : ∀ a b q, (front ++ .call call :: back)[a]? = some q →
        (inline path front.length call body).moves a b →
          R ⟨q, .written 0 (a :: path)⟩ ⟨q, .written 0 (b :: p')⟩ := related
    simp only [Edit.inline] at moved
    unfold Placed.ofBlock
    rw [List.append_assoc]
    simp only [List.mapIdx_append, List.mapIdx_cons, Nat.zero_add]
    refine Aligned.append (.mapIdx fun i q at_ => ?_) (.cut ⟨rfl, ?_, ?_⟩ (.mapIdx fun i q at_ => ?_))
    · have inside := (List.getElem?_eq_some_iff.mp at_).1
      exact moved i i q (by rw [List.getElem?_append_left inside, at_]) (by omega)
    · exact ⟨front.length, rfl, rfl⟩
    · exact List.ext_getElem? fun i => by simp [Edit.coupling, Function.comp_def]
    · refine moved (i + 1 + front.length) _ q ?_ (by omega)
      rw [List.getElem?_append_right (by omega), Nat.add_sub_cancel, List.getElem?_cons_succ, at_]

/-- The call at the site stands for the rules of `body` and nothing else. -/
structure Inlinable (setting : Setting) (sheet : Stylesheet) (site : Site) (call : MixinCall)
    (body : List Rule) : Prop where
  args : call.args = []
  unimportant : call.important = false
  /-- The rules are declarations, rulesets, media blocks and other at-rules, at any depth, and there
      is no variable and no interpolation in their values. -/
  static : Rule.areStatic body = true
  /-- Whenever the call is expanded, its only candidate is a mixin with these rules, which has no
      parameters and no guard. -/
  meant : ∀ c ∈ (resolveSheet sheet setting {}).2.trace.callings, c.site = site →
    ∃ own head scope, c.candidates setting = [⟨.mixin own head body, scope⟩] ∧
      head.params = [] ∧ head.guard = none
  /-- No ruleset among the rules answers to a segment of a path that is called in the sheet or in a
      file that it imports. -/
  unnamed : ∀ selectors inner span, Rule.ruleset selectors inner span ∈ body →
    ∀ c, Called sheet (resolveSheet sheet setting {}).2.importer.cache c →
      ∀ name ∈ c.path, selectors.any (·.mixinName == some name) = false

/-- A call that stands for the rules of a mixin may be replaced by them, wherever in the sheet it is:
    the sheet compiles to the same as before, or it did not compile and does not now.

    The condition is that neither root ever has more rules than there are locations. -/
theorem calls_may_be_inlined (setting : Setting)
    (lenient : setting.options.warningsAsErrors = false)
    (depth : 1 ≤ setting.options.maxMixinDepth) (sheet : Stylesheet) (path : List Nat)
    (position : Nat) (call : MixinCall) (body rules : List Rule)
    (inlined : Rule.Edited (Rule.InlinesAt call body position) path sheet.rules rules)
    (inlinable : Inlinable setting sheet (.written 0 (position :: path)) call body)
    (fits : ∀ s ∈ [sheet, { sheet with rules }],
      ∀ m ∈ (Tracked.openSheet s setting {} {}).moments,
        m.rules.length ≤ DeferredImport.maxLocation) :
    output? setting { sheet with rules } = output? setting sheet := by
  let final := (resolveSheet sheet setting {}).2
  let K := (Edit.inline path position call body).coupling call body sheet final
  have inlines : K.Inlines setting :=
    { lenient
      depth
      args := inlinable.args
      unimportant := inlinable.unimportant
      static := inlinable.static
      called := fun name member => ⟨call, .inl inlined.call_mem, member⟩
      unnamed := by
        rintro selectors inner span inside name ⟨c, called, member⟩
        exact inlinable.unnamed selectors inner span inside c called name member
      functional := fun _ _ _ =>
        knownBlocks_functional (resolveSheet_numbered setting sheet)
      meant := by
        rintro c recorded ⟨_, rfl, site⟩
        exact inlinable.meant c recorded site }
  have sound : (Edit.inline path position call body).Sound K.cut :=
    Edit.inline_sound path position call body sheet final
  have same : ({ sheet with rules } : Stylesheet).path = sheet.path := rfl
  exact (Edit.output_eq sound same inlined (fun _ _ => inlines)
    fun s member => .of_fits (fits s member)).symm

/-- The rules of a mixin: a declaration, and a ruleset that could be called by its class. -/
def badgeRules : List Rule :=
  [.declaration ⟨"p", .keyword "x", false, Span.none⟩,
    .ruleset [⟨[⟨.attached, .literal ".n"⟩]⟩]
      [.declaration ⟨"q", .keyword "y", false, Span.none⟩] Span.none]

def badgeCall : MixinCall :=
  ⟨[".m"], [], false, Span.none⟩

def badgeSheet (inner : List Rule) : Stylesheet :=
  ⟨none,
    [.mixin ⟨".m", [], none, Span.none⟩ badgeRules,
      .media (.keyword "print") [.ruleset [⟨[⟨.attached, .literal ".a"⟩]⟩] inner Span.none]
        Span.none]⟩

/-- Whether these are the rules of the mixin. -/
def isBadge : List Rule → Bool
  | [.declaration ⟨property, .keyword value, important, span⟩,
      .ruleset selectors [.declaration ⟨property', .keyword value', important', span'⟩] around] =>
    property = "p" ∧ value = "x" ∧ important = false ∧ span = Span.none ∧
      selectors = [⟨[⟨.attached, .literal ".n"⟩]⟩] ∧ property' = "q" ∧ value' = "y" ∧
      important' = false ∧ span' = Span.none ∧ around = Span.none
  | _ => false

theorem eq_of_isBadge (same : isBadge rules = true) : rules = badgeRules := by
  unfold isBadge at same
  split at same
  · simp_all [badgeRules]
  · cases same

/-- Whether a call means the mixin and nothing else. -/
def meansBadge : List Candidate → Bool
  | [⟨.mixin _ head rules, _⟩] => head.params.isEmpty && head.guard.isNone && isBadge rules
  | _ => false

theorem exists_of_meansBadge (means : meansBadge found = true) :
    ∃ own head scope, found = [⟨.mixin own head badgeRules, scope⟩] ∧ head.params = [] ∧
      head.guard = none := by
  unfold meansBadge at means
  split at means
  · rename_i own head rules scope
    simp only [Bool.and_eq_true, List.isEmpty_iff, Option.isNone_iff_eq_none] at means
    exact ⟨own, head, scope, by rw [eq_of_isBadge means.2], means.1⟩
  · cases means

theorem badgeCall_inlinable :
    Inlinable {} (badgeSheet [.call badgeCall]) (.written 0 [0, 0, 1]) badgeCall badgeRules where
  args := rfl
  unimportant := rfl
  static := rfl
  meant c recorded _ := by
    have means : ∀ c ∈ (resolveSheet (badgeSheet [.call badgeCall]) {} {}).2.trace.callings,
        meansBadge (c.candidates {}) = true := by decide +kernel
    exact exists_of_meansBadge (means c recorded)
  unnamed selectors inner span member c called name segment := by
    have files : (resolveSheet (badgeSheet [.call badgeCall]) {} {}).2.importer.cache.length
        = 0 := by decide +kernel
    rw [Called, List.eq_nil_of_length_eq_zero files] at called
    simp [badgeSheet, badgeRules, Rule.partsOf, Rule.parts] at called member
    obtain ⟨rfl, -⟩ := member
    subst called
    obtain rfl : name = ".m" := by simpa [badgeCall] using segment
    decide +kernel

theorem badgeCall_may_be_inlined :
    (output? {} (badgeSheet [.call badgeCall])).isSome = true ∧
      (resolveSheet (badgeSheet [.call badgeCall]) {} {}).2.trace.callings.map (·.site) =
        [.written 0 [0, 0, 1]] ∧
      output? {} (badgeSheet badgeRules) =
        output? {} (badgeSheet [.call badgeCall]) := by
  refine ⟨by decide +kernel, by decide +kernel, ?_⟩
  refine calls_may_be_inlined {} rfl (by decide) (badgeSheet [.call badgeCall]) [0, 1] 0 badgeCall
    badgeRules (badgeSheet badgeRules).rules ?_ badgeCall_inlinable (by decide +kernel)
  refine @Rule.Edited.inside _ [0] ((badgeSheet []).rules.take 1) [] _ _ _ rfl ?_
  exact @Rule.Edited.inside _ [] [] [] _ _ _ rfl (.here ⟨[], [], rfl, rfl, rfl⟩)

end StyleResolution
