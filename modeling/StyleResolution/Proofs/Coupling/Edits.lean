import StyleResolution.Proofs.Coupling.Sheets

/-! # Sheets that differ in one block

An edit changes the rules of one block of a sheet, whichever block that is. All other rules stay
what they are and where they are, except that the rules on the way to the block now hold the changed
one. So an edit gives rise to a coupling, once it is known how the rules of the changed block belong
together. In the files that the sheet imports, every rule belongs to itself.
-/

namespace StyleResolution

/-- The same rules, but for one block in them that was changed as `change` says. The path leads from
    that block outwards, as the path of its site does. -/
inductive Rule.Edited (change : List Rule → List Rule → Prop) :
    List Nat → List Rule → List Rule → Prop where
  | here {rules rules' : List Rule} (changed : change rules rules') :
      Edited change [] rules rules'
  | inside {path : List Nat} {front back : List Rule} {r : Rule} {inner inner' : List Rule}
      (has : r.block? = some inner) (edited : Edited change path inner inner') :
      Edited change (path ++ [front.length]) (front ++ r :: back)
        (front ++ r.withBlock inner' :: back)

theorem Rule.Edited.choose {change : ι → List Rule → List Rule → Prop}
    (edited : Edited (fun a b => ∃ i, change i a b) path rules rules') :
    ∃ i, Edited (change i) path rules rules' := by
  induction edited with
  | here changed =>
    obtain ⟨i, changed⟩ := changed
    exact ⟨i, .here changed⟩
  | inside has _ ih =>
    obtain ⟨i, edited⟩ := ih
    exact ⟨i, .inside has edited⟩

theorem Rule.parts_of_block? {r part : Rule} {inner : List Rule} (has : r.block? = some inner)
    (member : part ∈ partsOf inner) : part ∈ r.parts := by
  cases r <;> simp_all [block?, parts]

theorem Placed.mem_ofBlock {site : Site} :
    p ∈ ofBlock site rules ↔ ∃ i r, rules[i]? = some r ∧ p = ⟨r, site.child i⟩ := by
  simp only [ofBlock, List.mem_mapIdx, List.getElem?_eq_some_iff]
  constructor
  · rintro ⟨i, inside, rfl⟩
    exact ⟨i, rules[i], ⟨inside, rfl⟩, rfl⟩
  · rintro ⟨i, _, ⟨inside, rfl⟩, rfl⟩
    exact ⟨i, inside, rfl⟩

theorem Aligned.mapIdx {rule : α → Rule} {cut : α → List α → Prop} {R : α → α → Prop}
    {rules : List Rule} {f g : Nat → Rule → α}
    (related : ∀ i r, rules[i]? = some r → R (f i r) (g i r)) :
    Aligned rule cut R (rules.mapIdx f) (rules.mapIdx g) := by
  induction rules generalizing f g with
  | nil => exact .nil
  | cons first rest ih =>
    simp only [List.mapIdx_cons]
    exact .cons (related 0 first rfl) (ih fun i r at_ => related (i + 1) r at_)

/-! ## Rules that a compilation can meet -/

def Called (sheet : Stylesheet) (cache : List (CanonicalPath × LoadedFile)) (c : MixinCall) : Prop :=
  Rule.call c ∈ Rule.partsOf sheet.rules ∨ ∃ f ∈ cache, Rule.call c ∈ Rule.partsOf f.2.rules

/-- The rule stands in the sheet or in one of the files, or brings in all rules of a file. -/
structure Familiar (sheet : Stylesheet) (cache : List (CanonicalPath × LoadedFile)) (p : Placed) :
    Prop where
  calls : ∀ c, Rule.call c ∈ p.rule.parts → Called sheet cache c
  block : ∀ inner, p.rule.block? = some inner → (p.site, inner) ∈ knownBlocks sheet cache

namespace Familiar

variable {sheet : Stylesheet} {cache : List (CanonicalPath × LoadedFile)} {p : Placed}

theorem of_known (known : (site, rules) ∈ knownBlocks sheet cache)
    (calls : ∀ c, Rule.call c ∈ Rule.partsOf rules → Called sheet cache c) :
    ∀ p ∈ Placed.ofBlock site rules, Familiar sheet cache p := by
  intro p member
  obtain ⟨i, r, at_, rfl⟩ := Placed.mem_ofBlock.mp member
  refine ⟨fun c part => calls c ?_, fun inner has => knownBlocks_closed known at_ has⟩
  exact Rule.mem_partsOf.mpr ⟨r, List.mem_of_getElem? at_, part⟩

theorem inner (familiar : Familiar sheet cache p) {inner : List Rule}
    (has : p.rule.block? = some inner) : ∀ q ∈ Placed.ofBlock p.site inner, Familiar sheet cache q :=
  of_known (familiar.block inner has) fun c part =>
    familiar.calls c (Rule.parts_of_block? has part)

theorem root : ∀ p ∈ Placed.ofBlock (.written 0 []) sheet.rules, Familiar sheet cache p :=
  of_known (List.mem_append_left _ List.mem_cons_self) fun _ => .inl

theorem contribution (cached : f ∈ cache) (i : Import) :
    ∀ p ∈ Eval.contribution i f.2, Familiar sheet cache p := by
  have calls : ∀ c, Rule.call c ∈ Rule.partsOf f.2.rules → Called sheet cache c :=
    fun c part => .inr ⟨f, cached, part⟩
  have known : (_, f.2.rules) ∈ knownBlocks sheet cache := mem_knownBlocks_of_cached cached
  unfold Eval.contribution
  split
  · simp only [List.mem_singleton, forall_eq]
    refine ⟨fun c part => calls c ?_, ?_⟩
    · simpa [Rule.parts] using part
    · rintro inner ⟨⟩
      exact known
  · exact of_known known calls

end Familiar

/-! ## Edits -/

/-- An edit of a sheet. -/
structure Edit where
  /-- The path of the block that is changed. -/
  path : List Nat
  /-- How its rules are changed. -/
  change : List Rule → List Rule → Prop
  /-- Which position a rule of the block moves to. -/
  moves : Nat → Nat → Prop
  /-- The positions of calls in the block that are replaced. -/
  gone : Nat → Prop

namespace Edit

variable {E : Edit} {p p' : List Nat}

/-- A rule at the first path moves to the second one. -/
inductive Carries (E : Edit) : List Nat → List Nat → Prop where
  | root : Carries E [] []
  | child {p p' : List Nat} {a b : Nat} (outer : Carries E p p') (own : p = E.path → E.moves a b)
      (other : p ≠ E.path → b = a) : Carries E (a :: p) (b :: p')

theorem Carries.oneToOne (one : OneToOne E.moves) : OneToOne E.Carries := by
  intro p p' q q' first second
  induction first generalizing q q' with
  | root => cases second <;> simp
  | @child p p' a b outer own other ih =>
    cases second with
    | root => simp
    | @child q q' c d outerToo ownToo otherToo =>
      have outers := ih outerToo
      by_cases here : p = E.path
      · by_cases same : p = q
        · have moved := one (own here) (ownToo (same ▸ here))
          simp only [List.cons.injEq, moved, outers]
        · have different := mt outers.mpr same
          simp [same, different]
      · by_cases same : p = q
        · simp only [List.cons.injEq, other here, otherToo (same ▸ here), outers]
        · have different := mt outers.mpr same
          simp [same, different]

/-- What a rule at a path becomes. -/
inductive Becomes (E : Edit) (p : List Nat) : Rule → Rule → Prop where
  | same {r : Rule} (apart : ¬ p <:+ E.path) : Becomes E p r r
  | edited {r : Rule} {inner inner' : List Rule} {rest : List Nat} (has : r.block? = some inner)
      (edited : Rule.Edited E.change rest inner inner') (there : rest ++ p = E.path) :
      Becomes E p r (r.withBlock inner')

/-- A rule of the sheet and what it becomes, or a rule of a file. -/
inductive Twin (E : Edit) (familiar : Placed → Prop) : Placed → Placed → Prop where
  | own {r r' : Rule} {p p' : List Nat} (known : familiar ⟨r, .written 0 p⟩)
      (carries : E.Carries p p') (becomes : E.Becomes p r r') :
      Twin E familiar ⟨r, .written 0 p⟩ ⟨r', .written 0 p'⟩
  | file {r : Rule} {n : Nat} {p : List Nat} (known : familiar ⟨r, .written n p⟩) (other : n ≠ 0) :
      Twin E familiar ⟨r, .written n p⟩ ⟨r, .written n p⟩

/-- How the rules before and after the edit belong together, where calls of `call` are replaced by
    `body` and the compilation of the sheet ends in the state `final`. -/
def coupling (E : Edit) (call : MixinCall) (body : List Rule) (sheet : Stylesheet)
    (final : Evaluation) : Coupling where
  twin := E.Twin (Familiar sheet final.importer.cache)
  replaced site := ∃ k, E.gone k ∧ site = .written 0 (k :: E.path)
  call := call
  body := body
  named name := ∃ c, Called sheet final.importer.cache c ∧ name ∈ c.path
  block site rules := (site, rules) ∈ knownBlocks sheet final.importer.cache
  final := final

/-- The rules of the changed block move as the edit says, whatever is to be known of them. -/
structure Sound (E : Edit) (cut : Placed → List Placed → Prop) : Prop where
  one : OneToOne E.moves
  kept : ∀ a b, E.moves a b → ¬ E.gone a
  aligned : ∀ {R : Placed → Placed → Prop} {rules rules' : List Rule} {p' : List Nat},
    E.change rules rules' →
    (∀ a b r, rules[a]? = some r → E.moves a b →
      R ⟨r, .written 0 (a :: E.path)⟩ ⟨r, .written 0 (b :: p')⟩) →
    Aligned Placed.rule cut R (Placed.ofBlock (.written 0 E.path) rules)
      (Placed.ofBlock (.written 0 p') rules')

section Aligning

variable {cut : Placed → List Placed → Prop} (sound : E.Sound cut) {familiar : Placed → Prop}
  {rules rules' : List Rule}

/-- Rules that lie off the way to the changed block stay what they are. -/
theorem aligned_apart (carries : E.Carries p p') (apart : ¬ p <:+ E.path)
    (known : ∀ q ∈ Placed.ofBlock (.written 0 p) rules, familiar q) :
    Aligned Placed.rule cut (E.Twin familiar) (Placed.ofBlock (.written 0 p) rules)
      (Placed.ofBlock (.written 0 p') rules) := by
  refine Aligned.mapIdx fun i r at_ => ?_
  have elsewhere : p ≠ E.path := fun here => apart (here ▸ List.suffix_rfl)
  refine .own (known _ (Placed.mem_ofBlock.mpr ⟨i, r, at_, rfl⟩)) ?_ (.same ?_)
  · exact .child carries (fun here => absurd here elsewhere) fun _ => rfl
  · exact fun inside => apart ((List.suffix_cons i p).trans inside)

include sound in
theorem aligned_edited (edited : Rule.Edited E.change rest rules rules')
    (there : rest ++ p = E.path) (carries : E.Carries p p')
    (known : ∀ q ∈ Placed.ofBlock (.written 0 p) rules, familiar q) :
    Aligned Placed.rule cut (E.Twin familiar) (Placed.ofBlock (.written 0 p) rules)
      (Placed.ofBlock (.written 0 p') rules') := by
  have familiarAt : ∀ i r, rules[i]? = some r → familiar ⟨r, .written 0 (i :: p)⟩ :=
    fun i r at_ => known _ (Placed.mem_ofBlock.mpr ⟨i, r, at_, rfl⟩)
  cases edited with
  | here changed =>
    obtain rfl : p = E.path := there
    refine sound.aligned changed fun a b r at_ moves => ?_
    refine .own (familiarAt a r at_) ?_ (.same fun inside => ?_)
    · exact .child carries (fun _ => moves) fun elsewhere => absurd rfl elsewhere
    · have := inside.length_le
      simp at this
  | @inside path front back r inner inner' has edited =>
    have there : path ++ front.length :: p = E.path := by rw [← there]; simp
    have elsewhere : p ≠ E.path := by
      intro here
      have := congrArg List.length there
      rw [← here, List.length_append, List.length_cons] at this
      omega
    have carriesAt : ∀ i, E.Carries (i :: p) (i :: p') :=
      fun i => .child carries (fun here => absurd here elsewhere) fun _ => rfl
    have unchanged : ∀ i q, (front ++ r :: back)[i]? = some q → i ≠ front.length →
        E.Twin familiar ⟨q, .written 0 (i :: p)⟩ ⟨q, .written 0 (i :: p')⟩ := by
      intro i q at_ different
      refine .own (familiarAt i q at_) (carriesAt i) (.same ?_)
      rintro ⟨other, same⟩
      rw [← there] at same
      exact different (List.cons.inj (List.append_inj' same rfl).2).1
    unfold Placed.ofBlock
    rw [List.mapIdx_append, List.mapIdx_append, List.mapIdx_cons, List.mapIdx_cons]
    refine Aligned.append (.mapIdx fun i q at_ => ?_) (.cons ?_ (.mapIdx fun i q at_ => ?_))
    · have inside := (List.getElem?_eq_some_iff.mp at_).1
      exact unchanged i q (by rw [List.getElem?_append_left inside, at_]) (by omega)
    · simp only [Nat.zero_add]
      refine .own (familiarAt _ r (by simp)) (carriesAt _) (.edited has edited there)
    · refine unchanged (i + 1 + front.length) q ?_ (by omega)
      rw [List.getElem?_append_right (by omega), Nat.add_sub_cancel, List.getElem?_cons_succ, at_]

end Aligning

section Laws

variable {call : MixinCall} {body : List Rule} {sheet sheet' : Stylesheet} {final : Evaluation}
  {setting : Setting} (sound : E.Sound (E.coupling call body sheet final).cut)
include sound

theorem shape (twin : (E.coupling call body sheet final).twin q q') :
    (E.coupling call body sheet final).Shape q q' := by
  have unchanged : ∀ {r : Rule} {site site' : Site}, Familiar sheet final.importer.cache ⟨r, site⟩ →
      (∀ inner, r.block? = some inner → Aligned Placed.rule (E.coupling call body sheet final).cut
        (E.coupling call body sheet final).twin (Placed.ofBlock site inner)
        (Placed.ofBlock site' inner)) →
      (E.coupling call body sheet final).Shape ⟨r, site⟩ ⟨r, site'⟩ := by
    intro r site site' known aligned
    cases has : r.block? with
    | none => exact .leaf has
    | some inner =>
      have shape := Coupling.Shape.block has (known.block inner has) (aligned inner has)
      rwa [Rule.withBlock_of_block? has] at shape
  cases twin with
  | own known carries becomes =>
    cases becomes with
    | same apart =>
      exact unchanged known fun inner has => aligned_apart carries apart (known.inner has)
    | edited has edited there =>
      exact .block has (known.block _ has)
        (aligned_edited sound edited there carries (known.inner has))
  | @file r n p known other =>
    refine unchanged known fun inner has => Aligned.refl fun q member => ?_
    have knownToo := known.inner has q member
    obtain ⟨i, r, -, rfl⟩ := Placed.mem_ofBlock.mp member
    exact .file knownToo other

theorem lawful (numbered : Numbered final.importer.files final.importer.cache)
    (inlines : ∀ k, E.gone k → (E.coupling call body sheet final).Inlines setting) :
    (E.coupling call body sheet final).Lawful setting where
  one p p' q q' first second := by
    cases first with
    | own _ carries _ =>
      cases second with
      | own _ carriesToo _ => simpa using Carries.oneToOne sound.one carries carriesToo
      | file _ other => simp [other.symm]
    | file _ other =>
      cases second with
      | own => simp [other]
      | file => rfl
  written p p' twin := by
    cases twin with
    | own => exact ⟨⟨_, _, rfl⟩, _, _, rfl⟩
    | file => exact ⟨⟨_, _, rfl⟩, _, _, rfl⟩
  shape _ _ := shape sound
  named p p' c twin rule name member := by
    have known : Familiar sheet final.importer.cache p := by
      cases twin with
      | own known => exact known
      | file known => exact known
    exact ⟨c, known.calls c (rule ▸ p.rule.mem_parts_self), member⟩
  kept p p' twin := by
    rintro ⟨k, gone, site⟩
    cases twin with
    | own _ carries _ =>
      obtain rfl : _ = k :: E.path := (Site.written.inj site).2
      cases carries with
      | child _ own _ => exact sound.kept k _ (own rfl) gone
    | file _ other => exact other (Site.written.inj site).1
  files f cached i p member := by
    have known : Familiar sheet final.importer.cache p := .contribution cached i p member
    have positive : f.2.file ≠ 0 := Nat.ne_of_gt (numbered.inside f cached).1
    unfold Eval.contribution at member
    split at member
    · obtain rfl := List.mem_singleton.mp member
      exact .file known positive
    · obtain ⟨i, r, -, rfl⟩ := Placed.mem_ofBlock.mp member
      exact .file known positive
  inlines site replaced := by
    obtain ⟨k, gone, -⟩ := replaced
    exact inlines k gone

end Laws

/-- An edit that gives rise to a lawful coupling leaves the output as it is. -/
theorem output_eq
    (sound : E.Sound (E.coupling call body sheet (Compiler.resolveSheet sheet setting {}).2).cut)
    (path : sheet'.path = sheet.path)
    (edited : Rule.Edited E.change E.path sheet.rules sheet'.rules)
    (inlines : ∀ k, E.gone k →
      (E.coupling call body sheet (Compiler.resolveSheet sheet setting {}).2).Inlines setting)
    (orderly : ∀ s ∈ [sheet, sheet'],
      (E.coupling call body sheet (Compiler.resolveSheet sheet setting {}).2).Orderly setting s) :
    Compiler.output? setting sheet = Compiler.output? setting sheet' := by
  simp only [List.forall_mem_cons] at orderly
  exact Coupling.output_eq (lawful sound (Compiler.resolveSheet_numbered setting sheet) inlines)
    path (aligned_edited sound edited (List.append_nil _) .root Familiar.root) orderly.1 orderly.2.1
    rfl

end Edit

end StyleResolution
