import StyleResolution.Proofs.Coupling.Edits

/-! # The position of definitions

A variable is looked up in the frame of a block, which holds all rules of the block before any of
them is evaluated. So a definition may stand anywhere in its block, as long as it does not change
places with another definition of the variable, or with an import, which may bring one.
-/

namespace StyleResolution

namespace Rule

/-- A variable definition at this position changed places with the rule behind it. -/
def SwapsAt (position : Nat) (rules rules' : List Rule) : Prop :=
  ∃ front v r back, front.length = position ∧ v.Passes r ∧ rules = front ++ v :: r :: back ∧
    rules' = front ++ r :: v :: back

/-- A variable definition changed places with the rule behind it or before it, which is no import
    and does not define the variable. -/
def Swapped (rules rules' : List Rule) : Prop :=
  ∃ position, SwapsAt position rules rules' ∨ SwapsAt position rules' rules

theorem block?_withBlock {r : Rule} {inner : List Rule} (has : r.block? = some inner)
    (inner' : List Rule) : (r.withBlock inner').block? = some inner' ∧
      (r.withBlock inner').withBlock inner = r := by
  cases r <;> simp_all [block?, withBlock]

namespace Edited

variable {path : List Nat} {rules rules' : List Rule} {change change' : List Rule → List Rule → Prop}

theorem symm (edited : Edited change path rules rules') :
    Edited (fun a b => change b a) path rules' rules := by
  induction edited with
  | here changed => exact .here changed
  | @inside path front back r inner inner' has _ ih =>
    obtain ⟨block, undone⟩ := block?_withBlock has inner'
    have edited : Edited (fun a b => change b a) (path ++ [front.length])
        (front ++ r.withBlock inner' :: back)
        (front ++ (r.withBlock inner').withBlock inner :: back) := .inside block ih
    rwa [undone] at edited

theorem or (edited : Edited (fun a b => change a b ∨ change' a b) path rules rules') :
    Edited change path rules rules' ∨ Edited change' path rules rules' := by
  induction edited with
  | here changed => exact changed.imp .here .here
  | inside has _ ih => exact ih.imp (.inside has) (.inside has)

end Edited

end Rule

/-- The edit that makes a definition and the rule behind it change places. -/
def Edit.swap (path : List Nat) (position : Nat) : Edit where
  path := path
  change := Rule.SwapsAt position
  moves a b := a = position ∧ b = position + 1 ∨ a = position + 1 ∧ b = position ∨
    a ≠ position ∧ a ≠ position + 1 ∧ b = a
  gone _ := False

theorem Edit.swap_sound (path : List Nat) (position : Nat) (cut : Placed → List Placed → Prop) :
    (Edit.swap path position).Sound cut where
  one := by
    intro a a' b b' first second
    simp only [Edit.swap] at first second
    omega
  kept _ _ _ := id
  aligned := by
    rintro R _ _ p' ⟨front, v, r, back, rfl, passes, rfl, rfl⟩ related
    have moved : ∀ a b q, (front ++ v :: r :: back)[a]? = some q →
        (swap path front.length).moves a b →
          R ⟨q, .written 0 (a :: path)⟩ ⟨q, .written 0 (b :: p')⟩ := related
    simp only [Edit.swap] at moved
    unfold Placed.ofBlock
    simp only [List.mapIdx_append, List.mapIdx_cons, Nat.zero_add]
    refine Aligned.append (.mapIdx fun i q at_ => ?_) (.swap passes ?_ ?_ (.mapIdx fun i q at_ => ?_))
    · have inside := (List.getElem?_eq_some_iff.mp at_).1
      exact moved i i q (by rw [List.getElem?_append_left inside, at_]) (by omega)
    · exact moved _ _ v (by simp) (by omega)
    · exact moved _ _ r (by simp [Nat.add_comm 1]) (by omega)
    · refine moved (i + 1 + 1 + front.length) _ q ?_ (by omega)
      rw [List.getElem?_append_right (by omega), Nat.add_sub_cancel, List.getElem?_cons_succ,
        List.getElem?_cons_succ, at_]

theorem Compiler.output_of_swapsAt {position : Nat} (sheet sheet' : Stylesheet)
    (same : sheet'.path = sheet.path)
    (edited : Rule.Edited (Rule.SwapsAt position) path sheet.rules sheet'.rules) :
    output? setting sheet = output? setting sheet' := by
  -- Nothing is replaced, so it does not matter which call and which rules are chosen.
  let K := (Edit.swap path position).coupling ⟨[], [], false, Span.none⟩ [] sheet
    (resolveSheet sheet setting {}).2
  have exact_ : K.Exact := by
    rintro site ⟨_, never, -⟩
    exact never
  have sound : (Edit.swap path position).Sound K.cut := Edit.swap_sound path position K.cut
  exact Edit.output_eq sound same edited (fun _ => False.elim) fun s _ => exact_.orderly setting s

/-- Wherever a variable definition changes places with a rule next to it, in the root or in any block
    of a sheet, the sheet compiles to the same as before, or it did not compile and does not now. The
    rule may be anything but an import or another definition of the variable. -/
theorem definitions_may_change_places (setting : Setting) (sheet : Stylesheet) (path : List Nat)
    (rules : List Rule) (swapped : Rule.Edited Rule.Swapped path sheet.rules rules) :
    Compiler.output? setting { sheet with rules } = Compiler.output? setting sheet := by
  obtain ⟨position, edited⟩ := swapped.choose
  rcases edited.or with behind | before
  · exact (Compiler.output_of_swapsAt sheet { sheet with rules } rfl behind).symm
  · exact Compiler.output_of_swapsAt { sheet with rules } sheet rfl before.symm

/-- A ruleset that defines a variable before it calls a mixin, which defines the variable too, and
    that uses the variable in a media block. -/
def shadowingSheet : Stylesheet :=
  ⟨none,
    [.mixin ⟨".m", [], none, Span.none⟩ [.variable ⟨"c", .keyword "x", Span.none⟩],
      .ruleset [⟨[⟨.attached, .literal ".a"⟩]⟩]
        [.variable ⟨"c", .keyword "y", Span.none⟩, .call ⟨[".m"], [], false, Span.none⟩,
          .media (.keyword "print") [.declaration ⟨"p", .variable "c", false, Span.none⟩] Span.none]
        Span.none]⟩

/-- The rules of the sheet with the definition behind the call. -/
def shadowingRules : List Rule :=
  [.mixin ⟨".m", [], none, Span.none⟩ [.variable ⟨"c", .keyword "x", Span.none⟩],
    .ruleset [⟨[⟨.attached, .literal ".a"⟩]⟩]
      [.call ⟨[".m"], [], false, Span.none⟩, .variable ⟨"c", .keyword "y", Span.none⟩,
        .media (.keyword "print") [.declaration ⟨"p", .variable "c", false, Span.none⟩] Span.none]
      Span.none]

theorem shadowingSheet_compiles_either_way :
    (Compiler.output? {} shadowingSheet).isSome = true ∧
      Compiler.output? {} { shadowingSheet with rules := shadowingRules } =
        Compiler.output? {} shadowingSheet := by
  refine ⟨by decide +kernel, definitions_may_change_places {} shadowingSheet [1] shadowingRules ?_⟩
  refine @Rule.Edited.inside _ [] (shadowingSheet.rules.take 1) [] _ _ _ rfl
    (.here ⟨0, .inl ⟨[], _, _, _, rfl, ?_, rfl, rfl⟩⟩)
  exact ⟨_, rfl, rfl, fun _ different => nomatch different⟩

end StyleResolution
