import StyleResolution.Proofs.Text.Shrinking

/-! # Grammars that refer to themselves

A grammar with brackets refers to itself, and its readers are cut off at a depth of nesting. Where
every way round the circle takes something, the cut is never reached: what a reader does on a text
depends on shorter texts only, so there is one reader that satisfies the equation of the grammar.
-/

namespace StyleResolution

open Reader

/-- The two agree on the texts shorter than `n`. -/
def Agree (n : Nat) (f g : List Char → γ) : Prop :=
  ∀ s, s.length < n → f s = g s

namespace Agree

theorem rfl {f : List Char → γ} : Agree n f f :=
  fun _ _ => Eq.refl _

theorem mono (h : Agree m f g) (le : n ≤ m) : Agree n f g :=
  fun s short => h s (Nat.lt_of_lt_of_le short le)

/-- The cuts of a grammar, put together: at every text one that is deep enough. -/
def limit (cut : Nat → List Char → γ) : List Char → γ :=
  fun s => cut (s.length + 1) s

section

variable {G : (List Char → γ) → Prop} {F : (List Char → γ) → List Char → γ}
  {cut : Nat → List Char → γ}
  (contracts : ∀ n p q, G q → Agree n p q → Agree (n + 1) (F p) (F q))

include contracts

theorem eq_of_solves (good : G q) (solution : q = F q) (solves : p = F p) : p = q := by
  have agree (n : Nat) : Agree n p q := by
    induction n with
    | zero => exact fun s short => absurd short (Nat.not_lt_zero _)
    | succ n ih =>
      rw [solves, solution]
      exact contracts _ _ _ good ih
  funext s
  exact agree _ s (Nat.lt_succ_self _)

variable (deeper : ∀ n, cut (n + 1) = F (cut n)) (good : G (limit cut))

include deeper good

theorem cut_limit (n : Nat) : Agree n (cut n) (limit cut) := by
  induction n using Nat.strongRecOn with
  | ind n ih =>
    intro s short
    have there : limit cut s = F (limit cut) s := by
      rw [limit, deeper]
      exact contracts _ _ _ good (ih s.length short) s (Nat.lt_succ_self _)
    cases n with
    | zero => exact absurd short (Nat.not_lt_zero _)
    | succ n =>
      rw [there, deeper]
      exact contracts _ _ _ good (ih n (Nat.lt_succ_self n)) s short

theorem limit_eq : limit cut = F (limit cut) := by
  funext s
  rw [limit, deeper]
  exact contracts _ _ _ good (cut_limit contracts deeper good _) s (Nat.lt_succ_self _)

end

/-! ## Readers made from smaller ones -/

open Reader (Shrinks Consumes)

variable {α β : Type} {p q : Reader α} {f g : α → Reader β}

theorem bind [Shrinks q] (first : Agree n p q) (next : ∀ a, Agree n (f a) (g a)) :
    Agree n (p >>= f) (q >>= g) := by
  intro s short
  rw [bind_apply, bind_apply, first s short]
  cases read : q s with
  | none => rfl
  | some found => exact next _ _ (Nat.lt_of_le_of_lt (Shrinks.length_le read) short)

theorem after [Shrinks q] (next : ∀ a, Agree n (f a) (g a)) : Agree n (q >>= f) (q >>= g) :=
  bind rfl next

theorem past [Consumes q] (next : ∀ a, Agree n (f a) (g a)) : Agree (n + 1) (q >>= f) (q >>= g) := by
  intro s short
  rw [bind_apply, bind_apply]
  cases read : q s with
  | none => rfl
  | some found =>
    exact next _ _ (Nat.lt_of_lt_of_le (Consumes.less read).2 (Nat.le_of_lt_succ short))

theorem orElse {p' q' : Reader α} (first : Agree n p q) (second : Agree n p' q') :
    Agree n (p <|> p') (q <|> q') := by
  intro s short
  rw [orElse_apply, orElse_apply, first s short, second s short]

theorem many (h : Agree n p q) : Agree n (many p) (many q) := by
  intro s short
  fun_induction Reader.many q s with
  | case1 s none | case4 s a mid read longer =>
    unfold Reader.many
    simp [h s short, *]
  | case2 s a mid read shorter none ih | case3 s a mid read shorter others after found ih =>
    unfold Reader.many
    simp [h s short, ih (by omega), *]

theorem manyThen [Shrinks q] {f g : List α → Reader β} (h : Agree n p q)
    (next : ∀ as, Agree n (f as) (g as)) :
    Agree n ((Reader.many p : Reader (List α)) >>= f) ((Reader.many q : Reader (List α)) >>= g) :=
  @bind _ _ _ _ _ _ n ⟨suffix_of_many⟩ (many h) next

theorem sepBy1 [Shrinks q] {separator : Reader β} [Shrinks separator] (h : Agree n p q) :
    Agree n (sepBy1 separator p) (sepBy1 separator q) :=
  bind h fun _ => manyThen (after fun _ => h) fun _ => rfl

end Agree

/-! ## Values -/

namespace Value

open Reader (Consumes)

variable {inner inner' : Reader Value} [Consumes inner'] (h : Agree n inner inner')

include h

theorem readParen_agree : Agree (n + 1) (readParen inner) (readParen inner') :=
  .past fun _ => .after fun _ => .bind h fun _ => .rfl

theorem factor_agree : Agree (n + 1) (factor inner) (factor inner') :=
  .orElse (readParen_agree h) (.orElse .rfl (.orElse .rfl (.orElse .rfl (.orElse .rfl (.orElse .rfl
    (.orElse
      (.past fun _ => .bind
        (.orElse .rfl ((readParen_agree h).mono (Nat.le_succ _))) fun _ => .rfl)
      (.orElse
        (.past fun _ => .after fun _ => .after fun _ => .bind (.orElse (.sepBy1 h) .rfl) fun _ => .rfl)
        .rfl)))))))

omit h in
theorem readOperations_agree {operand operand' : Reader Value} [Consumes operand']
    (h : Agree n operand operand') :
    Agree n (readOperations symbols operand) (readOperations symbols operand') :=
  .bind h fun _ => .manyThen (.after fun _ => .bind h fun _ => .rfl) fun _ => .rfl

theorem expression_agree : Agree (n + 1) (expression inner) (expression inner') :=
  readOperations_agree (readOperations_agree (factor_agree h))

theorem spaceListOf_agree : Agree (n + 1) (spaceListOf inner) (spaceListOf inner') :=
  .bind (expression_agree h) fun _ =>
    .manyThen (.after fun _ => expression_agree h) fun _ => .rfl

omit h

theorem spaceListAt_agree (n : Nat) : Agree n (spaceListAt n) readSpaceList :=
  Agree.cut_limit (G := fun q : Reader Value => Consumes q) (fun _ _ _ _ => spaceListOf_agree)
    (fun _ => rfl) (inferInstanceAs (Consumes readSpaceList)) n

theorem readSpaceList_eq : readSpaceList = spaceListOf readSpaceList :=
  funext fun s => spaceListOf_agree (spaceListAt_agree s.length) s (Nat.lt_succ_self _)

theorem eq_readSpaceList {p : Reader Value} (solves : p = spaceListOf p) : p = readSpaceList :=
  Agree.eq_of_solves (G := fun q : Reader Value => Consumes q) (fun _ _ _ _ => spaceListOf_agree)
    inferInstance readSpaceList_eq solves

theorem readExpression_eq : readExpression = expression readSpaceList :=
  funext fun s => expression_agree (spaceListAt_agree s.length) s (Nat.lt_succ_self _)

theorem readFactor_eq : readFactor = factor readSpaceList :=
  funext fun s => factor_agree (spaceListAt_agree s.length) s (Nat.lt_succ_self _)

end Value

end StyleResolution
