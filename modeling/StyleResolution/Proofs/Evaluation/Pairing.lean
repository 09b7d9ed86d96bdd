import Mathlib.Data.List.Forall2
import StyleResolution.Proofs.Evaluation.Finishing

/-! # Two runs side by side

Two computations that start from different states may still do the same, step by step. `Tied` says
how they end together: both with a result, and results and states are related, or both with a
failure. Its rules follow the ways in which computations are put together, one step of the first
computation beside one step of the second.

A proviso says what a comparison is conditional on. It may rule out some runs of the first
computation, by what is to be seen in the state they end in, and it may excuse a computation that
has run out of steps.
-/

namespace StyleResolution

open Eval

/-- What the comparison of two runs is conditional on. -/
structure Proviso where
  /-- The first run is to end in a state of this kind. -/
  fair : Evaluation → Prop
  /-- Neither run is excused if its bound is too small. -/
  tight : Prop
  /-- Failures have to have the same cause. -/
  causes : Prop

namespace Proviso

/-- Nothing is assumed, and everything has to be the same. -/
def none : Proviso :=
  ⟨fun _ => True, True, True⟩

/-- If the later state is fair, the earlier one was. -/
def Since (P : Proviso) (s s' : Evaluation) : Prop :=
  P.fair s' → P.fair s

instance (P : Proviso) : IsPreorder Evaluation P.Since where
  refl _ := id
  trans _ _ _ first second := first ∘ second

/-- Whether the failure says nothing about the comparison. -/
def Excuses (P : Proviso) (f : Failure) : Prop :=
  ¬ P.tight ∧ f.cause = .exhausted

variable {α β : Type}

/-- How two runs end together. -/
def Relates (P : Proviso) (ok : α → Evaluation → β → Evaluation → Prop) :
    Except Failure α × Evaluation → Except Failure β × Evaluation → Prop
  | (.ok a, s'), (.ok b, t') => ok a s' b t'
  | (.error f, _), (.error g, _) => P.Excuses f ∨ P.Excuses g ∨ (P.causes → f.cause = g.cause)
  | (.error f, _), (.ok _, _) => P.Excuses f
  | (.ok _, _), (.error g, _) => P.Excuses g

namespace Relates

variable {P Q : Proviso} {ok ok' : α → Evaluation → β → Evaluation → Prop}
  {x : Except Failure α × Evaluation} {y : Except Failure β × Evaluation}

theorem mono (h : P.Relates ok x y) (weaker : ∀ a s' b t', ok a s' b t' → ok' a s' b t') :
    P.Relates ok' x y := by
  rcases x with ⟨f | a, s'⟩ <;> rcases y with ⟨g | b, t'⟩
  · exact h
  · exact h
  · exact h
  · exact weaker a s' b t' h

theorem under (h : P.Relates ok x y) (tight : Q.tight → P.tight) (causes : Q.causes → P.causes) :
    Q.Relates ok x y := by
  have excused : ∀ f, P.Excuses f → Q.Excuses f := fun f excuse => ⟨mt tight excuse.1, excuse.2⟩
  rcases x with ⟨f | a, s'⟩ <;> rcases y with ⟨g | b, t'⟩
  · exact h.imp (excused f) (Or.imp (excused g) (· ∘ causes))
  · exact excused f h
  · exact excused g h
  · exact h

theorem excused (excuse : P.Excuses f) : P.Relates ok (.error f, s') y := by
  rcases y with ⟨g | b, t'⟩
  · exact .inl excuse
  · exact excuse

theorem excusedToo (excuse : P.Excuses g) : P.Relates ok x (.error g, t') := by
  rcases x with ⟨f | a, s'⟩
  · exact .inr (.inl excuse)
  · exact excuse

theorem failed (careless : ¬ P.causes) : P.Relates ok (.error f, s') (.error g, t') :=
  .inr (.inr fun same => absurd same careless)

theorem settle (h : P.Relates ok x y) (left : ∀ f, x.1 = .error f → f.cause ≠ .exhausted)
    (right : ∀ g, y.1 = .error g → g.cause ≠ .exhausted) :
    Relates { P with tight := True } ok x y := by
  rcases x with ⟨f | a, s'⟩ <;> rcases y with ⟨g | b, t'⟩
  · have same := (h.resolve_left fun excuse => left f rfl excuse.2).resolve_left
      fun excuse => right g rfl excuse.2
    exact .inr (.inr same)
  · exact absurd h.2 (left f rfl)
  · exact absurd h.2 (right g rfl)
  · exact h

end Relates

end Proviso

namespace Eval

variable {α α' β β' : Type} {P : Proviso} {setting : Setting} {s t : Evaluation}

/-- Unless the proviso rules it out, the two computations end together. -/
def Tied (P : Proviso) (setting : Setting) (s t : Evaluation) (x : Eval α) (y : Eval β)
    (ok : α → Evaluation → β → Evaluation → Prop) : Prop :=
  P.fair (x setting s).2 → P.Relates ok (x setting s) (y setting t)

namespace Tied

variable {ok : α → Evaluation → β → Evaluation → Prop}

theorem pure (related : ok a s b t) : Tied P setting s t (Pure.pure a) (Pure.pure b) ok :=
  fun _ => related

theorem fail (same : P.causes → f.cause = g.cause) :
    Tied P setting s t (fail f : Eval α) (fail g : Eval β) ok :=
  fun _ => .inr (.inr same)

theorem failWith (cause : Cause) :
    Tied P setting s t (failWith cause : Eval α) (failWith cause : Eval β) ok :=
  fail fun _ => rfl

theorem spent (loose : ¬ P.tight) (y : Eval β) :
    Tied P setting s t (Eval.failWith .exhausted : Eval α) y ok :=
  fun _ => .excused ⟨loose, rfl⟩

theorem spentToo (loose : ¬ P.tight) (x : Eval α) :
    Tied P setting s t x (Eval.failWith .exhausted : Eval β) ok :=
  fun _ => .excusedToo ⟨loose, rfl⟩

theorem mono (h : Tied P setting s t x y ok) (weaker : ∀ a s' b t', ok a s' b t' → ok' a s' b t') :
    Tied P setting s t x y ok' :=
  fun fair => (h fair).mono weaker

theorem under (h : Tied P setting s t x y ok) (fair : ∀ s', Q.fair s' → P.fair s')
    (tight : Q.tight → P.tight) (causes : Q.causes → P.causes) : Tied Q setting s t x y ok :=
  fun fairly => (h (fair _ fairly)).under tight causes

theorem of_none (h : Tied .none setting s t x y ok) : Tied P setting s t x y ok :=
  h.under (fun _ _ => trivial) (fun _ => trivial) fun _ => trivial

theorem settle (h : Tied P setting s t x y ok) (left : Finishes setting s x okX)
    (right : Finishes setting t y okY) : Tied { P with tight := True } setting s t x y ok := by
  refine fun fair => (h fair).settle (fun f failed => ?_) fun g failed => ?_
  · exact Ends.failure left (Prod.ext failed rfl)
  · exact Ends.failure right (Prod.ext failed rfl)

theorem and (h : Tied P setting s t x y ok) (left : Ends setting s x okX failedX)
    (right : Ends setting t y okY failedY) :
    Tied P setting s t x y fun a s' b t' => ok a s' b t' ∧ okX a s' ∧ okY b t' := by
  intro fair
  have related := h fair
  rcases runX : x setting s with ⟨f | a, s'⟩ <;> rcases runY : y setting t with ⟨g | b, t'⟩ <;>
    rw [runX, runY] at related
  · exact related
  · exact related
  · exact related
  · exact ⟨related, left.result runX, right.result runY⟩

theorem keeping (h : Tied P setting s t x y ok) (left : Keeps setting R x)
    (right : Keeps setting R' y) :
    Tied P setting s t x y fun a s' b t' => ok a s' b t' ∧ R s s' ∧ R' t t' :=
  h.and (left.ends setting s) (right.ends setting t)

/-- One step beside another one, and the rest beside the rest. Whatever the rest of the first run
    does, it must not make up for an unfair first step. -/
theorem bind {x : Eval α'} {y : Eval β'} {next : α' → Eval α} {next' : β' → Eval β}
    {mid : α' → Evaluation → β' → Evaluation → Prop} (first : Tied P setting s t x y mid)
    (then_ : ∀ a s' b t', mid a s' b t' → Tied P setting s' t' (next a) (next' b) ok)
    (since : ∀ a, Keeps setting P.Since (next a)) :
    Tied P setting s t (x >>= next) (y >>= next') ok := by
  intro fair
  unfold Tied at first
  simp only [bind_apply] at fair ⊢
  rcases runX : x setting s with ⟨f | a, s'⟩ <;> rcases runY : y setting t with ⟨g | b, t'⟩ <;>
    rw [runX, runY] at first <;> rw [runX] at fair
  · exact first fair
  · exact .excused (first fair)
  · exact .excusedToo (first (since a s' fair))
  · exact then_ a s' b t' (first (since a s' fair)) fair

/-- Two steps in one order beside the same steps in the other order. Each step has to be comparable
    with its counterpart no matter whether the other step was made already. -/
theorem crossed {x : Eval α} {x' : Eval α'} {y : Eval β} {y' : Eval β'} {next : α → β → Eval γ}
    {next' : α' → β' → Eval γ'} {ok : γ → Evaluation → γ' → Evaluation → Prop}
    {first : Evaluation → α → Evaluation → α' → Evaluation → Prop}
    {second : Evaluation → β → Evaluation → β' → Evaluation → Prop} (careless : ¬ P.causes)
    (late : ∀ b' t₁, y' setting t = (.ok b', t₁) → Tied P setting s t₁ x x' (first t₁))
    (early : ∀ a s₁, x setting s = (.ok a, s₁) → Tied P setting s₁ t y y' (second s₁))
    (then_ : ∀ a s₁ b s₂ b' t₁ a' t₂, first t₁ a s₁ a' t₂ → second s₁ b s₂ b' t₁ →
      Tied P setting s₂ t₂ (next a b) (next' a' b') ok)
    (since : Keeps setting P.Since y) (sinceToo : ∀ a b, Keeps setting P.Since (next a b)) :
    Tied P setting s t (x >>= fun a => y >>= fun b => next a b)
      (y' >>= fun b' => x' >>= fun a' => next' a' b') ok := by
  intro fair
  simp only [bind_apply] at fair ⊢
  rcases runX : x setting s with ⟨f | a, s₁⟩ <;> rcases runY' : y' setting t with ⟨g | b', t₁⟩ <;>
    rw [runX] at fair <;> dsimp only at fair ⊢
  · exact .failed careless
  · have related := late b' t₁ runY'
    unfold Tied at related
    rw [runX] at related
    rcases runX' : x' setting t₁ with ⟨g | a', t₂⟩
    · exact .failed careless
    · rw [runX'] at related
      exact .excused (related fair)
  all_goals
    have related := early a s₁ runX
    unfold Tied at related
    rcases runY : y setting s₁ with ⟨f | b, s₂⟩ <;> rw [runY, runY'] at related <;>
      rw [runY] at fair <;> dsimp only at fair ⊢
  · exact .failed careless
  · exact .excusedToo (related (sinceToo a b s₂ fair))
  · exact .excused (related fair)
  · have fairToo : P.fair s₂ := sinceToo a b s₂ fair
    have begun : P.fair s₁ := since s₁ (by rw [runY]; exact fairToo)
    have relatedToo := late b' t₁ runY'
    unfold Tied at relatedToo
    rw [runX] at relatedToo
    rcases runX' : x' setting t₁ with ⟨g | a', t₂⟩ <;> rw [runX'] at relatedToo
    · exact .excusedToo (relatedToo begun)
    · exact then_ a s₁ b s₂ b' t₁ a' t₂ (relatedToo begun) (related fairToo) fair

/-- Computations that cannot succeed, the first one as far as the proviso goes, end together. -/
theorem failing (careless : ¬ P.causes)
    (left : Ends setting s x (fun _ s' => ¬ P.fair s') fun _ _ => True)
    (right : Ends setting t y (fun _ _ => False) fun _ _ => True) : Tied P setting s t x y ok := by
  intro fair
  rcases runX : x setting s with ⟨f | a, s'⟩ <;> rcases runY : y setting t with ⟨g | b, t'⟩
  · exact .failed careless
  · exact (right.result runY).elim
  · exact absurd (by rwa [runX] at fair) (left.result runX)
  · exact (right.result runY).elim

theorem ahead (run : x setting s = (.ok a, s')) (h : Tied P setting s' t (next a) y ok) :
    Tied P setting s t (x >>= next) y ok := by
  have same : (x >>= next) setting s = next a setting s' := by rw [bind_apply, run]
  unfold Tied
  rw [same]
  exact h

/-- The second computation goes one step ahead. -/
theorem behind (run : y setting t = (.ok b, t')) (h : Tied P setting s t' x (next b) ok) :
    Tied P setting s t x (y >>= next) ok := by
  have same : (y >>= next) setting t = next b setting t' := by rw [bind_apply, run]
  unfold Tied
  rw [same]
  exact h

/-- The first computation goes ahead by a step whose failures are excused. -/
theorem leading (first : Ends setting s x mid fun f _ => P.Excuses f)
    (then_ : ∀ a s', mid a s' → Tied P setting s' t (next a) y ok) :
    Tied P setting s t (x >>= next) y ok := by
  rcases run : x setting s with ⟨f | a, s'⟩
  · intro _
    rw [bind_apply, run]
    exact .excused (first.failure run)
  · exact ahead run (then_ a s' (first.result run))

/-- The second computation goes ahead by a step whose failures are excused. -/
theorem trailing (first : Ends setting t y mid fun g _ => P.Excuses g)
    (then_ : ∀ b t', mid b t' → Tied P setting s t' x (next b) ok) :
    Tied P setting s t x (y >>= next) ok := by
  rcases run : y setting t with ⟨g | b, t'⟩
  · intro _
    rw [bind_apply, run]
    exact .excusedToo (first.failure run)
  · exact behind run (then_ b t' (first.result run))

theorem ofState (h : Tied P setting s t (next s) (next' t) ok) :
    Tied P setting s t (state >>= next) (state >>= next') ok := h

theorem ofSetting (h : Tied P setting s t (next setting) (next' setting) ok) :
    Tied P setting s t (Eval.setting >>= next) (Eval.setting >>= next') ok := h

theorem change (h : Tied P setting (f s) (g t) (next ()) (next' ()) ok) :
    Tied P setting s t (change f >>= next) (change g >>= next') ok := h

theorem mapFailure (tied : Tied P setting s t x y ok) (same : ∀ f, (g f).cause = f.cause)
    (sameToo : ∀ f, (h f).cause = f.cause) :
    Tied P setting s t (mapFailure g x) (mapFailure h y) ok := by
  intro fair
  rw [mapFailure_snd] at fair
  have related := tied fair
  unfold Eval.mapFailure
  rcases runX : x setting s with ⟨f | a, s'⟩ <;> rcases runY : y setting t with ⟨f' | b, t'⟩ <;>
    rw [runX, runY] at related
  · simpa only [Proviso.Relates, Proviso.Excuses, same, sameToo] using related
  · simpa only [Proviso.Relates, Proviso.Excuses, same] using related
  · simpa only [Proviso.Relates, Proviso.Excuses, sameToo] using related
  · exact related

theorem locatedAt (tied : Tied P setting s t x y ok) (span span' : Span) :
    Tied P setting s t (locatedAt span x) (locatedAt span' y) ok :=
  tied.mapFailure (fun _ => rfl) fun _ => rfl

theorem insideOf (tied : Tied P setting s t x y ok) (frame frame' : Unit → String) :
    Tied P setting s t (insideOf frame x) (insideOf frame' y) ok :=
  tied.mapFailure (fun _ => rfl) fun _ => rfl

/-- Changes around both computations. The change after the first one must not make up for an unfair
    run. -/
theorem between
    (tied : Tied P setting (enter s) (enter' t) x y fun a s' b t' => ok a (leave s') b (leave' t'))
    (fair : ∀ s', P.fair (leave s') → P.fair s') :
    Tied P setting s t (between enter leave x) (between enter' leave' y) ok := by
  intro fairly
  have related := tied (fair _ fairly)
  unfold Eval.between
  rcases runX : x setting (enter s) with ⟨f | a, s'⟩ <;>
    rcases runY : y setting (enter' t) with ⟨g | b, t'⟩ <;> rw [runX, runY] at related <;>
    exact related

end Tied

end Eval

end StyleResolution
