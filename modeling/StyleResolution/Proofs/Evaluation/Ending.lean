import Mathlib.Order.Defs.Unbundled
import StyleResolution.Evaluation.Repetition
import StyleResolution.Evaluation.State

/-! # How computations end

A computation ends with a result or with a failure, and in a state in either case. `Ends` says how
it ends from a given state. Its rules follow the ways in which computations are put together, so
that a proof about a function has the shape of the function.
-/

namespace StyleResolution

open Eval

/-- The failure of a computation, if it failed. -/
def failureOf {α : Type} : Except Failure α → Option Failure
  | .error f => some f
  | .ok _ => none

namespace Repetition

variable {m : Type → Type} [Monad m] {step : m Bool}

/-- The property holds of making no step, and of going on unless the last step was made. -/
structure Chains (P : m Bool → Prop) : Prop where
  none : P (pure false)
  next : ∀ {x y : m Bool}, P x → P y → P (do if ← x then pure true else y)

namespace Chains

variable {P : m Bool → Prop}

theorem repeatUpTo (chains : Chains P) (h : P step) (n : Nat) : P (Repetition.repeatUpTo step n) := by
  induction n with
  | zero => exact chains.none
  | succ n ih => exact chains.next h ih

theorem repeatPower (chains : Chains P) (h : P step) (w n : Nat) :
    P (Repetition.repeatPower w step n) := by
  induction n with
  | zero => exact h
  | succ n ih => exact chains.repeatUpTo ih w

theorem repeatPowersFrom (chains : Chains P) (h : P step) (w start n : Nat) :
    P (Repetition.repeatPowersFrom w step start n) := by
  induction n generalizing start with
  | zero => exact chains.none
  | succ n ih => exact chains.next (chains.repeatPower h w start) (ih (start + 1))

end Chains

end Repetition

namespace Eval

instance : LawfulMonad Eval :=
  LawfulMonad.mk' Eval
    (fun x => by
      funext setting s
      change (x >>= pure) setting s = _
      rw [bind_apply]
      rcases x setting s with ⟨f | a, s'⟩ <;> rfl)
    (fun _ _ => rfl)
    (fun x _ _ => by
      funext setting s
      simp only [bind_apply]
      rcases x setting s with ⟨f | a, s'⟩ <;> rfl)

variable {α β : Type} {setting : Setting} {s : Evaluation}

/-- From the state `s`, the computation ends with a result and a state as `ok` says, or with a
    failure and a state as `failed` says. -/
def Ends (setting : Setting) (s : Evaluation) (x : Eval α) (ok : α → Evaluation → Prop)
    (failed : Failure → Evaluation → Prop) : Prop :=
  match x setting s with
  | (.ok a, s') => ok a s'
  | (.error f, s') => failed f s'

namespace Ends

variable {ok : α → Evaluation → Prop} {failed : Failure → Evaluation → Prop}

theorem iff_cases : Ends setting s x ok failed ↔
    (∀ a s', x setting s = (.ok a, s') → ok a s') ∧
      (∀ f s', x setting s = (.error f, s') → failed f s') := by
  unfold Ends
  rcases x setting s with ⟨_ | a, s'⟩ <;> simp

theorem result (h : Ends setting s x ok failed) {a s'} (run : x setting s = (.ok a, s')) :
    ok a s' :=
  (iff_cases.mp h).1 a s' run

theorem failure (h : Ends setting s x ok failed) {f s'} (run : x setting s = (.error f, s')) :
    failed f s' :=
  (iff_cases.mp h).2 f s' run

theorem mono (h : Ends setting s x ok failed) (hok : ∀ a s', ok a s' → ok' a s')
    (hfailed : ∀ f s', failed f s' → failed' f s') :
    Ends setting s x ok' failed' := by
  rw [iff_cases] at h ⊢
  exact ⟨fun a s' run => hok a s' (h.1 a s' run), fun f s' run => hfailed f s' (h.2 f s' run)⟩

theorem imp (h : Ends setting s x ok failed) (hok : ∀ a s', ok a s' → ok' a s') :
    Ends setting s x ok' failed :=
  h.mono hok fun _ _ h => h

theorem and (h : Ends setting s x ok failed) (h' : Ends setting s x ok' failed') :
    Ends setting s x (fun a s' => ok a s' ∧ ok' a s') (fun f s' => failed f s' ∧ failed' f s') :=
  iff_cases.mpr ⟨fun _ _ run => ⟨h.result run, h'.result run⟩,
    fun _ _ run => ⟨h.failure run, h'.failure run⟩⟩

theorem pure (h : ok a s) : Ends setting s (Pure.pure a : Eval α) ok failed := h

theorem fail (h : failed f s) : Ends setting s (fail f : Eval α) ok failed := h

theorem failWith (h : failed { cause } s) :
    Ends setting s (failWith cause : Eval α) ok failed := h

theorem bind {x : Eval β} {next : β → Eval α} {mid : β → Evaluation → Prop}
    {midFailed : Failure → Evaluation → Prop} (first : Ends setting s x mid midFailed)
    (then_ : ∀ b s', mid b s' → Ends setting s' (next b) ok failed)
    (stop : ∀ f s', midFailed f s' → failed f s') :
    Ends setting s (x >>= next) ok failed := by
  unfold Ends
  rw [bind_apply]
  rcases run : x setting s with ⟨f | b, s'⟩
  · exact stop f s' (first.failure run)
  · exact then_ b s' (first.result run)

theorem seq {x : Eval β} {next : β → Eval α} {mid : β → Evaluation → Prop}
    (first : Ends setting s x mid failed)
    (then_ : ∀ b s', mid b s' → Ends setting s' (next b) ok failed) :
    Ends setting s (x >>= next) ok failed :=
  bind first then_ fun _ _ h => h

theorem mapFailure (h : Ends setting s x ok fun f s' => failed (g f) s') :
    Ends setting s (mapFailure g x) ok failed := by
  unfold Ends Eval.mapFailure
  rcases run : x setting s with ⟨f | a, s'⟩
  · exact h.failure run
  · exact h.result run

theorem attempt {x : Eval β} {ok : Except Failure β → Evaluation → Prop}
    (h : Ends setting s x (fun b s' => ok (.ok b) s') fun f s' => ok (.error f) s') :
    Ends setting s (attempt x) ok failed := by
  unfold Ends Eval.attempt
  rcases run : x setting s with ⟨f | b, s'⟩
  · exact h.failure run
  · exact h.result run

theorem between
    (h : Ends setting (enter s) x (fun a s' => ok a (leave s')) fun f s' => failed f (leave s')) :
    Ends setting s (between enter leave x) ok failed := by
  unfold Ends Eval.between
  rcases run : x setting (enter s) with ⟨f | a, s'⟩
  · exact h.failure run
  · exact h.result run

theorem noteOpening {x : Eval Opened} {ok : Opened → Evaluation → Prop}
    (h : Ends setting s x
      (fun a s' => ok a (s'.note ⟨node, path, s.importer, .ok a, s'.importer⟩))
      fun f s' => failed f (s'.note ⟨node, path, s.importer, .error f, s'.importer⟩)) :
    Ends setting s (noteOpening node path x) ok failed := by
  unfold Ends Eval.noteOpening
  rcases run : x setting s with ⟨f | a, s'⟩
  · exact h.failure run
  · exact h.result run

theorem bind_of_run {x : Eval β} {next : β → Eval α}
    (then_ : ∀ b s', x setting s = (.ok b, s') → Ends setting s' (next b) ok failed)
    (stop : ∀ f s', x setting s = (.error f, s') → failed f s') :
    Ends setting s (x >>= next) ok failed :=
  bind (iff_cases.mpr ⟨fun _ _ run => run, fun _ _ run => run⟩) then_ stop

theorem bind_of_ok (run : x setting s = (.ok b, s')) (h : Ends setting s' (next b) ok failed) :
    Ends setting s (x >>= next) ok failed := by
  unfold Ends
  rw [bind_apply, run]
  exact h

theorem ofState (h : Ends setting s (next s) ok failed) :
    Ends setting s (state >>= next) ok failed := h

theorem ofSetting (h : Ends setting s (next setting) ok failed) :
    Ends setting s (Eval.setting >>= next) ok failed := h

theorem change (h : Ends setting (f s) (next ()) ok failed) :
    Ends setting s (change f >>= next) ok failed := h

end Ends

theorem bind_of_ok {x : Eval β} {next : β → Eval α} (run : x setting s = (.ok b, s')) :
    (x >>= next) setting s = next b setting s' := by
  rw [bind_apply, run]

theorem mapFailure_snd (f : Failure → Failure) (x : Eval α) (setting : Setting) (s : Evaluation) :
    (mapFailure f x setting s).2 = (x setting s).2 := by
  unfold mapFailure
  rcases x setting s with ⟨e | a, s'⟩ <;> rfl

/-- The computation relates every state it starts from to the state it ends in, whether it fails
    or not. -/
def Keeps (setting : Setting) (R : Evaluation → Evaluation → Prop) (x : Eval α) : Prop :=
  ∀ s, R s (x setting s).2

namespace Keeps

variable {R : Evaluation → Evaluation → Prop}

theorem ends (setting : Setting) (h : Keeps setting R x) (s : Evaluation) :
    Ends setting s x (fun _ s' => R s s') (fun _ s' => R s s') := by
  rw [Ends.iff_cases]
  have related := h s
  exact ⟨fun a s' run => by rwa [run] at related, fun f s' run => by rwa [run] at related⟩

theorem of_ends (h : ∀ s, Ends setting s x (fun _ s' => R s s') (fun _ s' => R s s')) :
    Keeps setting R x := by
  intro s
  have ends := h s
  rcases run : x setting s with ⟨f | a, s'⟩
  · exact ends.failure run
  · exact ends.result run

theorem mapFailure (h : Keeps setting R x) (f : Failure → Failure) :
    Keeps setting R (mapFailure f x) :=
  fun s => mapFailure_snd f x setting s ▸ h s

theorem mapFailure_bind (h : Keeps setting R (x >>= next)) :
    Keeps setting R (Eval.mapFailure f x >>= next) := by
  intro s
  have related := h s
  rw [bind_apply] at related ⊢
  unfold Eval.mapFailure
  rcases run : x setting s with ⟨e | b, s'⟩ <;> rwa [run] at related

theorem locatedAt (h : Keeps setting R x) (span : Span) : Keeps setting R (locatedAt span x) :=
  h.mapFailure _

theorem insideOf (h : Keeps setting R x) (frame : Unit → String) :
    Keeps setting R (insideOf frame x) :=
  h.mapFailure _

theorem attempt (h : Keeps setting R x) : Keeps setting R (attempt x) :=
  fun s => h s

theorem between (h : Keeps setting R x) (around : ∀ s s', R (enter s) s' → R s (leave s')) :
    Keeps setting R (between enter leave x) :=
  fun s => around s _ (h (enter s))

theorem noteOpening (h : Keeps setting R x) (noted : ∀ s s' o, R s s' → R s (s'.note o))
    (node : Import) (path : String) : Keeps setting R (noteOpening node path x) :=
  fun s => noted _ _ _ (h s)

theorem change (h : ∀ s, R s (f s)) : Keeps setting R (change f) :=
  fun s => h s

theorem withState {next : Evaluation → Eval α}
    (h : ∀ s, R s (next s setting s).2) : Keeps setting R (state >>= next) :=
  fun s => h s

variable [IsPreorder Evaluation R]

theorem pure (a : α) : Keeps setting R (Pure.pure a : Eval α) :=
  fun s => refl_of R s

theorem fail (f : Failure) : Keeps setting R (fail f : Eval α) :=
  fun s => refl_of R s

theorem failWith (cause : Cause) : Keeps setting R (failWith cause : Eval α) :=
  fail _

theorem ofState : Keeps setting R state :=
  fun s => refl_of R s

theorem ofSetting : Keeps setting R Eval.setting :=
  fun s => refl_of R s

theorem bind_at {x : Eval β} {next : β → Eval α} (first : R s (x setting s).2)
    (then_ : ∀ b s', x setting s = (.ok b, s') → R s' (next b setting s').2) :
    R s ((x >>= next) setting s).2 := by
  rw [bind_apply]
  rcases run : x setting s with ⟨f | b, s'⟩
  · rwa [run] at first
  · rw [run] at first
    exact trans_of R first (then_ b s' run)

theorem bind {x : Eval β} {next : β → Eval α} (first : Keeps setting R x)
    (then_ : ∀ b, Keeps setting R (next b)) : Keeps setting R (x >>= next) :=
  fun s => bind_at (first s) fun b s' _ => then_ b s'

theorem mapList (h : ∀ b, Keeps setting R (f b)) (bs : List β) :
    Keeps setting R (mapList f bs) := by
  induction bs with
  | nil => exact pure []
  | cons b bs ih => exact bind (h b) fun _ => bind ih fun _ => pure _

end Keeps

/-- From the state `s`, the computation ends with a result as `ok` says, or it fails for a cause as `C`
    says. -/
def Within (C : Cause → Prop) (setting : Setting) (s : Evaluation) (x : Eval α)
    (ok : α → Evaluation → Prop) : Prop :=
  Ends setting s x ok fun f _ => C f.cause

namespace Within

variable {C : Cause → Prop} {ok : α → Evaluation → Prop}

theorem bind {x : Eval β} {next : β → Eval α} {mid : β → Evaluation → Prop}
    (first : Within C setting s x mid)
    (then_ : ∀ b s', mid b s' → Within C setting s' (next b) ok) :
    Within C setting s (x >>= next) ok :=
  Ends.seq first then_

theorem mapFailure (h : Within C setting s x ok) (same : ∀ f, (g f).cause = f.cause) :
    Within C setting s (Eval.mapFailure g x) ok :=
  Ends.mapFailure (Ends.mono h (fun _ _ h => h) fun f _ holds => (same f).symm ▸ holds)

theorem locatedAt (h : Within C setting s x ok) (span : Span) :
    Within C setting s (Eval.locatedAt span x) ok :=
  h.mapFailure fun _ => rfl

theorem insideOf (h : Within C setting s x ok) (frame : Unit → String) :
    Within C setting s (Eval.insideOf frame x) ok :=
  h.mapFailure fun _ => rfl

theorem between (h : Within C setting (enter s) x fun a s' => ok a (leave s')) :
    Within C setting s (Eval.between enter leave x) ok :=
  Ends.between h

/-- Whatever the computation does to the state, failing or not, it does when it has a result. -/
theorem keeping (h : Within C setting s x ok) (keeps : Keeps setting R x) :
    Within C setting s x fun a s' => ok a s' ∧ R s s' :=
  (Ends.and h (keeps.ends setting s)).mono (fun _ _ both => both) fun _ _ both => both.1

end Within

/-- If the computation ends with a result, then with one as `ok` says. -/
abbrev Yields (setting : Setting) (s : Evaluation) (x : Eval α) (ok : α → Evaluation → Prop) :
    Prop :=
  Ends setting s x ok fun _ _ => True

theorem Yields.any (x : Eval α) : Yields setting s x fun _ _ => True :=
  Ends.iff_cases.mpr ⟨fun _ _ _ => trivial, fun _ _ _ => trivial⟩

theorem Yields.bind {x : Eval β} {next : β → Eval α} {mid : β → Evaluation → Prop}
    {ok : α → Evaluation → Prop} (first : Yields setting s x mid)
    (then_ : ∀ b s', mid b s' → Yields setting s' (next b) ok) :
    Yields setting s (x >>= next) ok :=
  Ends.seq first then_

/-- Where nothing is said about failures, what a computation keeps may be added to how it ends. -/
theorem Ends.keeping (h : Yields setting s x ok) (keeps : Keeps setting R x) :
    Yields setting s x fun a t => ok a t ∧ R s t :=
  (h.and (keeps.ends setting s)).mono (fun _ _ both => both) fun _ _ both => both.1

end Eval

end StyleResolution
