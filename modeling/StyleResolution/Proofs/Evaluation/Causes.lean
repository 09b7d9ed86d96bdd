import StyleResolution.Proofs.Evaluation.Composition
import StyleResolution.Proofs.Normal.Values

/-! # Why computations fail

`FailsOnly P x` bounds the causes of the failures of a computation. A value that refers to no variable
has the same value in every scope, so it can be said without a scope (`Setting.settle`), and
evaluating it does not fail. So opening an import whose path has no variables never fails because a
variable is undefined; that is what tells a blocked import from a broken one.
-/

namespace StyleResolution

open Eval

/-- The result of a function on evaluated arguments, outside of guards. -/
def Setting.result (setting : Setting) (name : String) (args : List Value) : Value :=
  ((Value.typeTest name args).or (setting.functions name args)).getD (.call name args)

mutual

/-- What a value comes to in every scope, if it refers to no variable. -/
def Setting.settle (setting : Setting) : Value → Value
  | .url inner => .url (setting.settle inner)
  | .list separator items => .list separator (setting.settleAll items)
  | .paren inner => Eval.parenthesized (setting.settle inner)
  | .call name args => setting.result name (setting.settleAll args)
  | v => v

def Setting.settleAll (setting : Setting) : List Value → List Value
  | [] => []
  | v :: vs => setting.settle v :: setting.settleAll vs

end

namespace Eval

variable {α β : Type} {P : Cause → Prop}

def FailsOnly (P : Cause → Prop) (x : Eval α) : Prop :=
  ∀ setting s f s', x setting s = (.error f, s') → P f.cause

namespace FailsOnly

theorem ends (h : FailsOnly P x) (setting : Setting) (s : Evaluation) :
    Within P setting s x fun _ _ => True :=
  Ends.iff_cases.mpr ⟨fun _ _ _ => trivial, h setting s⟩

theorem of_ends (h : ∀ setting s, Within P setting s x fun _ _ => True) : FailsOnly P x :=
  fun setting s _ _ run => Ends.failure (h setting s) run

theorem pure (a : α) : FailsOnly P (Pure.pure a : Eval α) := by
  intro setting s f s' run
  simp at run

theorem failWith (h : P cause) : FailsOnly P (failWith cause : Eval α) := by
  rintro setting s f s' ⟨⟩
  exact h

theorem ofState : FailsOnly P state := by
  rintro setting s f s' ⟨⟩

theorem ofSetting : FailsOnly P setting := by
  rintro setting s f s' ⟨⟩

theorem change (f : Evaluation → Evaluation) : FailsOnly P (change f) := by
  rintro setting s f s' ⟨⟩

theorem emit (e : Event) : FailsOnly P (emit e) :=
  change _

theorem bind {x : Eval β} {next : β → Eval α} (first : FailsOnly P x)
    (then_ : ∀ b, FailsOnly P (next b)) : FailsOnly P (x >>= next) :=
  .of_ends fun setting s => (first.ends setting s).bind fun b s' _ => (then_ b).ends setting s'

theorem mapFailure (h : FailsOnly P x) (same : ∀ f, (g f).cause = f.cause) :
    FailsOnly P (mapFailure g x) :=
  .of_ends fun setting s => (h.ends setting s).mapFailure same

theorem locatedAt (h : FailsOnly P x) (span : Span) : FailsOnly P (locatedAt span x) :=
  h.mapFailure fun _ => rfl

theorem between (h : FailsOnly P x) : FailsOnly P (between enter leave x) :=
  .of_ends fun setting s => Ends.between (h.ends setting (enter s))

theorem noteOpening (h : FailsOnly P x) (node : Import) (path : String) :
    FailsOnly P (noteOpening node path x) :=
  .of_ends fun setting s => Ends.noteOpening (h.ends setting s)

theorem fail (h : P f.cause) : FailsOnly P (fail f : Eval α) := by
  rintro setting s g s' ⟨⟩
  exact h

theorem mono (h : FailsOnly P x) (weaker : ∀ cause, P cause → Q cause) : FailsOnly Q x :=
  fun setting s f s' run => weaker _ (h setting s f s' run)

theorem composes : Composes fun _ x _ => FailsOnly P x where
  pure := pure
  bind := bind
  ofState _ _ h := bind ofState h
  ofSetting _ _ h := bind ofSetting h

end FailsOnly

/-! ## Values without variables -/

theorem splitHole_of_not_opensHole (plain : Value.opensHole cs = false) :
    Template.splitHole cs = none := by
  fun_induction Value.opensHole cs with
  | case1 => cases plain
  | case2 c rest notHole ih =>
    unfold Template.splitHole
    split
    · exact absurd rfl (notHole _ rfl)
    · rw [ih plain]
  | case3 => rfl

theorem pieces_of_not_opensHole (plain : Value.opensHole cs = false) :
    Template.pieces cs = [.text cs] := by
  unfold Template.pieces
  split
  · rfl
  · rename_i found
    rw [splitHole_of_not_opensHole plain] at found
    cases found

theorem applyFunction_failsOnly (name : String) (args : List Value) :
    FailsOnly P (applyFunction name args) :=
  .of_ends fun _ s => (applyFunction_ends name args s).mono (fun _ _ _ => trivial) fun _ _ =>
    False.elim

/-- The computation has a result, and outside of guards it is `a`. -/
structure ComesTo (setting : Setting) (x : Eval α) (a : α) : Prop where
  ends : ∀ s, Ends setting s x
    (fun b t => (s.defaultAnswer = none → b = a) ∧ t.defaultAnswer = s.defaultAnswer) fun _ _ => False

namespace ComesTo

variable {setting : Setting}

theorem pure (a : α) : ComesTo setting (Pure.pure a) a where
  ends _ := Ends.pure ⟨fun _ => rfl, rfl⟩

theorem bind {x : Eval β} {b : β} {next : β → Eval α} {f : β → α} (first : ComesTo setting x b)
    (then_ : ∀ b, ComesTo setting (next b) (f b)) : ComesTo setting (x >>= next) (f b) where
  ends s := by
    refine .seq (first.ends s) ?_
    rintro c t ⟨same, answer⟩
    refine ((then_ c).ends t).imp ?_
    rintro a u ⟨later, answer'⟩
    exact ⟨fun idle => same idle ▸ later (answer.trans idle), answer'.trans answer⟩

end ComesTo

mutual

/-- A value that needs no evaluation is the same in every scope, whatever its variables mean. -/
theorem valueWith_settles {setting : Setting} (fetch : String → Eval Value) (v : Value)
    (resolved : v.isUnresolved = false) : ComesTo setting (valueWith fetch v) (setting.settle v) := by
  cases v with
  | keyword | dimension | color => exact .pure _
  | quoted t quote =>
    simp only [Value.isUnresolved] at resolved
    simp only [valueWith, pieces_of_not_opensHole resolved, fillHoles, pure_bind]
    simpa [Setting.settle] using ComesTo.pure (Value.quoted t quote)
  | url inner =>
    simp only [Value.isUnresolved] at resolved
    exact (valueWith_settles fetch inner resolved).bind fun _ => .pure _
  | «variable» | indirect | operation => simp [Value.isUnresolved] at resolved
  | list separator items =>
    simp only [Value.isUnresolved] at resolved
    exact (valuesWith_settles fetch items resolved).bind fun _ => .pure _
  | paren inner =>
    simp only [Value.isUnresolved] at resolved
    have inside : ComesTo setting (inParens (valueWith fetch inner)) _ :=
      ⟨fun _ => .between ((valueWith_settles fetch inner resolved).ends _)⟩
    exact inside.bind fun _ => .pure _
  | call name args =>
    simp only [Value.isUnresolved] at resolved
    refine (valuesWith_settles fetch args resolved).bind fun results => ⟨fun s => ?_⟩
    refine (applyFunction_ends name results s).imp ?_
    rintro w t ⟨⟨_, answered, -⟩ | same, -, answer⟩
    · refine ⟨fun idle => ?_, answer⟩
      cases idle.symm.trans answered
    · exact ⟨fun _ => same, answer⟩

theorem valuesWith_settles {setting : Setting} (fetch : String → Eval Value) (vs : List Value)
    (resolved : Value.anyUnresolved vs = false) :
    ComesTo setting (valuesWith fetch vs) (setting.settleAll vs) := by
  cases vs with
  | nil => exact .pure _
  | cons v vs =>
    simp only [Value.anyUnresolved, Bool.or_eq_false_iff] at resolved
    exact (valueWith_settles fetch v resolved.1).bind fun _ =>
      (valuesWith_settles fetch vs resolved.2).bind fun _ => .pure _

end

theorem valueWith_resolved (fetch : String → Eval Value) (v : Value)
    (resolved : v.isUnresolved = false) : FailsOnly (fun _ => False) (valueWith fetch v) :=
  .of_ends fun _ s => ((valueWith_settles fetch v resolved).ends s).imp fun _ _ _ => trivial

/-! ## Opening imports -/

theorem loadFile_failsOnly (path : CanonicalPath) : FailsOnly OfOpening (loadFile path) :=
  FailsOnly.composes.loadFile .emit (fun _ => .fail) path (.change _) fun _ => .change _

theorem openFile_failsOnly (i : Import) (path : CanonicalPath) :
    FailsOnly OfOpening (openFile i path) := by
  unfold openFile
  refine .bind .ofSetting fun _ => .bind .ofState fun _ => ?_
  split
  · exact .bind (.emit _) fun _ => .pure _
  · exact .bind (.change _) fun _ =>
      .bind (loadFile_failsOnly path) fun _ => .pure _

/-- A reference without a canonical path is missing or cannot be read. -/
theorem resolveReference_ends (reference : String) (dir : Option Path) (setting : Setting)
    (s : Evaluation) : Ends setting s (resolveReference reference dir)
      (fun answer _ => ∀ cause, answer = .error cause → OfOpening cause) (fun _ _ => False) := by
  unfold resolveReference
  refine .ofState ?_
  split
  · exact .pure nofun
  · refine .ofSetting (.ofSetting ?_)
    dsimp only
    split
    · refine .pure ?_
      rintro cause ⟨⟩
      trivial
    · split
      · refine .pure ?_
        rintro cause ⟨⟩
        trivial
      · exact .change (.pure nofun)

theorem openImport_failsOnly (i : Import) (path : String) :
    FailsOnly OfOpening (openImport i path) := by
  unfold openImport
  split
  · exact .pure _
  · refine .bind .ofSetting fun _ => .bind .ofState fun _ => ?_
    split
    · exact .failWith trivial
    · refine .bind .ofState fun _ => .of_ends fun setting s =>
        Ends.bind (resolveReference_ends _ _ setting s) (fun answer s' causes => ?_) nofun
      split
      · exact (openFile_failsOnly i _).ends setting s'
      · split
        · trivial
        · exact .failWith trivial
      · exact .failWith (causes _ rfl)

theorem importPath_resolved (env : Environment) (resolved : i.isInterpolated = false) :
    FailsOnly (fun _ => False) (importPath env i) := by
  refine .bind (.change _) fun _ =>
    .bind ((valueWith_resolved _ _ resolved).locatedAt _) fun path => ?_
  split <;> exact .pure _

end Eval

end StyleResolution
