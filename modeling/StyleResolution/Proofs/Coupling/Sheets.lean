import StyleResolution.Proofs.Coupling.Blocks
import StyleResolution.Proofs.Coupling.Replay

/-! # Sheets that compile alike

Sheets that belong together are opened alike and then evaluated alike. Up to here a compilation that
runs out of steps was excused. None does, so either both sheets have the same output or neither has
one.
-/

namespace StyleResolution

open Compiler

def Compiler.output? (setting : Setting) (sheet : Stylesheet) : Option Stylesheet :=
  (compile setting sheet).outcome.toOption.map (·.sheet)

def KeepsNumbers (s s' : Evaluation) : Prop :=
  Numbered s.importer.files s.importer.cache → Numbered s'.importer.files s'.importer.cache

instance : IsPreorder Evaluation KeepsNumbers where
  refl _ := id
  trans _ _ _ first second := second ∘ first

theorem Compiler.resolveSheet_numbered (setting : Setting) (sheet : Stylesheet) :
    let final := (resolveSheet sheet setting {}).2
    Numbered final.importer.files final.importer.cache := by
  have opened : Eval.Keeps setting KeepsNumbers (openSheet sheet) :=
    Eval.Keeps.bind (fun s => (Eval.registerSheet_loads sheet s).numbered) fun _ =>
      Eval.Keeps.bind (fun s => (Eval.addFrame_local _ s).numbered) fun root =>
        Eval.Keeps.bind Eval.Keeps.ofSetting fun _ =>
          Eval.Keeps.bind (fun s => (Eval.expandImports_splices root _ true s).numbered) fun _ =>
            Eval.Keeps.bind (fun s => (Eval.replayDeferred_splices root _ s).numbered) fun _ =>
              Eval.Keeps.pure _
  have resolved : Eval.Keeps setting KeepsNumbers (resolveSheet sheet) :=
    Eval.Keeps.bind opened fun env => Eval.Keeps.bind Eval.Keeps.ofSetting fun _ =>
      Eval.Keeps.bind Eval.Keeps.ofSetting fun _ =>
        Eval.Keeps.bind (fun s => (Eval.blockWithin_local _ env _ s).numbered) fun _ =>
          Eval.Keeps.pure _
  exact resolved {} ⟨Nat.one_pos, nofun, .nil⟩

namespace Coupling

open Eval

variable {K : Coupling} {setting : Setting} {sheet sheet' : Stylesheet}

def Orderly (K : Coupling) (setting : Setting) (sheet : Stylesheet) : Prop :=
  ∀ m ∈ (Tracked.openSheet sheet setting {} {}).moments, K.Sane m

theorem Exact.orderly (exact_ : K.Exact) (setting : Setting) (sheet : Stylesheet) :
    K.Orderly setting sheet :=
  fun _ _ => .inl exact_

theorem Orderly.of_fits (fits : ∀ m ∈ (Tracked.openSheet sheet setting {} {}).moments,
    m.rules.length ≤ DeferredImport.maxLocation) : K.Orderly setting sheet := by
  have ends : Tracked.Ends setting {} {} (Tracked.openSheet sheet) _ _ :=
    Tracked.openSheet_ends sheet rfl
  exact fun m member => .inr ⟨(ends fits).1 m member, fits m member⟩

section Sheets

variable (lawful : K.Lawful setting) (path : sheet'.path = sheet.path)
  (aligned : Aligned Placed.rule K.cut K.twin (Placed.ofBlock (.written 0 []) sheet.rules)
    (Placed.ofBlock (.written 0 []) sheet'.rules))
  (orderly : K.Orderly setting sheet) (orderlyToo : K.Orderly setting sheet')
include lawful path aligned orderly orderlyToo

theorem resolveSheet_tied :
    Tied (K.proviso False False) setting {} {} (resolveSheet sheet)
      (resolveSheet sheet') fun rules _ rules' _ => rules = rules' := by
  have opened : Tied (K.proviso False False) setting {} {} (openSheet sheet)
      (openSheet sheet') fun env s env' t => ∃ W, EnvLink W env env' ∧ K.Sim W s t := by
    have tied : Tracked.Tied K.Sane (K.proviso False False) setting {} {} {} {} _ _ _ :=
      openSheet_tied lawful path aligned id
    exact tied.erase (.openSheet sheet) (.openSheet sheet') orderly orderlyToo
  refine .bind opened ?_ fun _ => Growing.since inferInstance
  rintro env s env' t ⟨W, envs, sim⟩
  refine .ofSetting (.ofSetting ?_)
  refine .bind (blockWithin_evaluates lawful _ _ {} envs sim) ?_
    fun _ => Growing.since inferInstance
  rintro output s' _ t' ⟨W', -, rfl, -⟩
  exact .pure rfl

/-- Sheets that belong together compile to the same, or neither of them compiles. -/
theorem output_eq (final : K.final = (resolveSheet sheet setting {}).2) :
    output? setting sheet = output? setting sheet' := by
  have settled := (resolveSheet_tied lawful path aligned orderly orderlyToo).settle
    resolveSheet_finishes resolveSheet_finishes
  have related := settled (by rw [← final]; exact refl_of Grows K.final)
  unfold output? compile compileFrom Eval.run
  rcases run : resolveSheet sheet setting {} with ⟨f | rules, s⟩ <;>
    rcases run' : resolveSheet sheet' setting {} with ⟨g | rules', t⟩ <;>
    rw [run, run'] at related
  · simp [reportOn, Except.toOption]
  · exact absurd trivial related.1
  · exact absurd trivial related.1
  · obtain rfl : rules = rules' := related
    simp [reportOn, Except.toOption, path]

end Sheets

end Coupling

end StyleResolution
