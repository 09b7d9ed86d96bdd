import StyleResolution.Proofs.Evaluation.Locality
import StyleResolution.Proofs.Regime.Resolution
import StyleResolution.Proofs.Scope.Sanity

/-! # Finding and matching callables

Where the names of the frames are those of their rules, the callables that a call means are found
and matched without running out of any bound, and so are the definitions that an expansion exports.
In a sane state all of these are known, and the state stays sane.
-/

namespace StyleResolution

def Callable.Known (blocks : List (Site × List Rule)) (c : Callable) : Prop :=
  (c.site, c.rules) ∈ blocks

variable {setting : Setting} {sheet : Stylesheet} {s : Evaluation}

theorem Callable.Known.mono {c : Callable} (known : c.Known (knownBlocks sheet cache))
    (suffix : cache <:+ more) : c.Known (knownBlocks sheet more) :=
  knownBlocks_mono suffix known

theorem Callable.known_of_offers (offers : (Regime.sane setting sheet).Offers i c) :
    c.Known (knownBlocks sheet i.cache) := by
  obtain ⟨⟨rule, site⟩, known, isCallable⟩ := offers
  unfold Placed.asCallable at isCallable
  cases rule with
  | mixin head rules =>
    cases isCallable
    exact known rules rfl
  | ruleset selectors rules span =>
    dsimp only at isCallable
    split at isCallable <;> cases isCallable
    exact known rules rfl
  | _ => cases isCallable

namespace Eval

variable {α : Type}

/-- Where names are those of rules, the computation finishes, and they still are. -/
def Freshly (setting : Setting) (x : Eval α) : Prop :=
  ∀ s, s.frames.Fresh → Finishes setting s x fun _ s' => s'.frames.Fresh

namespace Freshly

theorem of_quiet (h : ∀ {s}, s.frames.Fresh → Finishes setting s x fun _ _ => True)
    (quiet : Keeps setting Quiet x) : Freshly setting x :=
  fun _ fresh => (h fresh).steadily fresh_steady quiet fresh

theorem conditions : Composes.Conditions fun _ x _ => Freshly setting x where
  pure _ _ fresh := .pure fresh
  bind first then_ s fresh := .bind (first s fresh) then_
  ofState _ _ h s fresh := .ofState (h s s fresh)
  ofSetting _ _ h s fresh := .ofSetting (h setting s fresh)
  emit e := of_quiet (fun _ => trivial) (emit_quiet e)
  warn message := of_quiet (fun _ => warn_finishes message) (warn_quiet message)
  inParens h _ fresh := .between (h _ fresh)
  value := value_freshly

theorem calls : Composes.Calls fun _ x _ => Freshly setting x where
  toComposes := conditions.toComposes
  consult id := of_quiet (fun _ => (consult_finishes id).imp fun _ _ _ => trivial)
    (consult_quiet id)
  addBlock _ _ _ _ fresh := Frames.forall_get_add fresh (Frame.Fresh.ofPlaced _ _)
  emit := conditions.emit
  mismatch _ _ _ _ := .failWith nofun
  missing _ _ _ := .failWith nofun
  makeSite _ fresh := fresh
  dereference env v := of_quiet (dereference_finishes env v) (dereference_quiet env v)
  evaluateArguments := conditions.evaluateArguments
  parameterFrame := conditions.parameterFrame conditions.value
    (fun _ fresh => Frames.forall_get_add fresh (Frame.Fresh.ofPlaced [] 0)) fun _ _ _ _ _ fresh =>
      Frames.forall_get_modify fresh (Frame.Fresh.spliceAt ..)
  defaultGroup := conditions.defaultGroup fun _ h _ fresh => .ofState (.between (h _ fresh))

theorem exportTo (caller : Option FrameId) (bodyEnv : Environment) (params body : FrameId) :
    Freshly setting (Eval.exportTo caller bodyEnv params body) :=
  calls.exportTo (fun id _ _ _ _ fresh =>
    Frames.forall_get_modify fresh ((fresh id).prependExports ..)) caller bodyEnv params body

theorem sanely (h : Freshly setting x) (sane : Sane setting sheet s)
    (upholds : (Regime.sane setting sheet).Upholds m s x post) :
    Finishes setting s x fun a s' => Sane setting sheet s' ∧ post a s' :=
  (Ends.and upholds (h s sane.fresh)).mono (fun _ _ both => ⟨both.1.1, both.1.2.2⟩)
    fun _ _ both => both.2

theorem sanely_of_sound (h : Freshly setting x) (sound : (Regime.sane setting sheet).Sound m x)
    (sane : Sane setting sheet s) : Finishes setting s x fun _ s' => Sane setting sheet s' :=
  (h.sanely sane (sound sane)).imp fun _ _ both => both.1

end Freshly

theorem value_sanely (env : Environment) (v : Value) (sane : Sane setting sheet s) :
    Finishes setting s (value env v) fun _ s' => Sane setting sheet s' :=
  (Freshly.conditions.value env v).sanely_of_sound (values_upholds.value env v) sane

theorem emit_sanely (e : Event) (sane : Sane setting sheet s) :
    Finishes setting s (emit e) fun _ s' => Sane setting sheet s' :=
  (Freshly.conditions.emit e).sanely_of_sound (terms_upholds.emit e) sane

end Eval

end StyleResolution
