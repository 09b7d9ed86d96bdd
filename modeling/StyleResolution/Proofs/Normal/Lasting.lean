import StyleResolution.Proofs.Evaluation.Quiet
import StyleResolution.Proofs.Normal.Values

/-! # Values that last

A definition made during evaluation holds a value that was evaluated already, and it is evaluated
again wherever the definition is referred to. A value lasts if this changes nothing, whatever is in
scope: its strings hold no closed holes, and operations in it are kept for the same reason as before.
Under strict math an operation is kept outside parentheses. It does not last inside them, where it
comes to stand when parentheses are put around a variable.
-/

namespace StyleResolution

namespace Value

mutual

/-- Whether no string in the value holds a closed hole. -/
def isFilled : Value → Bool
  | .quoted t _ => (Template.splitHole t.toList).isNone
  | .url inner | .paren inner => inner.isFilled
  | .list _ items => allFilled items
  | .operation _ lhs rhs => lhs.isFilled && rhs.isFilled
  | .call _ args => allFilled args
  | .keyword _ | .dimension _ | .color _ | .variable _ | .indirect _ => true

/-- Whether no string in the values holds a closed hole. -/
def allFilled : List Value → Bool
  | [] => true
  | v :: vs => v.isFilled && allFilled vs

end

mutual

/-- Whether an operation stands in parentheses, where `inside` says whether the value itself does. -/
def calculates : Bool → Value → Bool
  | inside, .operation _ lhs rhs => inside || lhs.calculates inside || rhs.calculates inside
  | _, .paren inner => inner.calculates true
  | inside, .url inner => inner.calculates inside
  | inside, .list _ items => anyCalculates inside items
  | inside, .call _ args => anyCalculates inside args
  | _, .keyword _ | _, .dimension _ | _, .color _ | _, .quoted _ _ | _, .variable _
  | _, .indirect _ => false

/-- Whether an operation in one of the values stands in parentheses. -/
def anyCalculates : Bool → List Value → Bool
  | _, [] => false
  | inside, v :: vs => v.calculates inside || anyCalculates inside vs

end

theorem allFilled_iff : allFilled vs = true ↔ ∀ v ∈ vs, v.isFilled = true := by
  induction vs with
  | nil => simp [allFilled]
  | cons v vs ih => simp [allFilled, ih]

theorem anyCalculates_eq_false :
    anyCalculates inside vs = false ↔ ∀ v ∈ vs, v.calculates inside = false := by
  induction vs with
  | nil => simp [anyCalculates]
  | cons v vs ih => simp [anyCalculates, ih]

theorem anyCallsDefault_eq_false :
    anyCallsDefault vs = false ↔ ∀ v ∈ vs, v.callsDefault = false := by
  induction vs with
  | nil => simp [anyCallsDefault]
  | cons v vs ih => simp [anyCallsDefault, ih]

/-- Evaluation leaves the value as it is, where `inside` says whether it stands in parentheses. -/
inductive Lasting (setting : Setting) : Bool → Value → Prop where
  | keyword {inside : Bool} (t : String) : Lasting setting inside (.keyword t)
  | dimension {inside : Bool} (d : Dimension) : Lasting setting inside (.dimension d)
  | color {inside : Bool} (t : String) : Lasting setting inside (.color t)
  | quoted {inside : Bool} {t : String} (quote : Option Char) :
      Template.splitHole t.toList = none → Lasting setting inside (.quoted t quote)
  | url {inside : Bool} {inner : Value} :
      Lasting setting inside inner → Lasting setting inside (.url inner)
  | list {inside : Bool} {separator : Separator} {items : List Value} :
      (∀ v ∈ items, Lasting setting inside v) → Lasting setting inside (.list separator items)
  | operation {inside : Bool} {op : Operator} {lhs rhs : Value} :
      Lasting setting inside lhs → Lasting setting inside rhs →
      inside = false ∧ KeptOutside setting op lhs ∨
        Stuck setting.options.warningsAsErrors op lhs rhs →
      Lasting setting inside (.operation op lhs rhs)
  | paren {inside : Bool} {inner : Value} :
      Lasting setting true inner → inner.isLiteral = false → Lasting setting inside (.paren inner)
  | call {inside : Bool} {name : String} {args : List Value} :
      (∀ v ∈ args, Lasting setting inside v) → called setting name args = .call name args →
      Lasting setting inside (.call name args)

theorem Lasting.anywhere {v : Value} (lasting : v.Lasting setting true) (inside : Bool) :
    v.Lasting setting inside := by
  generalize isInside : true = within at lasting
  induction lasting with
  | keyword t => exact .keyword t
  | dimension d => exact .dimension d
  | color t => exact .color t
  | quoted quote unsplit => exact .quoted quote unsplit
  | url _ ih => exact .url (ih isInside)
  | list _ ih => exact .list fun v member => ih v member isInside
  | operation _ _ kept left right =>
    refine .operation (left isInside) (right isInside) (kept.imp_left fun outside => ?_)
    cases isInside.trans outside.1
  | paren inner other => exact .paren inner other
  | call _ same ih => exact .call (fun v member => ih v member isInside) same

theorem parenthesized_of_not_literal (other : v.isLiteral = false) :
    Eval.parenthesized v = .paren v := by
  cases v <;> first | rfl | cases other

theorem eq_of_parenthesized {inner : Value} (same : Eval.parenthesized v = .paren inner) :
    v = inner ∧ inner.isLiteral = false := by
  cases v with
  | dimension | color => cases same
  | _ =>
    cases same
    exact ⟨rfl, rfl⟩

end Value

def Setting.LibraryLasts (setting : Setting) : Prop :=
  ∀ name args result, setting.functions name args = some result → result.Lasting setting true

theorem Template.pieces_of_splitHole (unsplit : splitHole cs = none) : pieces cs = [.text cs] := by
  unfold pieces
  split
  · rfl
  · rename_i found
    cases unsplit.symm.trans found

namespace Eval

variable {setting : Setting} {fetch : String → Eval Value} {s t : Evaluation} {inside : Bool}

/-! ## Lasting values evaluate to themselves -/

/-- The value asks for no answer of `default()`, or none is given. -/
def Undecided (s : Evaluation) (v : Value) : Prop :=
  s.defaultAnswer = none ∨ v.callsDefault = false

/-- The computation has the result `a` and leaves parentheses and answers as they are. -/
def GivesBack {α : Type} (setting : Setting) (s : Evaluation) (x : Eval α) (a : α) : Prop :=
  Ends setting s x
    (fun b t => b = a ∧ t.parenDepth = s.parenDepth ∧ t.defaultAnswer = s.defaultAnswer)
    fun _ _ => False

namespace GivesBack

variable {α β : Type}

theorem pure (a : α) : GivesBack setting s (Pure.pure a) a :=
  Ends.pure ⟨rfl, rfl, rfl⟩

theorem bind {x : Eval α} {a : α} {next : α → Eval β} {b : β} (first : GivesBack setting s x a)
    (then_ : ∀ t, t.parenDepth = s.parenDepth → t.defaultAnswer = s.defaultAnswer →
      GivesBack setting t (next a) b) : GivesBack setting s (x >>= next) b := by
  refine Ends.seq first ?_
  rintro _ t ⟨rfl, parens, answer⟩
  refine (then_ t parens answer).imp ?_
  rintro _ u ⟨rfl, parens', answer'⟩
  exact ⟨rfl, parens'.trans parens, answer'.trans answer⟩

end GivesBack

theorem warn_givesBack (collecting : setting.options.warningsAsErrors = false) (message : String) :
    GivesBack setting s (warn message) () := by
  refine .ofState (.ofSetting ?_)
  rw [if_neg (by simp [collecting])]
  exact ⟨rfl, rfl, rfl⟩

theorem applyOperator_givesBack
    (kept : s.parenDepth = 0 ∧ Value.KeptOutside setting op lhs ∨
      Value.Stuck setting.options.warningsAsErrors op lhs rhs) :
    GivesBack setting s (applyOperator op lhs rhs) (.operation op lhs rhs) := by
  refine .ofSetting (.ofState ?_)
  split
  · exact .pure ⟨rfl, rfl, rfl⟩
  · rename_i computes
    have stuck : Value.Stuck setting.options.warningsAsErrors op lhs rhs := by
      refine kept.resolve_left fun outside => computes ?_
      simp [outside.1, outside.2.1, outside.2.2]
    dsimp only
    split
    · rename_i message warned
      have collecting : setting.options.warningsAsErrors = false := by
        cases strict : setting.options.warningsAsErrors with
        | false => rfl
        | true => cases (stuck.2 strict).symm.trans warned
      exact (warn_givesBack collecting message).bind fun _ _ _ => stuck.1 ▸ .pure _
    · exact .pure ⟨stuck.1, rfl, rfl⟩

theorem applyFunction_givesBack (undecided : Undecided s (.call name args))
    (same : Value.called setting name args = .call name args) :
    GivesBack setting s (applyFunction name args) (.call name args) := by
  refine (applyFunction_ends name args s).imp ?_
  rintro w t ⟨⟨answer, answered, asked, -⟩ | rfl, kept⟩
  · cases undecided with
    | inl idle => cases idle.symm.trans answered
    | inr other =>
      simp only [Bool.and_eq_true] at asked
      simp only [Value.callsDefault, asked.1, Bool.true_or, Bool.true_eq_false] at other
  · exact ⟨same, kept⟩

theorem valuesWith_givesBack (undecided : ∀ v ∈ vs, Undecided s v)
    (each : ∀ v ∈ vs, ∀ t, t.parenDepth = s.parenDepth → Undecided t v →
      GivesBack setting t (valueWith fetch v) v) :
    GivesBack setting s (valuesWith fetch vs) vs := by
  induction vs generalizing s with
  | nil => exact .pure _
  | cons v vs ih =>
    simp only [List.forall_mem_cons] at each undecided
    refine (each.1 s rfl undecided.1).bind fun t parens answer => ?_
    refine GivesBack.bind (ih ?_ ?_) fun _ _ _ => .pure _
    · exact fun w member => (undecided.2 w member).imp_left answer.trans
    · exact fun w member u same => each.2 w member u (same.trans parens)

theorem valueWith_givesBack (lasting : v.Lasting setting inside)
    (outside : inside = false → s.parenDepth = 0) (undecided : Undecided s v) :
    GivesBack setting s (valueWith fetch v) v := by
  induction lasting generalizing s with
  | keyword | dimension | color => exact .pure _
  | quoted quote unsplit =>
    simp only [valueWith, Template.pieces_of_splitHole unsplit, fillHoles, pure_bind,
      String.append_empty, String.ofList_toList]
    exact .pure _
  | url _ ih => exact (ih outside undecided).bind fun _ _ _ => .pure _
  | list _ ih =>
    refine GivesBack.bind (valuesWith_givesBack ?_ ?_) fun _ _ _ => .pure _
    · exact fun v member => undecided.imp_right fun none =>
        Value.anyCallsDefault_eq_false.mp none v member
    · exact fun v member t parens => ih v member fun isOutside => parens.trans (outside isOutside)
  | operation _ _ kept left right =>
    have parts := undecided.imp_right Bool.or_eq_false_iff.mp
    refine (left outside (parts.imp_right And.left)).bind fun t parens answer => ?_
    refine (right (fun isOutside => parens.trans (outside isOutside))
      ((parts.imp_right And.right).imp_left answer.trans)).bind fun u parens' _ => ?_
    exact applyOperator_givesBack (kept.imp_left fun isOutside =>
      ⟨(parens'.trans parens).trans (outside isOutside.1), isOutside.2⟩)
  | @paren inside inner _ other ih =>
    have entered : GivesBack setting s (inParens (valueWith fetch inner)) inner := by
      refine .between ((ih (s := { s with parenDepth := s.parenDepth + 1 })
        (fun isOutside => Bool.noConfusion isOutside) undecided).imp ?_)
      rintro _ t ⟨rfl, parens, answer⟩
      exact ⟨rfl, by simp only [parens]; omega, answer⟩
    exact entered.bind fun _ _ _ => Value.parenthesized_of_not_literal other ▸ .pure _
  | @call inside name args _ same ih =>
    refine GivesBack.bind (valuesWith_givesBack ?_ ?_) fun t _ answer => ?_
    · exact fun v member => undecided.imp_right fun none =>
        Value.anyCallsDefault_eq_false.mp (Bool.or_eq_false_iff.mp none).2 v member
    · exact fun v member t parens => ih v member fun isOutside => parens.trans (outside isOutside)
    · exact applyFunction_givesBack (undecided.imp_left answer.trans) same

/-! ## What evaluates to itself lasts -/

/-- No variable is known. -/
structure NoneKnown (setting : Setting) (fetch : String → Eval Value) : Prop where
  quiet : ∀ name, Keeps setting Quiet (fetch name)
  unknown : ∀ name s, ∃ f t, fetch name setting s = (.error f, t)

theorem NoneKnown.ends (known : NoneKnown setting fetch) (name : String) (s : Evaluation)
    (ok : Value → Evaluation → Prop) : Ends setting s (fetch name) ok fun _ _ => True := by
  obtain ⟨f, u, failed⟩ := known.unknown name s
  refine Ends.iff_cases.mpr ⟨fun v u' run => ?_, fun _ _ _ => trivial⟩
  cases failed.symm.trans run

theorem fillHoles_ends (known : NoneKnown setting fetch) (cs : List Char) (s : Evaluation) :
    Ends setting s (fillHoles fetch (Template.pieces cs))
      (fun _ _ => Template.splitHole cs = none) fun _ _ => True := by
  unfold Template.pieces
  split
  · rename_i unsplit
    exact .pure unsplit
  · rename_i before name after _
    have fails : Ends setting s (fillHoles fetch (.hole name :: Template.pieces after))
        (fun _ _ => False) fun _ _ => True :=
      .seq (known.ends _ s fun _ _ => False) (fun _ _ never => never.elim)
    exact .seq fails (fun _ _ never => never.elim)

/-- The result is the value itself only if it lasts. -/
abbrev OnlyIfLasting (setting : Setting) (s : Evaluation) (x : Eval Value) (v : Value) : Prop :=
  Ends setting s x (fun w _ => w = v → v.Lasting setting (s.parenDepth != 0)) fun _ _ => True

mutual

theorem valueWith_lasting (library : setting.LibraryLasts) (known : NoneKnown setting fetch)
    (v : Value) (s : Evaluation) (idle : s.defaultAnswer = none) :
    OnlyIfLasting setting s (valueWith fetch v) v := by
  cases v with
  | keyword t => exact .pure fun _ => .keyword t
  | dimension d => exact .pure fun _ => .dimension d
  | color t => exact .pure fun _ => .color t
  | quoted t quote =>
    refine .seq (fillHoles_ends known t.toList s) (fun _ _ unsplit => ?_)
    exact .pure fun _ => .quoted quote unsplit
  | url inner =>
    refine .seq (valueWith_lasting library known inner s idle) (fun w _ lasts => ?_)
    exact .pure fun same => .url (lasts (Value.url.inj same))
  | «variable» name => exact known.ends name s _
  | indirect name =>
    exact .seq (known.ends name s fun _ _ => False) (fun _ _ never => never.elim)
  | list separator items =>
    refine .seq (valuesWith_lasting library known items s idle) (fun ws _ last => ?_)
    exact .pure fun same => .list (last (Value.list.inj same).2)
  | operation op lhs rhs =>
    refine .seq ((valueWith_lasting library known lhs s idle).keeping
      (values_quiet.spine.valueWith_self known.quiet lhs)) ?_
    rintro l t ⟨left, quietly⟩
    have idle' : t.defaultAnswer = none := quietly.defaultAnswer.trans idle
    refine .seq ((valueWith_lasting library known rhs t idle').keeping
      (values_quiet.spine.valueWith_self known.quiet rhs)) ?_
    rintro r u ⟨right, quietly'⟩
    have parens : u.parenDepth = s.parenDepth := quietly'.parenDepth.trans quietly.parenDepth
    refine (applyOperator_ends op l r u).mono (fun w _ outcome same => ?_) fun _ _ _ => trivial
    subst same
    rcases outcome with literal | ⟨same, kept⟩
    · cases literal
    · obtain ⟨-, rfl, rfl⟩ := Value.operation.inj same
      rw [quietly.parenDepth] at right
      refine .operation (left rfl) (right rfl) (kept.imp_left fun outside => ⟨?_, outside.2⟩)
      rw [← parens, outside.1]
      rfl
  | paren inner =>
    have entered : Ends setting s (inParens (valueWith fetch inner))
        (fun w _ => w = inner → inner.Lasting setting true) fun _ _ => True :=
      .between (valueWith_lasting library known inner { s with parenDepth := s.parenDepth + 1 } idle)
    refine .seq entered (fun w _ lasts => .pure fun same => ?_)
    obtain ⟨rfl, other⟩ := Value.eq_of_parenthesized same
    exact .paren (lasts rfl) other
  | call name args =>
    refine .seq ((valuesWith_lasting library known args s idle).keeping
      (values_quiet.spine.valuesWith_self known.quiet args)) ?_
    rintro results t ⟨last, quietly⟩
    refine (applyFunction_ends name results t).mono (fun w _ outcome same => ?_) fun _ _ => False.elim
    have calls : Value.called setting name results = .call name args := by
      refine (outcome.1.resolve_left ?_).symm.trans same
      rintro ⟨answer, answered, -⟩
      cases (quietly.defaultAnswer.trans idle).symm.trans answered
    rcases Value.called_eq_call calls with given | rfl
    · exact (library _ _ _ given).anywhere _
    · exact .call (last rfl) calls

theorem valuesWith_lasting (library : setting.LibraryLasts) (known : NoneKnown setting fetch)
    (vs : List Value) (s : Evaluation) (idle : s.defaultAnswer = none) :
    Ends setting s (valuesWith fetch vs)
      (fun ws _ => ws = vs → ∀ v ∈ vs, v.Lasting setting (s.parenDepth != 0)) fun _ _ => True := by
  cases vs with
  | nil => exact .pure fun _ => nofun
  | cons v vs =>
    refine .seq ((valueWith_lasting library known v s idle).keeping
      (values_quiet.spine.valueWith_self known.quiet v)) ?_
    rintro w t ⟨lasts, quietly⟩
    refine .seq (valuesWith_lasting library known vs t (quietly.defaultAnswer.trans idle))
      (fun ws _ last => .pure fun same => ?_)
    obtain ⟨rfl, rfl⟩ := List.cons.inj same
    rw [quietly.parenDepth] at last
    exact List.forall_mem_cons.mpr ⟨lasts rfl, last rfl⟩

end

end Eval

/-! ## Results of evaluation -/

namespace Value

variable {setting : Setting} {v w : Value} {inside : Bool}

/-- What evaluation gives. The operations in it were kept outside parentheses or are stuck. -/
inductive Evaluated (setting : Setting) : Value → Prop where
  | keyword (t : String) : Evaluated setting (.keyword t)
  | dimension (d : Dimension) : Evaluated setting (.dimension d)
  | color (t : String) : Evaluated setting (.color t)
  | quoted (t : String) (quote : Option Char) : Evaluated setting (.quoted t quote)
  | url {inner : Value} : Evaluated setting inner → Evaluated setting (.url inner)
  | list {separator : Separator} {items : List Value} :
      (∀ v ∈ items, Evaluated setting v) → Evaluated setting (.list separator items)
  | operation {op : Operator} {lhs rhs : Value} : Evaluated setting lhs → Evaluated setting rhs →
      KeptOutside setting op lhs ∨ Stuck setting.options.warningsAsErrors op lhs rhs →
      Evaluated setting (.operation op lhs rhs)
  | paren {inner : Value} : Evaluated setting inner → inner.isLiteral = false →
      Evaluated setting (.paren inner)
  | call {name : String} {args : List Value} : (∀ v ∈ args, Evaluated setting v) →
      called setting name args = .call name args → Evaluated setting (.call name args)
  | lasting {v : Value} : Lasting setting true v → Evaluated setting v

/-- A result lasts if its strings are filled and, under strict math, no operation in it stands in
    parentheses. -/
theorem Evaluated.lasts (evaluated : v.Evaluated setting) (filled : v.isFilled = true)
    (steady : setting.options.strictMath = false ∨ v.calculates inside = false) :
    v.Lasting setting inside := by
  induction evaluated generalizing inside with
  | keyword t => exact .keyword t
  | dimension d => exact .dimension d
  | color t => exact .color t
  | quoted t quote => exact .quoted quote (Option.isNone_iff_eq_none.mp filled)
  | url _ ih => exact .url (ih filled steady)
  | list _ ih =>
    refine .list fun v member => ih v member (allFilled_iff.mp filled v member) ?_
    exact steady.imp_right fun none => anyCalculates_eq_false.mp none v member
  | operation _ _ kept left right =>
    simp only [isFilled, Bool.and_eq_true] at filled
    simp only [calculates, Bool.or_eq_false_iff] at steady
    refine .operation (left filled.1 (steady.imp_right fun none => none.1.2))
      (right filled.2 (steady.imp_right And.right)) ?_
    cases steady with
    | inl calculating =>
      refine .inr (kept.resolve_left fun outside => ?_)
      cases calculating.symm.trans outside.1
    | inr none => exact kept.imp_left fun outside => ⟨none.1.1, outside⟩
  | paren _ other ih => exact .paren (ih filled steady) other
  | call _ same ih =>
    refine .call (fun v member => ih v member (allFilled_iff.mp filled v member) ?_) same
    exact steady.imp_right fun none => anyCalculates_eq_false.mp none v member
  | lasting lasts => exact lasts.anywhere inside

theorem Evaluated.of_literal (literal : v.isLiteral = true) : v.Evaluated setting := by
  cases v with
  | dimension d => exact .dimension d
  | color t => exact .color t
  | _ => cases literal

theorem closed_evaluated (library : setting.LibraryLasts) :
    Eval.Closed setting (Evaluated setting) where
  keyword := .keyword
  dimension := .dimension
  color := .color
  quoted := .quoted
  url _ := .url
  list _ _ := .list
  paren v evaluated := by
    cases v with
    | dimension d => exact .dimension d
    | color t => exact .color t
    | _ => exact .paren evaluated rfl
  operator op lhs rhs left right := by
    constructor
    intro s w t run
    rcases (Eval.applyOperator_ends op lhs rhs s).result run with literal | ⟨rfl, kept⟩
    · exact .of_literal literal
    · exact .operation left right (kept.imp_left And.right)
  function name args evaluated := by
    constructor
    intro s w t run
    rcases ((Eval.applyFunction_ends name args s).result run).1 with ⟨_, -, -, rfl⟩ | rfl
    · exact .keyword _
    · rcases called_cases setting name args with ⟨b, same⟩ | given | same
      · exact same ▸ .keyword _
      · exact .lasting (library name args _ given)
      · exact same ▸ .call evaluated same

/-! ## Definitions made during evaluation -/

/-- Wherever and whenever a definition of the value is referred to, the result is the value, unless
    the definition is being evaluated or the value asks for `default()` in a guard. -/
def Final (setting : Setting) (w : Value) : Prop :=
  ∀ (name : String) (span : Span) (site : Site) (env : Environment) (s : Evaluation),
    site ∉ s.evaluating → Eval.Undecided s w →
      ∃ t, Eval.dereference env ⟨⟨name, w, span⟩, site⟩ setting s = (.ok w, t)

theorem Lasting.final (lasting : w.Lasting setting false) : w.Final setting := by
  intro name span site env s idle undecided
  have ends : Eval.Ends setting s (Eval.dereference env ⟨⟨name, w, span⟩, site⟩)
      (fun v _ => v = w) fun _ _ => False := by
    refine .ofState (.ofState ?_)
    rw [if_neg (by simpa using idle)]
    refine .mapFailure (.between (.ofState (.between ?_)))
    refine (Eval.valueWith_givesBack lasting ?_ ?_).imp (fun _ _ both => both.1)
    · exact fun _ => rfl
    · exact undecided
  rcases run : Eval.dereference env ⟨⟨name, w, span⟩, site⟩ setting s with ⟨f | v, t⟩
  · exact (ends.failure run).elim
  · exact ⟨t, by rw [ends.result run]⟩

theorem Final.lasting (library : setting.LibraryLasts) (final : w.Final setting) :
    w.Lasting setting false := by
  obtain ⟨t, run⟩ := final "" Span.none (.made 0) {} {} List.not_mem_nil (.inl rfl)
  have ends : Eval.Ends setting {} (Eval.dereference {} ⟨⟨"", w, Span.none⟩, .made 0⟩)
      (fun v _ => v = w → w.Lasting setting false) fun _ _ => True := by
    refine .ofState (.ofState ?_)
    rw [if_neg (by simp)]
    refine .mapFailure (.between (.ofState (.between ?_)))
    refine Eval.valueWith_lasting library ⟨fun name => ?_, fun name s => ⟨_, _, rfl⟩⟩ w _ rfl
    exact Eval.Keeps.bind (Eval.values_quiet.lookup {} name) fun v =>
      Eval.values_quiet.dereferenceWithin {} _ v
  exact ends.result run rfl

end Value

end StyleResolution
