import Mathlib.Logic.Relation
import StyleResolution.Proofs.Scope.History

/-! # Circular definitions

A definition is evaluated each time it is referred to, and what it mentions is evaluated then. So a
value can be evaluated if all names that can be reached from it are defined and no definition leads
back to itself. A definition that is referred to while it is being evaluated is reported as
circular: the definitions under evaluation are those on the way to the one that is begun, so the
report is right, and a definition that is used twice without leading to itself is never reported.
-/

namespace StyleResolution

open Eval

/-! ## The names that a value mentions -/

def Template.Piece.hole? : Template.Piece → Option String
  | .text _ => none
  | .hole name => some (String.ofList name)

namespace Value

mutual

def mentions : Value → List String
  | .keyword _ | .dimension _ | .color _ => []
  | .quoted t _ => (Template.pieces t.toList).filterMap Template.Piece.hole?
  | .url inner | .paren inner => inner.mentions
  | .variable name | .indirect name => [name]
  | .list _ items => mentionsAll items
  | .operation _ lhs rhs => lhs.mentions ++ rhs.mentions
  | .call _ args => mentionsAll args

def mentionsAll : List Value → List String
  | [] => []
  | v :: vs => v.mentions ++ mentionsAll vs

end

mutual

/-- Whether all names that the value refers to are written in it: it has no `@@name`. -/
def isDirect : Value → Bool
  | .keyword _ | .dimension _ | .color _ | .quoted _ _ | .variable _ => true
  | .indirect _ => false
  | .url inner | .paren inner => inner.isDirect
  | .list _ items => areDirect items
  | .operation _ lhs rhs => lhs.isDirect && rhs.isDirect
  | .call _ args => areDirect args

def areDirect : List Value → Bool
  | [] => true
  | v :: vs => v.isDirect && areDirect vs

end

end Value

/-! ## The graph of names -/

section Graph

variable (nearest : String → Option Variable)

/-- The nearest definition of the first name mentions the second one. -/
def Mentions (a b : String) : Prop :=
  ∃ v, nearest a = some v ∧ b ∈ v.definition.value.mentions

/-- Definitions lead from the first name to the second one, or the names are the same. -/
def LeadsTo : String → String → Prop :=
  Relation.ReflTransGen (Mentions nearest)

/-- Definitions lead from the name back to itself. -/
def Circular (name : String) : Prop :=
  Relation.TransGen (Mentions nearest) name name

def Value.Reaches (v : Value) (name : String) : Prop :=
  ∃ a ∈ v.mentions, LeadsTo nearest a name

/-- The cause is that a name to which definitions lead from the given one is undefined or circular,
    and it names this name. -/
def Blames (a : String) (cause : Cause) : Prop :=
  ∃ name, LeadsTo nearest a name ∧
    (cause = .circularReference name ∧ Circular nearest name ∨
      cause = .undefinedVariable name ∧ nearest name = none)

/-- All names to which definitions lead from the given one are defined, none of them at the sites,
    and none is circular. -/
def Clear (sites : List Site) (a : String) : Prop :=
  ∀ name, LeadsTo nearest a name →
    (∃ v, nearest name = some v ∧ v.site ∉ sites) ∧ ¬ Circular nearest name

variable {nearest} {a b : String} {v : Variable} {sites : List Site}

theorem Blames.head (mentions : Mentions nearest a b) (blames : Blames nearest b cause) :
    Blames nearest a cause := by
  obtain ⟨name, leads, blamed⟩ := blames
  exact ⟨name, .head mentions leads, blamed⟩

theorem Clear.of_mentions (found : nearest a = some v) (idle : v.site ∉ sites)
    (clear : ∀ b ∈ v.definition.value.mentions, Clear nearest (v.site :: sites) b) :
    Clear nearest sites a := by
  have next : ∀ b, Mentions nearest a b → Clear nearest (v.site :: sites) b := by
    rintro b ⟨w, foundToo, mentioned⟩
    cases found.symm.trans foundToo
    exact clear b mentioned
  intro name leads
  cases leads.cases_head with
  | inl same =>
    subst same
    refine ⟨⟨v, found, idle⟩, fun circular => ?_⟩
    -- the way back would end at a definition that is being evaluated
    obtain ⟨b, mentions, back⟩ := Relation.TransGen.head'_iff.mp circular
    obtain ⟨⟨w, foundToo, apart⟩, -⟩ := next b mentions a back
    cases found.symm.trans foundToo
    exact apart List.mem_cons_self
  | inr later =>
    obtain ⟨b, mentions, leads⟩ := later
    obtain ⟨⟨w, found, apart⟩, acyclic⟩ := next b mentions name leads
    exact ⟨⟨w, found, fun member => apart (List.mem_cons_of_mem _ member)⟩, acyclic⟩

end Graph

/-! ## Definitions in scope -/

/-- A site stands for one definition: what frames in scope define at the same site is the same. A
    site is the identity of a definition, so frames that share a site share the definition. -/
def Environment.Identifies (env : Environment) (store : Frames) : Prop :=
  ∀ i ∈ env.chain, ∀ j ∈ env.chain, ∀ e ∈ (store.get i).entries, ∀ e' ∈ (store.get j).entries,
    e.site = e'.site → ∀ d d', e.rule = .variable d → e'.rule = .variable d' → d = d'

theorem Placed.eq_of_site_eq (memberP : p ∈ Placed.ofBlock (.written file path) rules)
    (memberQ : q ∈ Placed.ofBlock (.written file path) rules) (same : p.site = q.site) : p = q := by
  obtain ⟨i, _, rfl⟩ := List.mem_mapIdx.mp memberP
  obtain ⟨j, _, rfl⟩ := List.mem_mapIdx.mp memberQ
  simp only [Site.child, Site.written.injEq, List.cons.injEq, and_true, true_and] at same
  subst same
  rfl

theorem Environment.identifies_of_block {env : Environment} {store : Frames} {id : FrameId}
    {file nesting : Nat} {path : List Nat} {rules : List Rule} (alone : env.chain = [id])
    (block : store.get id = Frame.ofBlock (.written file path) rules nesting) :
    env.Identifies store := by
  intro i inI j inJ e memberE e' memberE' same d d' isD isD'
  rw [alone, List.mem_singleton] at inI inJ
  rw [inI, block] at memberE
  rw [inJ, block] at memberE'
  obtain ⟨p, memberP, rfl⟩ := Frame.mem_ofBlock.mp memberE
  obtain ⟨q, memberQ, rfl⟩ := Frame.mem_ofBlock.mp memberE'
  cases Placed.eq_of_site_eq memberP memberQ same
  cases isD.symm.trans isD'
  rfl

theorem Frames.variableIn_mem {store : Frames} {v : Variable} (fresh : store.Fresh)
    (found : store.variableIn name ids = some v) : v.definition.name = name ∧
      ∃ id ∈ ids, ∃ e ∈ (store.get id).entries,
        e.rule = .variable v.definition ∧ e.site = v.site := by
  rw [fresh.variableIn] at found
  obtain ⟨id, inside, last⟩ := List.exists_of_findSome?_eq_some found
  obtain ⟨p, member, defines⟩ := List.exists_of_findSome?_eq_some last
  obtain ⟨e, entry, rfl⟩ := (Frame.mem_rules _).mp (List.mem_reverse.mp member)
  simp only [Placed.definitionOf, Option.filter_eq_some_iff, beq_iff_eq] at defines
  obtain ⟨isVariable, named⟩ := defines
  refine ⟨named, id, inside, e, entry, ?_⟩
  unfold Placed.asVariable at isVariable
  split at isVariable
  · rename_i d isDefinition
    cases isVariable
    exact ⟨isDefinition, rfl⟩
  · cases isVariable

theorem Environment.Identifies.name_eq {env : Environment} {store : Frames} {v w : Variable}
    (identifies : env.Identifies store) (fresh : store.Fresh)
    (foundA : env.resolve store a = some v) (foundB : env.resolve store b = some w)
    (same : v.site = w.site) : a = b := by
  obtain ⟨rfl, i, inI, e, memberE, isV, atV⟩ := Frames.variableIn_mem fresh foundA
  obtain ⟨rfl, j, inJ, e', memberE', isW, atW⟩ := Frames.variableIn_mem fresh foundB
  have sites : e.site = e'.site := by rw [atV, atW, same]
  rw [identifies i inI j inJ e memberE e' memberE' sites _ _ isV isW]

theorem Quiet.resolve (quiet : Quiet s s') (env : Environment) (name : String) :
    env.resolve s'.frames name = env.resolve s.frames name := by
  unfold Environment.resolve
  induction env.chain with
  | nil => rfl
  | cons id ids ih => simp only [Frames.variableIn, (quiet.frame id).names, ih]

namespace Eval

variable {setting : Setting} {s : Evaluation} {env : Environment}
  {nearest : String → Option Variable} {sites : List Site}

/-- The nearest definitions are as given, and definitions at the sites are being evaluated. -/
structure Sees (env : Environment) (nearest : String → Option Variable) (sites : List Site)
    (s : Evaluation) : Prop where
  resolve : ∀ name, env.resolve s.frames name = nearest name
  evaluating : s.evaluating = sites

theorem Sees.steady (env : Environment) (nearest : String → Option Variable) (sites : List Site) :
    Steady (Sees env nearest sites) where
  quiet quiet h :=
    ⟨fun name => (quiet.resolve env name).trans (h.resolve name),
      quiet.evaluating.trans h.evaluating⟩
  parens _ h := ⟨h.resolve, h.evaluating⟩

theorem lookup_ends (sees : Sees env nearest sites s) (name : String) :
    Ends setting s (lookup env name)
      (fun v t => nearest name = some v ∧ Sees env nearest sites t)
      (fun f _ => f.cause = .undefinedVariable name ∧ nearest name = none) := by
  have resolves : Ends setting s (lookup env name) (fun v _ => nearest name = some v)
      (fun f _ => f.cause = .undefinedVariable name ∧ nearest name = none) := by
    apply Ends.bind (lookupIn_ends name env.chain s) ?_ nofun
    intro found t isFound
    have isNearest : found = nearest name := isFound.trans (sees.resolve name)
    cases found with
    | some v => exact Ends.pure isNearest.symm
    | none => exact Ends.failWith ⟨rfl, isNearest.symm⟩
  have quiet := (values_quiet.lookup env name).ends setting s
  refine (resolves.and quiet).mono (fun v t ended => ?_) fun _ _ failed => failed.1
  exact ⟨ended.1, (Sees.steady env nearest sites).quiet ended.2 sees⟩

/-! ## Exploring what a value mentions -/

section Values

variable {I : Evaluation → Prop} {fetch : String → Eval Value} {known : String → Prop}
  {failed : Failure → Prop}

theorem applyFunction_steadily (steady : Steady I) (holds : I s) (name : String)
    (args : List Value) :
    Ends setting s (applyFunction name args) (fun _ t => I t) (fun f _ => failed f) := by
  have never := (applyFunction_failsOnly (P := fun _ => False) name args).ends setting s
  have quiet := (values_quiet.applyFunction name args).ends setting s
  exact (never.and quiet).mono (fun _ _ ended => steady.quiet ended.2 holds)
    fun _ _ never => never.1.elim

theorem applyOperator_steadily (lenient : setting.options.warningsAsErrors = false)
    (steady : Steady I) (holds : I s) (op : Operator) (lhs rhs : Value) :
    Ends setting s (applyOperator op lhs rhs) (fun _ t => I t) (fun f _ => failed f) := by
  have quiet := (values_quiet.applyOperator op lhs rhs).ends setting s
  exact ((applyOperator_ends op lhs rhs s).and quiet).mono
    (fun _ _ ended => steady.quiet ended.2 holds) fun _ _ failed => by
      simp [Warned, lenient] at failed

theorem fillHoles_explores
    (fetches : ∀ name ∈ pieces.filterMap Template.Piece.hole?, ∀ s, I s →
      Ends setting s (fetch name) (fun _ t => known name ∧ I t) (fun f _ => failed f))
    (holds : I s) : Ends setting s (fillHoles fetch pieces)
      (fun _ t => (∀ name ∈ pieces.filterMap Template.Piece.hole?, known name) ∧ I t)
      (fun f _ => failed f) := by
  induction pieces generalizing s with
  | nil => exact Ends.pure ⟨by simp, holds⟩
  | cons piece rest ih =>
    cases piece with
    | text cs =>
      simp only [List.filterMap_cons, Template.Piece.hole?] at fetches ⊢
      apply Ends.seq (ih fetches holds) ?_
      exact fun _ _ explored => Ends.pure explored
    | hole cs =>
      simp only [List.filterMap_cons, Template.Piece.hole?, List.forall_mem_cons] at fetches ⊢
      apply Ends.seq (fetches.1 s holds) ?_
      intro v t first
      apply Ends.seq (ih fetches.2 first.2) ?_
      exact fun _ _ others => Ends.pure ⟨⟨first.1, others.1⟩, others.2⟩

mutual

/-- If every name that a value mentions is known once it is fetched, all of them are known when the
    value is evaluated, and evaluating it fails for no other reason than that fetching one does. -/
theorem valueWith_explores (lenient : setting.options.warningsAsErrors = false)
    (steady : Steady I) (v : Value) (direct : v.isDirect = true)
    (fetches : ∀ name ∈ v.mentions, ∀ s, I s →
      Ends setting s (fetch name) (fun _ t => known name ∧ I t) (fun f _ => failed f))
    {s : Evaluation} (holds : I s) :
    Ends setting s (valueWith fetch v) (fun _ t => (∀ name ∈ v.mentions, known name) ∧ I t)
      (fun f _ => failed f) := by
  cases v with
  | keyword | dimension | color => exact Ends.pure ⟨by simp [Value.mentions], holds⟩
  | quoted t quote =>
    simp only [Value.mentions] at fetches ⊢
    apply Ends.seq (fillHoles_explores fetches holds) ?_
    exact fun _ _ explored => Ends.pure explored
  | url inner =>
    simp only [Value.mentions, Value.isDirect] at fetches direct ⊢
    apply Ends.seq (valueWith_explores lenient steady inner direct fetches holds) ?_
    exact fun _ _ explored => Ends.pure explored
  | «variable» name =>
    simp only [Value.mentions, List.mem_singleton, forall_eq] at fetches ⊢
    exact fetches s holds
  | indirect name => cases direct
  | list separator items =>
    simp only [Value.mentions, Value.isDirect] at fetches direct ⊢
    apply Ends.seq (valuesWith_explores lenient steady items direct fetches holds) ?_
    exact fun _ _ explored => Ends.pure explored
  | operation op lhs rhs =>
    simp only [Value.mentions, Value.isDirect, Bool.and_eq_true, List.forall_mem_append]
      at fetches direct ⊢
    apply Ends.seq (valueWith_explores lenient steady lhs direct.1 fetches.1 holds) ?_
    intro _ t left
    apply Ends.seq (valueWith_explores lenient steady rhs direct.2 fetches.2 left.2) ?_
    intro _ u right
    exact (applyOperator_steadily lenient steady right.2 op _ _).imp
      (fun _ _ holds => ⟨⟨left.1, right.1⟩, holds⟩)
  | paren inner =>
    simp only [Value.mentions, Value.isDirect] at fetches direct ⊢
    have inside : Ends setting s (inParens (valueWith fetch inner))
        (fun _ t => (∀ name ∈ inner.mentions, known name) ∧ I t) (fun f _ => failed f) :=
      .between ((valueWith_explores lenient steady inner direct fetches
        (steady.parens _ holds)).imp
          (fun _ _ explored => ⟨explored.1, steady.parens _ explored.2⟩))
    apply Ends.seq inside ?_
    exact fun _ _ explored => Ends.pure explored
  | call name args =>
    simp only [Value.mentions, Value.isDirect] at fetches direct ⊢
    apply Ends.seq (valuesWith_explores lenient steady args direct fetches holds) ?_
    intro _ t explored
    exact (applyFunction_steadily steady explored.2 name _).imp
      (fun _ _ holds => ⟨explored.1, holds⟩)

theorem valuesWith_explores (lenient : setting.options.warningsAsErrors = false)
    (steady : Steady I) (vs : List Value) (direct : Value.areDirect vs = true)
    (fetches : ∀ name ∈ Value.mentionsAll vs, ∀ s, I s →
      Ends setting s (fetch name) (fun _ t => known name ∧ I t) (fun f _ => failed f))
    {s : Evaluation} (holds : I s) :
    Ends setting s (valuesWith fetch vs)
      (fun _ t => (∀ name ∈ Value.mentionsAll vs, known name) ∧ I t) (fun f _ => failed f) := by
  cases vs with
  | nil => exact Ends.pure ⟨by simp [Value.mentionsAll], holds⟩
  | cons v vs =>
    simp only [Value.mentionsAll, Value.areDirect, Bool.and_eq_true, List.forall_mem_append]
      at fetches direct ⊢
    apply Ends.seq (valueWith_explores lenient steady v direct.1 fetches.1 holds) ?_
    intro _ t first
    apply Ends.seq (valuesWith_explores lenient steady vs direct.2 fetches.2 first.2) ?_
    exact fun _ _ others => Ends.pure ⟨⟨first.1, others.1⟩, others.2⟩

end

end Values

/-! ## Evaluating definitions -/

section Definitions

variable (lenient : setting.options.warningsAsErrors = false)
  (distinct : ∀ a b v w, nearest a = some v → nearest b = some w → v.site = w.site → a = b)
  (named : ∀ a v, nearest a = some v → v.definition.name = a)

include lenient distinct named

/-- Evaluating a definition explores all names it leads to. The definitions under evaluation lead to
    it, so it is on a cycle if it is one of them. -/
theorem dereferenceWithin_explores (n : Nat) (found : nearest name = some v)
    (direct : ∀ b w, LeadsTo nearest name b → nearest b = some w → w.definition.value.isDirect = true)
    (underway : ∀ site ∈ sites, ∃ a w, nearest a = some w ∧ w.site = site ∧
      Relation.TransGen (Mentions nearest) a name)
    (sees : Sees env nearest sites s) : Ends setting s (dereferenceWithin env n v)
      (fun _ t => Clear nearest sites name ∧ Sees env nearest sites t)
      (fun f _ => f.cause = .exhausted ∨ Blames nearest name f.cause) := by
  induction n generalizing name v sites s with
  | zero => exact .failWith (.inl rfl)
  | succ n ih =>
    apply Ends.ofState
    rw [sees.evaluating]
    split
    · rename_i begun
      obtain ⟨a, w, foundToo, same, leads⟩ := underway v.site (by simpa using begun)
      obtain rfl := distinct a name w v foundToo found same
      refine .fail (.inr ⟨a, .refl, .inl ⟨?_, leads⟩⟩)
      rw [← named a v found]
    · rename_i begun
      have idle : v.site ∉ sites := by simpa using begun
      have fetches : ∀ b ∈ v.definition.value.mentions, ∀ t,
          Sees env nearest (v.site :: sites) t →
          Ends setting t (do dereferenceWithin env n (← lookup env b))
            (fun _ u => Clear nearest (v.site :: sites) b ∧ Sees env nearest (v.site :: sites) u)
            (fun f _ => f.cause = .exhausted ∨ Blames nearest name f.cause) := by
        intro b mentioned t sees
        have mentions : Mentions nearest name b := ⟨v, found, mentioned⟩
        refine .bind (lookup_ends sees b) (fun w u looked => ?_) fun f _ failed => ?_
        · refine (ih looked.1 (fun c x leads => direct c x (.head mentions leads)) ?_
            looked.2).mono (fun _ _ ended => ended)
            fun _ _ failed => failed.imp_right (.head mentions)
          intro site member
          cases List.mem_cons.mp member with
          | inl here => exact ⟨name, v, found, here.symm, .single mentions⟩
          | inr earlier =>
            obtain ⟨a, x, foundToo, same, leads⟩ := underway site earlier
            exact ⟨a, x, foundToo, same, leads.tail mentions⟩
        · exact .inr ⟨b, .single mentions, .inr failed⟩
      have entered : Sees env nearest (v.site :: sites)
          { s with
            evaluating := v.site :: s.evaluating
            history := .definition v.site (v.site :: s.evaluating) :: s.history
            parenDepth := 0 } :=
        ⟨sees.resolve, by rw [sees.evaluating]⟩
      have explored := valueWith_explores lenient (Sees.steady env nearest (v.site :: sites))
        v.definition.value (direct name v .refl found) fetches entered
      refine .mapFailure (.between (.ofState (.between (explored.mono ?_ ?_))))
      · intro _ t ended
        exact ⟨.of_mentions found idle ended.1, ended.2.resolve, by simp [ended.2.evaluating]⟩
      · exact fun _ _ failed => failed

theorem variableValue_explores
    (direct : ∀ b w, LeadsTo nearest name b → nearest b = some w → w.definition.value.isDirect = true)
    (sees : Sees env nearest [] s) : Ends setting s (variableValue env name)
      (fun _ t => Clear nearest [] name ∧ Sees env nearest [] t)
      (fun f _ => f.cause = .exhausted ∨ Blames nearest name f.cause) := by
  refine Ends.bind (lookup_ends sees name) (fun v t looked => ?_) fun f _ failed => ?_
  · apply Ends.ofState
    exact dereferenceWithin_explores lenient distinct named _ looked.1 direct (by simp) looked.2
  · exact .inr ⟨name, .refl, .inr failed⟩

end Definitions

end Eval

/-- Evaluating a value without `@@name` comes to an end. It succeeds if and only if all names that
    the value reaches in the graph of names are defined and none of them is circular. Otherwise it
    fails for one of these names, as circular only if it is, and as undefined only if it is. -/
theorem cycle_detection_is_exact (setting : Setting) (s : Evaluation) (env : Environment)
    (v : Value) (lenient : setting.options.warningsAsErrors = false) (idle : s.evaluating = [])
    (fresh : s.frames.Fresh) (identifies : env.Identifies s.frames) (direct : v.isDirect = true)
    (directToo : ∀ name d, v.Reaches (env.resolve s.frames) name →
      env.resolve s.frames name = some d → d.definition.value.isDirect = true) :
    let nearest := env.resolve s.frames
    ((∃ w t, value env v setting s = (.ok w, t)) ↔
      ∀ name, v.Reaches nearest name → nearest name ≠ none ∧ ¬ Circular nearest name) ∧
    ∀ f t, value env v setting s = (.error f, t) →
      ∃ name, v.Reaches nearest name ∧
        (f.cause = .circularReference name ∧ Circular nearest name ∨
          f.cause = .undefinedVariable name ∧ nearest name = none) := by
  intro nearest
  have sees : Eval.Sees env nearest [] s := ⟨fun _ => rfl, idle⟩
  have fetches : ∀ a ∈ v.mentions, ∀ t, Eval.Sees env nearest [] t →
      Eval.Ends setting t (variableValue env a)
        (fun _ u => Clear nearest [] a ∧ Eval.Sees env nearest [] u)
        (fun f _ => f.cause = .exhausted ∨ ∃ a ∈ v.mentions, Blames nearest a f.cause) := by
    intro a mentioned t sees
    have explored := variableValue_explores lenient
      (fun a b _ _ foundA foundB => identifies.name_eq fresh foundA foundB)
      (fun a _ found => (Frames.variableIn_mem fresh found).1)
      (fun b w leads => directToo b w ⟨a, mentioned, leads⟩) sees
    exact explored.mono (fun _ _ ended => ended)
      fun _ _ failed => failed.imp_right fun blames => ⟨a, mentioned, blames⟩
  have explored := valueWith_explores lenient (Eval.Sees.steady env nearest []) v direct
    fetches sees
  have fails : ∀ f t, value env v setting s = (.error f, t) →
      ∃ name, v.Reaches nearest name ∧
        (f.cause = .circularReference name ∧ Circular nearest name ∨
          f.cause = .undefinedVariable name ∧ nearest name = none) := by
    intro f t run
    have different := (value_finishes env v fresh).failure run
    obtain ⟨a, mentioned, name, leads, blamed⟩ := (explored.failure run).resolve_left different
    exact ⟨name, ⟨a, mentioned, leads⟩, blamed⟩
  refine ⟨⟨?_, fun clear => ?_⟩, fails⟩
  · rintro ⟨w, t, run⟩ name ⟨a, mentioned, leads⟩
    obtain ⟨⟨d, found, -⟩, acyclic⟩ := (explored.result run).1 a mentioned name leads
    exact ⟨fun absent => Option.some_ne_none d (found.symm.trans absent), acyclic⟩
  · rcases run : value env v setting s with ⟨f | w, t⟩
    · obtain ⟨name, reached, blamed⟩ := fails f t run
      obtain ⟨defined, acyclic⟩ := clear name reached
      cases blamed with
      | inl circular => exact absurd circular.2 acyclic
      | inr undefined => exact absurd undefined.2 defined
    · exact ⟨w, t, rfl⟩

/-- Two definitions that share a third one, and two that refer to each other. -/
def sharedDefinitions : List Rule :=
  [.variable ⟨"top", .list .space [.variable "left", .variable "right"], Span.none⟩,
    .variable ⟨"left", .quoted "l@\x7bshared\x7d" (some '"'), Span.none⟩,
    .variable ⟨"right", .paren (.variable "shared"), Span.none⟩,
    .variable ⟨"shared", .keyword "s", Span.none⟩,
    .variable ⟨"ping", .variable "pong", Span.none⟩,
    .variable ⟨"pong", .quoted "@\x7bping\x7d" none, Span.none⟩]

def sharing : Evaluation :=
  { frames := (Frames.add {} (Frame.ofBlock (.written 0 []) sharedDefinitions 0)).2 }

def sharingScope : Environment :=
  { frames := [0] }

theorem sharing_outcomes :
    failureOf (value sharingScope (.variable "top") {} sharing).1 = none ∧
      (failureOf (value sharingScope (.variable "ping") {} sharing).1).map (·.cause) =
        some (.circularReference "ping") := by
  decide +kernel

theorem shared_definition_is_not_circular :
    let nearest := sharingScope.resolve sharing.frames
    (∃ w t, value sharingScope (.variable "top") {} sharing = (.ok w, t)) ∧
      ¬ Circular nearest "shared" ∧
      (∃ f t, value sharingScope (.variable "ping") {} sharing = (.error f, t) ∧
        f.cause = .circularReference "ping") ∧ Circular nearest "ping" := by
  intro nearest
  have fresh : sharing.frames.Fresh :=
    Frames.forall_get_add (fun _ => Frame.Fresh.ofPlaced [] 0) (Frame.Fresh.ofPlaced _ 0)
  have identifies : sharingScope.Identifies sharing.frames :=
    Environment.identifies_of_block rfl rfl
  have direct : ∀ name d, nearest name = some d → d.definition.value.isDirect = true := by
    intro name d found
    obtain ⟨-, id, inside, e, member, isDefinition, -⟩ := Frames.variableIn_mem fresh found
    have all : ∀ e ∈ (sharing.frames.get 0).entries, ∀ d, e.rule = .variable d →
        d.value.isDirect = true := by
      simp [sharing, sharedDefinitions, Frames.add, Frames.get, Placed.ofBlock, Value.isDirect, Value.areDirect]
    cases List.mem_singleton.mp inside
    exact all e member _ isDefinition
  obtain ⟨clear, -⟩ := cycle_detection_is_exact {} sharing sharingScope (.variable "top") rfl rfl
    fresh identifies rfl fun name d _ => direct name d
  obtain ⟨-, fails⟩ := cycle_detection_is_exact {} sharing sharingScope (.variable "ping") rfl rfl
    fresh identifies rfl fun name d _ => direct name d
  obtain ⟨topCause, pingCause⟩ := sharing_outcomes
  have evaluates : ∃ w t, value sharingScope (.variable "top") {} sharing = (.ok w, t) := by
    rcases run : value sharingScope (.variable "top") {} sharing with ⟨f | w, t⟩
    · simp [run, failureOf] at topCause
    · exact ⟨w, t, rfl⟩
  have first : Mentions nearest "top" "right" :=
    ⟨_, rfl, List.mem_cons_of_mem _ List.mem_cons_self⟩
  have second : Mentions nearest "right" "shared" := ⟨_, rfl, List.mem_cons_self⟩
  have reached : Value.Reaches nearest (.variable "top") "shared" :=
    ⟨"top", List.mem_cons_self, .head first (.single second)⟩
  refine ⟨evaluates, (clear.mp evaluates "shared" reached).2, ?_⟩
  rcases run : value sharingScope (.variable "ping") {} sharing with ⟨f | w, t⟩
  · have cause : f.cause = .circularReference "ping" := by simpa [run, failureOf] using pingCause
    obtain ⟨name, -, ⟨blamed, circular⟩ | ⟨blamed, -⟩⟩ := fails f t run
    · cases cause.symm.trans blamed
      exact ⟨⟨f, t, rfl, cause⟩, circular⟩
    · cases cause.symm.trans blamed
  · simp [run, failureOf] at pingCause

end StyleResolution
