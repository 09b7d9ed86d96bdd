import StyleResolution.Proofs.Coupling.Imports

/-! # Calls that belong together

In environments that belong together, a call means callables that belong together: they are found in
the same order, take the same arguments, and their guards hold alike.
-/

namespace StyleResolution

/-- What became of the candidates, with what became of one more in front. -/
def Selection.add (others : Selection) :
    Except Mixin.MatchFailure (Option MatchedCandidate) → Selection
  | .error failure => { others with failures := failure :: others.failures }
  | .ok none => others
  | .ok (some found) => { others with matched := found :: others.matched }

open Eval

theorem Eval.matchCandidates_cons (caller : Environment) (args : List Argument) (span : Span)
    (candidate : Candidate) (rest : List Candidate) :
    matchCandidates caller args span (candidate :: rest) =
      matchCandidate caller args span candidate >>= fun outcome =>
        matchCandidates caller args span rest >>= fun others => pure (others.add outcome) := by
  conv_lhs => unfold matchCandidates
  refine bind_congr fun outcome => bind_congr fun others => ?_
  rcases outcome with failure | found | found <;> rfl

namespace Coupling

variable {K : Coupling} {setting : Setting} {W W' : World} {s t : Evaluation} {i j : FrameId}
  {env env' caller caller' : Environment} {α β : Type} {tight causes : Prop}

/-- The computations end together, unless one of them runs out of steps; why they fail does not
    matter. -/
abbrev Pairs (K : Coupling) (setting : Setting) (W : World) (s t : Evaluation) (x : Eval α)
    (y : Eval β) (R : World → α → β → Prop) : Prop :=
  K.Ties False False setting W s t x y R

/-! ## Single steps -/

theorem Sim.pairs_of_alike (sim : K.Sim W s t)
    (alike : Alike (K.SiteLink W) False env env' setting s t x y) (quiet : Keeps setting Quiet x)
    (quietToo : Keeps setting Quiet y) : K.Pairs setting W s t x y fun _ a b => a = b := by
  have loose : Tied (K.proviso False False) setting s t x y _ :=
    (alike.keeping quiet quietToo).under (fun _ _ => trivial) id fun _ => trivial
  refine .of_tied (loose.mono ?_)
  rintro a s' b t' ⟨⟨same, -⟩, left, right⟩
  exact ⟨same, sim.quiet left right⟩

theorem addFrame_ties (sim : K.Sim W s t) (link : K.FrameLink W f f') (fresh : f.Fresh)
    (freshToo : f'.Fresh) :
    K.Ties tight causes setting W s t (addFrame f) (addFrame f') fun W' i j => W'.ids i j :=
  fun _ => ⟨W.addIds s.frames.size t.frames.size, W.le_addIds _ _, .inr ⟨rfl, rfl⟩,
    sim.add link fresh freshToo⟩

theorem addBlock_ties (sim : K.Sim W s t)
    (aligned : Aligned Placed.rule K.cut K.twin (Placed.ofBlock site rules) (Placed.ofBlock site' rules'))
    (nesting : Nat) :
    K.Ties tight causes setting W s t (addFrame (Frame.ofBlock site rules nesting))
      (addFrame (Frame.ofBlock site' rules' nesting)) fun W' i j => W'.ids i j :=
  addFrame_ties sim (.ofBlock aligned nesting) (.ofPlaced _ _) (.ofPlaced _ _)

/-! ## Finding callables -/

/-- The callables that were reached belong together, as do the frames between. -/
structure ReachedLink (K : Coupling) (W : World) (r r' : Reached) : Prop where
  callable : K.CallableLink r.callable r'.callable
  between : List.Forall₂ W.ids r.between r'.between

/-- The candidates belong together. -/
structure CandidateLink (K : Coupling) (W : World) (c c' : Candidate) : Prop where
  callable : K.CallableLink c.callable c'.callable
  scope : EnvLink W c.scope c'.scope

theorem consult_ties (lawful : K.Lawful setting) (sim : K.Sim W s t) (linked : W.ids i j) :
    K.Ties tight causes setting W s t (consult i) (consult j) fun _ index index' => ∀ name, K.named name →
      List.Forall₂ K.CallableLink (index.callablesNamed name) (index'.callablesNamed name) := by
  refine .of_tied ((consult_tied i j).mono ?_)
  rintro _ s' _ t' ⟨rfl, rfl, quiet, quietToo⟩
  refine ⟨fun name named => ?_, sim.quiet quiet quietToo⟩
  rw [sim.fresh i, sim.freshToo j]
  exact (sim.frames i j linked).entries.callables lawful named

theorem closureIn_link (one : OneToOne (K.SiteLink W)) (link : K.FrameLink W f f')
    (callable : K.CallableLink c c') : List.Forall₂ W.ids (closureIn f c) (closureIn f' c') := by
  cases callable with
  | ruleset => exact .nil
  | @mixin site site' head rules rules' twin =>
    have closures := link.closureOf one (SiteLink.twin twin)
    unfold closureIn
    dsimp only at closures ⊢
    generalize f.closureOf site = closure at closures ⊢
    generalize f'.closureOf site' = closure' at closures ⊢
    cases closures with
    | none => exact .nil
    | some frames => exact frames

theorem searchNamespaces_ties (lawful : K.Lawful setting)
    (search : ∀ {W s t i j}, K.Sim W s t → W.ids i j →
      K.Ties tight causes setting W s t (searchFrame path i) (searchFrame path j) fun W' =>
      List.Forall₂ (K.ReachedLink W'))
    (link : K.FrameLink W f f') (callables : List.Forall₂ K.CallableLink cs cs') (sim : K.Sim W s t) :
    K.Ties tight causes setting W s t (searchNamespaces (searchFrame path) f cs)
      (searchNamespaces (searchFrame path) f' cs') fun W' => List.Forall₂ (K.ReachedLink W') := by
  induction callables generalizing W s t with
  | nil => exact .pure .nil sim
  | @cons c c' cs cs' callable _ ih =>
    refine .bind (addBlock_ties sim (callable.aligned lawful).2 0) ?_
    intro W₁ i j s₁ t₁ grown₁ linked sim₁
    refine .bind (search sim₁ linked) ?_
    intro W₂ found found' s₂ t₂ grown₂ reached sim₂
    have grown : W ≤ W₂ := grown₁.trans grown₂
    refine .bind (ih (link.mono grown) sim₂) ?_
    intro W₃ others others' s₃ t₃ grown₃ rest sim₃
    refine .pure (List.rel_append ?_ rest) sim₃
    have closures := closureIn_link (sim₃.one lawful) (link.mono (grown.trans grown₃)) callable
    refine List.forall₂_map_left_iff.mpr (List.forall₂_map_right_iff.mpr (reached.imp ?_))
    intro r r' both
    exact ⟨both.callable, List.rel_append closures
      (.cons (grown₃.1 _ _ (grown₂.1 _ _ linked)) (both.between.imp grown₃.1))⟩

theorem searchFrame_ties (lawful : K.Lawful setting) (named : ∀ name ∈ path, K.named name)
    (sim : K.Sim W s t) (linked : W.ids i j) :
    K.Ties tight causes setting W s t (searchFrame path i) (searchFrame path j)
      fun W' => List.Forall₂ (K.ReachedLink W') := by
  induction path generalizing W s t i j with
  | nil => exact .pure .nil sim
  | cons name rest ih =>
    simp only [List.forall_mem_cons] at named
    cases rest with
    | nil =>
      refine .bind (consult_ties lawful sim linked) ?_
      intro W' index index' s' t' grown callables sim
      refine .ofFrame (.pure ?_ sim)
      have link := sim.frames i j (grown.1 i j linked)
      refine List.forall₂_map_left_iff.mpr (List.forall₂_map_right_iff.mpr ?_)
      refine (callables name named.1).imp fun c c' callable => ⟨callable, ?_⟩
      exact closureIn_link (sim.one lawful) link callable
    | cons next rest =>
      refine .bind (consult_ties lawful sim linked) ?_
      intro W' index index' s' t' grown callables sim
      refine .ofFrame ?_
      have link := sim.frames i j (grown.1 i j linked)
      refine searchNamespaces_ties lawful (fun sim => ih named.2 sim) link ?_ sim
      exact List.rel_filter (fun _ _ callable => by simp [callable.isNamespace])
        (callables name named.1)

theorem isEmpty_eq (related : List.Forall₂ R as bs) : bs.isEmpty = as.isEmpty := by
  cases related <;> rfl

theorem searchStack_ties (lawful : K.Lawful setting) (named : ∀ name ∈ path, K.named name)
    (behind : List.Forall₂ (List.Forall₂ W.ids) captured captured')
    (frames : List.Forall₂ W.ids stack stack') (sim : K.Sim W s t) :
    K.Ties tight causes setting W s t (searchStack path captured stack) (searchStack path captured' stack')
      fun W' => List.Forall₂ (K.CandidateLink W') := by
  induction stack generalizing stack' W s t with
  | nil =>
    cases frames
    exact .pure .nil sim
  | cons i outer ih =>
    obtain ⟨j, outer', linked, rest, rfl⟩ := List.forall₂_cons_left_iff.mp frames
    refine .bind (searchFrame_ties lawful named sim linked) ?_
    intro W' found found' s' t' grown reached sim
    have behind := behind.imp fun _ _ => List.Forall₂.imp grown.1
    rw [isEmpty_eq reached]
    split
    · exact ih behind (rest.imp grown.1) sim
    · refine .pure ?_ sim
      have scope : EnvLink W' ⟨i :: outer, captured⟩ ⟨j :: outer', captured'⟩ :=
        .mk (.cons (grown.1 i j linked) (rest.imp grown.1)) behind
      refine List.forall₂_map_left_iff.mpr (List.forall₂_map_right_iff.mpr (reached.imp ?_))
      exact fun r r' both => ⟨both.callable, scope.pushAll both.between⟩

theorem findCandidates_ties (lawful : K.Lawful setting) (named : ∀ name ∈ path, K.named name)
    (envs : EnvLink W env env') (sim : K.Sim W s t) :
    K.Ties tight causes setting W s t (findCandidates env path) (findCandidates env' path)
      fun W' => List.Forall₂ (K.CandidateLink W') := by
  unfold findCandidates
  unfold EnvLink at envs
  generalize env.allStacks = allStacks at envs ⊢
  generalize env'.allStacks = allStacks' at envs ⊢
  induction allStacks generalizing allStacks' W s t with
  | nil =>
    cases envs
    exact .pure .nil sim
  | cons stack captured ih =>
    obtain ⟨stack', captured', frames, behind, rfl⟩ := List.forall₂_cons_left_iff.mp envs
    refine .bind (searchStack_ties lawful named behind frames sim) ?_
    intro W' found found' s' t' grown candidates sim
    rw [isEmpty_eq candidates]
    split
    · exact ih sim _ (behind.imp fun _ _ => List.Forall₂.imp grown.1)
    · exact .pure candidates sim

/-! ## Matching candidates -/

theorem evaluateArguments_pairs (lawful : K.Lawful setting) (envs : EnvLink W env env')
    (sim : K.Sim W s t) (args : List Argument) :
    K.Pairs setting W s t (evaluateArguments env args) (evaluateArguments env' args)
      fun _ a b => a = b := by
  induction args generalizing W s t with
  | nil => exact .pure rfl sim
  | cons arg args ih =>
    have first : K.Pairs setting W s t (do pure { arg with value := ← value env arg.value })
        (do pure { arg with value := ← value env' arg.value }) fun _ a b => a = b := by
      exact .map (value_ties lawful sim envs arg.value)
    refine .bind first ?_
    rintro W₁ a _ s₁ t₁ grown rfl sim₁
    exact .map (ih (envs.mono grown) sim₁)

theorem FrameLink.push (link : K.FrameLink W f f') (new : K.Linked W p p') :
    K.FrameLink W (f.push p) (f'.push p') where
  entries := by
    rw [Frame.entries_push, Frame.entries_push, link.base]
    exact Aligned.append link.entries (.cons ⟨new, rfl⟩ .nil)
  base := link.base
  closures := link.closures

theorem define_pairs (sim : K.Sim W s t) (linked : W.ids i j) (name : String) (v : Value)
    (span : Span) :
    K.Pairs setting W s t (define i name v span) (define j name v span) fun _ _ _ => True := by
  intro _
  refine ⟨W.addMade s.made t.made, W.le_addMade _ _, trivial, ?_⟩
  have sites : K.SiteLink (W.addMade s.made t.made) (.made s.made) (.made t.made) :=
    .inr ⟨s.made, t.made, .inr ⟨rfl, rfl⟩, rfl, rfl⟩
  exact sim.make.modify linked ((sim.make.frames i j linked).push (.definition sites))
    (.spliceAt _ _ _ _ _) (.spliceAt _ _ _ _ _)

section

variable (lawful : K.Lawful setting) (scopes : EnvLink W scope scope')
  (callers : EnvLink W caller caller')

include lawful scopes callers

theorem boundValue_pairs (linked : W.ids i j) (sim : K.Sim W s t) (bound : Mixin.Bound) :
    K.Pairs setting W s t (boundValue i scope caller bound) (boundValue j scope' caller' bound)
      fun _ a b => a = b := by
  cases bound with
  | supplied v => exact .pure rfl sim
  | fallback v => exact value_ties lawful sim ((scopes.push linked).capture callers) v

theorem defineParams_pairs (linked : W.ids i j) (sim : K.Sim W s t) (span : Span)
    (bindings : List (String × Mixin.Bound)) :
    K.Pairs setting W s t (defineParams i scope caller span bindings)
      (defineParams j scope' caller' span bindings) fun _ _ _ => True := by
  induction bindings generalizing W s t with
  | nil => exact .pure trivial sim
  | cons binding rest ih =>
    obtain ⟨name, bound⟩ := binding
    refine .bind (boundValue_pairs lawful scopes callers linked sim bound) ?_
    rintro W₁ v _ s₁ t₁ grown₁ rfl sim₁
    refine .bind (define_pairs sim₁ (grown₁.1 i j linked) name v span) ?_
    rintro W₂ _ _ s₂ t₂ grown₂ - sim₂
    have grown := grown₁.trans grown₂
    exact ih (scopes.mono grown) (callers.mono grown) (grown.1 i j linked) sim₂

theorem parameterFrame_pairs (sim : K.Sim W s t) (binding : Mixin.Binding) (span : Span) :
    K.Pairs setting W s t (parameterFrame binding scope caller span)
      (parameterFrame binding scope' caller' span) fun W' i j => W'.ids i j := by
  have blank : K.FrameLink W Frame.empty Frame.empty :=
    ⟨.nil, rfl, .nil⟩
  refine .bind (addFrame_ties sim blank rfl rfl) ?_
  intro W₁ i j s₁ t₁ grown₁ linked sim₁
  refine .bind (defineParams_pairs lawful (scopes.mono grown₁) (callers.mono grown₁) linked sim₁
    span binding.bindings) ?_
  rintro W₂ _ _ s₂ t₂ grown₂ - sim₂
  refine .bind (define_pairs sim₂ (grown₂.1 i j linked) "arguments" _ span) ?_
  rintro W₃ _ _ s₃ t₃ grown₃ - sim₃
  exact .pure (grown₃.1 i j (grown₂.1 i j linked)) sim₃

end

theorem defaultGroup_pairs (lawful : K.Lawful setting) (callable : K.CallableLink c c')
    (envs : EnvLink W env env') (sim : K.Sim W s t) :
    K.Pairs setting W s t (defaultGroup c env) (defaultGroup c' env') fun _ a b => a = b := by
  have same := sim.sameScope lawful envs
  suffices alike : Alike (K.SiteLink W) False env env' setting s t (defaultGroup c env)
      (defaultGroup c' env') from
    sim.pairs_of_alike alike (defaultGroup_quiet c env) (defaultGroup_quiet c' env')
  unfold defaultGroup
  rw [callable.guard, callable.name]
  split
  · exact .pure same
  · rename_i guard _
    have holds : ∀ s t, SameScope (K.SiteLink W) False env env' s t →
        Alike (K.SiteLink W) False env env' setting s t (guardHolds env guard)
          (guardHolds env' guard) := fun _ _ => guardHolds_alike guard
    split
    · refine .bind (answeringDefault_alike false holds same) fun without _ _ same => ?_
      refine .bind (answeringDefault_alike true holds same) fun alone _ _ same => ?_
      cases without <;> cases alone <;> exact .pure same
    · refine .bind (holds _ _ same) fun isTrue _ _ same => ?_
      split
      · exact .pure same
      · exact Tied.change (Alike.pure { same with })

/-- The candidates that matched belong together. -/
structure MatchedLink (K : Coupling) (W : World) (m m' : MatchedCandidate) : Prop where
  callable : K.CallableLink m.callable m'.callable
  scope : EnvLink W m.scope m'.scope
  params : W.ids m.params m'.params
  group : m'.group = m.group

theorem MatchedLink.mono (link : K.MatchedLink W m m') (grown : W ≤ W') :
    K.MatchedLink W' m m' where
  callable := link.callable
  scope := link.scope.mono grown
  params := grown.1 _ _ link.params
  group := link.group

/-- What became of a candidate is the same in both. -/
inductive OutcomeLink (K : Coupling) (W : World) :
    Except Mixin.MatchFailure (Option MatchedCandidate) →
      Except Mixin.MatchFailure (Option MatchedCandidate) → Prop where
  | refused (failure : Mixin.MatchFailure) : OutcomeLink K W (.error failure) (.error failure)
  | barred : OutcomeLink K W (.ok none) (.ok none)
  | taken {m m' : MatchedCandidate} (link : K.MatchedLink W m m') :
      OutcomeLink K W (.ok (some m)) (.ok (some m'))

theorem matchCandidate_pairs (lawful : K.Lawful setting) (candidate : K.CandidateLink W c c')
    (callers : EnvLink W caller caller') (sim : K.Sim W s t) (args : List Argument) (span : Span) :
    K.Pairs setting W s t (matchCandidate caller args span c) (matchCandidate caller' args span c')
      K.OutcomeLink := by
  unfold matchCandidate
  rw [candidate.callable.params, candidate.callable.name]
  split
  · exact .change (.pure (.refused _) (sim.logged _ _))
  · refine .bind (parameterFrame_pairs lawful candidate.scope callers sim _ span) ?_
    intro W₁ i j s₁ t₁ grown₁ linked sim₁
    have scope : EnvLink W₁ ((c.scope.push i).capture caller) ((c'.scope.push j).capture caller') :=
      ((candidate.scope.mono grown₁).push linked).capture (callers.mono grown₁)
    refine .bind (defaultGroup_pairs lawful candidate.callable scope sim₁) ?_
    rintro W₂ group _ s₂ t₂ grown₂ rfl sim₂
    refine .pure ?_ sim₂
    cases group with
    | none => exact .barred
    | some group =>
      exact .taken ⟨candidate.callable, scope.mono grown₂, grown₂.1 i j linked, rfl⟩

/-- What became of the candidates is the same in both. -/
structure SelectionLink (K : Coupling) (W : World) (x x' : Selection) : Prop where
  matched : List.Forall₂ (K.MatchedLink W) x.matched x'.matched
  failures : x'.failures = x.failures

theorem SelectionLink.add (others : K.SelectionLink W x x')
    (first : K.OutcomeLink W outcome outcome') :
    K.SelectionLink W (x.add outcome) (x'.add outcome') := by
  cases first with
  | refused failure => exact ⟨others.matched, congrArg (failure :: ·) others.failures⟩
  | barred => exact others
  | taken link => exact ⟨.cons link others.matched, others.failures⟩

theorem OutcomeLink.mono (link : K.OutcomeLink W outcome outcome') (grown : W ≤ W') :
    K.OutcomeLink W' outcome outcome' := by
  cases link with
  | refused failure => exact .refused failure
  | barred => exact .barred
  | taken link => exact .taken (link.mono grown)

theorem matchCandidates_pairs (lawful : K.Lawful setting)
    (candidates : List.Forall₂ (K.CandidateLink W) cs cs') (callers : EnvLink W caller caller')
    (sim : K.Sim W s t) (args : List Argument) (span : Span) :
    K.Pairs setting W s t (matchCandidates caller args span cs)
      (matchCandidates caller' args span cs') K.SelectionLink := by
  induction cs generalizing cs' W s t with
  | nil =>
    cases candidates
    exact .pure ⟨.nil, rfl⟩ sim
  | cons c cs ih =>
    obtain ⟨c', cs', candidate, rest, rfl⟩ := List.forall₂_cons_left_iff.mp candidates
    rw [matchCandidates_cons, matchCandidates_cons]
    refine .bind (matchCandidate_pairs lawful candidate callers sim args span) ?_
    intro W₁ outcome outcome' s₁ t₁ grown₁ first sim₁
    have rest : List.Forall₂ (K.CandidateLink W₁) cs cs' :=
      rest.imp fun _ _ link => ⟨link.callable, link.scope.mono grown₁⟩
    refine .bind (ih rest (callers.mono grown₁) sim₁) ?_
    intro W₂ others others' s₂ t₂ grown₂ link sim₂
    exact .pure (link.add (first.mono grown₂)) sim₂

theorem chosenGroup_pairs (matched : List.Forall₂ (K.MatchedLink W) ms ms') (sim : K.Sim W s t)
    (call : MixinCall) :
    K.Pairs setting W s t (chosenGroup ms call) (chosenGroup ms' call) fun _ a b => a = b := by
  have plain : ms'.any (·.group == .plain) = ms.any (·.group == .plain) := by
    induction matched with
    | nil => rfl
    | cons first _ ih => simp only [List.any_cons, first.group, ih]
  unfold chosenGroup
  rw [plain, matched.length_eq]
  split
  · exact .pure rfl sim
  · split
    · exact .failWith _
    · exact .pure rfl sim

theorem unmatched_pairs (sim : K.Sim W s t) (call : MixinCall) (candidates : Nat)
    (failures : List Mixin.MatchFailure) :
    K.Pairs setting W s t (unmatched call candidates failures) (unmatched call candidates failures)
      fun _ a b => a = b := by
  unfold unmatched
  split
  · exact .failWith _
  · split
    · exact .failWith _
    · exact .change (.pure rfl (sim.logged _ _))

end Coupling

end StyleResolution
