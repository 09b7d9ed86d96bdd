import StyleResolution.Proofs.Mixin.Candidates

/-! # Bodies see the scope of their definition first

The body of a callable is evaluated inside its parameters, and these inside the scope in which the
callable was found: the frame that holds it with the frames around it, and the frames between that
frame and the body. Behind this scope stands the caller's environment, in the place of the
environment that the scope itself was captured in. Nothing is lost by that, since the callable was
found from the caller: what the scope had behind it, the caller's environment has somewhere too.
-/

namespace StyleResolution

open Eval

/-! ## Where candidates are found -/

/-- The path leads from the frame to the callable, with so many frames in between, outermost first:
    for each name of the path, the closure that the callable of this name has in its frame and, if
    the path goes on, a frame for its block. -/
inductive Frames.LeadsTo (store : Frames) :
    List String → FrameId → Callable → List FrameId → Prop
  | last {name : String} {id : FrameId} {c : Callable}
      (named : c ∈ (store.get id).names.callablesNamed name) :
      LeadsTo store [name] id c (closureIn (store.get id) c)
  | through {name next : String} {rest : List String} {id inner : FrameId} {outer c : Callable}
      {between : List FrameId} (named : outer ∈ (store.get id).names.callablesNamed name)
      (isNamespace : outer.isNamespace = true) (inside : inner < store.size)
      (block : (store.get inner).rules = Placed.ofBlock outer.site outer.rules)
      (leads : LeadsTo store (next :: rest) inner c between) :
      LeadsTo store (name :: next :: rest) id c
        (closureIn (store.get id) outer ++ inner :: between)

/-- The path leads to the candidate from a frame of the environment. The scope of the candidate has
    the frames in between, this frame and those around it, and what was captured there. -/
inductive Candidate.FoundFrom (store : Frames) (env : Environment) (path : List String) :
    Candidate → Prop
  | intro {nearer : List (List FrameId)} {inner outer : List FrameId} {id : FrameId}
      {captured : List (List FrameId)} {c : Callable} {between : List FrameId}
      (stacked : env.allStacks = nearer ++ (inner ++ id :: outer) :: captured)
      (leads : store.LeadsTo path id c between) :
      FoundFrom store env path ⟨c, ⟨between.reverse ++ id :: outer, captured⟩⟩

/-- The environment of a body: its frame, the frame of its parameters, the frames of the candidate's
    scope, and then the caller's environment. -/
def Candidate.bodyEnvironment (c : Candidate) (caller : Environment) (params body : FrameId) :
    Environment :=
  ((c.scope.push params).capture caller).push body

/-! ## Looking names up -/

theorem Frames.variableIn_append (store : Frames) (name : String) (ids later : List FrameId) :
    store.variableIn name (ids ++ later) =
      (store.variableIn name ids).or (store.variableIn name later) := by
  induction ids with
  | nil => rfl
  | cons id ids ih =>
    simp only [List.cons_append, Frames.variableIn, ih]
    cases (store.get id).names.definitionOf name <;> rfl

theorem Frames.variableIn_isSome {store : Frames} : (store.variableIn name ids).isSome = true ↔
      ∃ id ∈ ids, ((store.get id).names.definitionOf name).isSome = true := by
  induction ids with
  | nil => simp [Frames.variableIn]
  | cons id ids ih =>
    cases found : (store.get id).names.definitionOf name with
    | none => simp [Frames.variableIn, found, ih]
    | some v => simp [Frames.variableIn, found]

namespace Candidate

variable {store : Frames} {env : Environment} {path : List String} {c : Candidate}

theorem bodyEnvironment_chain (c : Candidate) (env : Environment) (params body : FrameId) :
    (c.bodyEnvironment env params body).chain = [body, params] ++ (c.scope.frames ++ env.chain) := by
  simp [bodyEnvironment, Environment.chain, Environment.allStacks, Environment.push,
    Environment.capture]

/-- A name that neither the body nor its parameters define means what the scope of the definition
    says, or else what the caller says. -/
theorem resolve_bodyEnvironment (c : Candidate) (env : Environment)
    (foreign : store.variableIn name [body, params] = none) :
    (c.bodyEnvironment env params body).resolve store name =
      (store.variableIn name c.scope.frames).or (env.resolve store name) := by
  rw [Environment.resolve, bodyEnvironment_chain, Frames.variableIn_append, foreign,
    Frames.variableIn_append, Environment.resolve, Option.none_or]

/-- What stands behind the scope of a candidate stands somewhere in the caller's environment. -/
theorem FoundFrom.captured_subset (found : c.FoundFrom store env path) :
    c.scope.captured.flatten ⊆ env.chain := by
  obtain ⟨stacked, leads⟩ := found
  rw [Environment.chain, stacked]
  intro id member
  simp only [List.flatten_append, List.flatten_cons, List.mem_append]
  exact .inr (.inr member)

theorem FoundFrom.resolve_isSome (found : c.FoundFrom store env path)
    (visible : (c.scope.resolve later name).isSome = true) (params body : FrameId) :
    ((c.bodyEnvironment env params body).resolve later name).isSome = true := by
  rw [Environment.resolve, Frames.variableIn_isSome] at visible ⊢
  obtain ⟨id, member, defined⟩ := visible
  have among : id ∈ c.scope.frames ∨ id ∈ c.scope.captured.flatten := by
    simpa [Environment.chain, Environment.allStacks] using member
  refine ⟨id, ?_, defined⟩
  rw [bodyEnvironment_chain]
  cases among with
  | inl own => simp [own]
  | inr behind => simp [found.captured_subset behind]

end Candidate

/-! ## Searching -/

theorem Frames.lt_size_of_named {store : Frames} {id : FrameId} {name : String} {c : Callable}
    (named : c ∈ (store.get id).names.callablesNamed name) : id < store.size := by
  rcases Nat.lt_or_ge id store.size with inside | outside
  · exact inside
  · rw [Frames.get_of_size_le outside] at named
    cases named

theorem Eval.closureIn_of_indexed (indexed : f.Indexed f') (c : Callable) :
    closureIn f' c = closureIn f c := by
  cases c <;> simp [closureIn, FrameData.closureOf, indexed.closures]

theorem Frames.LeadsTo.moved {limit : Nat} {s t : Evaluation} {path : List String} {id : FrameId}
    {c : Callable} {between : List FrameId} (leads : s.frames.LeadsTo path id c between)
    (same : Local limit none Frame.Grown s t) : t.frames.LeadsTo path id c between := by
  induction leads with
  | last named =>
    have indexed := same.other _ (Frames.lt_size_of_named named) (by simp)
    rw [← closureIn_of_indexed indexed]
    exact .last (by rwa [indexed.names])
  | through named isNamespace inside block leads ih =>
    have indexed := same.other _ (Frames.lt_size_of_named named) (by simp)
    have blockToo := (same.other _ inside (by simp)).rules.trans block
    rw [← closureIn_of_indexed indexed]
    exact .through (by rwa [indexed.names]) isNamespace (Nat.lt_of_lt_of_le inside same.size)
      blockToo ih

namespace Eval

variable {setting : Setting} {s : Evaluation}

/-- The search never fails, and the path leads to whatever it finds. -/
abbrev FindsFrom (setting : Setting) (s : Evaluation) (path : List String) (id : FrameId)
    (x : Eval (List Reached)) : Prop :=
  Ends setting s x (fun found t => ∀ r ∈ found, t.frames.LeadsTo path id r.callable r.between)
    fun _ _ => False

theorem searchNamespaces_leads {search : FrameId → Eval (List Reached)} {next : String}
    {rest : List String} (keeps : ∀ id, KeepsLocal setting none (search id))
    (leads : ∀ id t, FindsFrom setting t (next :: rest) id (search id)) {name : String}
    {id : FrameId} {f : Frame} {cs : List Callable} (kept : f.Indexed (s.frames.get id))
    (namespaces : ∀ c ∈ cs,
      c ∈ (s.frames.get id).names.callablesNamed name ∧ c.isNamespace = true) :
    FindsFrom setting s (name :: next :: rest) id (searchNamespaces search f cs) := by
  induction cs generalizing s with
  | nil => exact Ends.pure (by simp)
  | cons c cs ih =>
    obtain ⟨named, isNamespace⟩ := namespaces c List.mem_cons_self
    have inside := Frames.lt_size_of_named named
    have added := @addFrame_apply_local setting (Frame.ofBlock c.site c.rules 0) s
    have new := Frames.get_add_self s.frames (Frame.ofBlock c.site c.rules 0)
    have size := Frames.size_add s.frames (Frame.ofBlock c.site c.rules 0)
    apply Ends.bind_of_ok (addFrame_apply _ setting s)
    apply Ends.bind ((leads s.frames.size _).and ((keeps s.frames.size).ends setting _)) ?_
      fun _ _ never => never.1
    rintro found t ⟨foundLeads, moved⟩
    have sofar := added.trans moved
    have indexed := sofar.other id inside (by simp)
    have others : FindsFrom setting t (name :: next :: rest) id (searchNamespaces search f cs) := by
      apply ih (kept.trans indexed)
      intro c' later
      rw [indexed.names]
      exact namespaces c' (List.mem_cons_of_mem c later)
    apply Ends.bind (others.and ((searchNamespaces_local keeps f cs).ends setting t)) ?_
      fun _ _ never => never.1
    rintro others u ⟨othersLead, movedToo⟩
    apply Ends.pure
    intro r member
    rcases List.mem_append.mp member with first | second
    · obtain ⟨r, reached, rfl⟩ := List.mem_map.mp first
      have block : (t.frames.get s.frames.size).rules = Placed.ofBlock c.site c.rules := by
        rw [(moved.other s.frames.size (by simp [size]) (by simp)).rules, new, Frame.rules_ofBlock]
      have through : t.frames.LeadsTo (name :: next :: rest) id r.callable
          (closureIn (t.frames.get id) c ++ s.frames.size :: r.between) :=
        .through (by rwa [indexed.names]) isNamespace
          (Nat.lt_of_lt_of_le (by simp [size]) moved.size) block (foundLeads r reached)
      rw [closureIn_of_indexed (kept.trans indexed)] at through
      exact through.moved movedToo
    · exact othersLead r second

theorem searchFrame_leads : ∀ (path : List String) (id : FrameId) (s : Evaluation),
    FindsFrom setting s path id (searchFrame path id)
  | [], _, _ => Ends.pure (by simp)
  | [name], id, s => by
      apply Ends.bind ((consult_ends id).and ((consult_quiet id).ends setting s)) ?_
        fun _ _ never => never.1
      rintro index t ⟨rfl, quiet⟩
      apply Ends.ofState
      apply Ends.pure
      intro r member
      obtain ⟨c, named, rfl⟩ := List.mem_map.mp member
      exact .last (by rwa [(quiet.frame id).names])
  | name :: next :: rest, id, s => by
      apply Ends.bind ((consult_ends id).and ((consult_quiet id).ends setting s)) ?_
        fun _ _ never => never.1
      rintro index t ⟨rfl, quiet⟩
      apply Ends.ofState
      apply searchNamespaces_leads (searches_local.searchFrame (next :: rest))
        (searchFrame_leads (next :: rest)) (.refl _)
      intro c member
      rw [(quiet.frame id).names]
      exact List.mem_filter.mp member

/-- Searching stacks never fails, and whatever is found is found from the environment. -/
abbrev FindsCandidates (setting : Setting) (s : Evaluation) (env : Environment)
    (path : List String) (x : Eval (List Candidate)) : Prop :=
  Ends setting s x (fun found t => ∀ c ∈ found, c.FoundFrom t.frames env path) fun _ _ => False

theorem searchStack_found {env : Environment} (path : List String)
    {nearer : List (List FrameId)} {captured : List (List FrameId)} {inner stack : List FrameId}
    (stacked : env.allStacks = nearer ++ (inner ++ stack) :: captured) :
    FindsCandidates setting s env path (searchStack path captured stack) := by
  induction stack generalizing s inner with
  | nil => exact Ends.pure (by simp)
  | cons id outer ih =>
    apply Ends.seq (searchFrame_leads path id s) ?_
    intro found t leads
    split
    · exact @ih t (inner ++ [id]) (by simpa using stacked)
    · apply Ends.pure
      intro c member
      obtain ⟨r, reached, rfl⟩ := List.mem_map.mp member
      exact .intro stacked (leads r reached)

theorem searchStacks_found {env : Environment} (path : List String)
    {nearer stacked : List (List FrameId)} (all : env.allStacks = nearer ++ stacked) :
    FindsCandidates setting s env path (searchStacks path stacked) := by
  induction stacked generalizing s nearer with
  | nil => exact Ends.pure (by simp)
  | cons stack captured ih =>
    apply Ends.seq (@searchStack_found setting s env path nearer captured [] stack all) ?_
    intro found t foundFrom
    split
    · exact @ih t (nearer ++ [stack]) (by simpa using all)
    · exact .pure foundFrom

theorem findCandidates_found (env : Environment) (path : List String) :
    FindsCandidates setting s env path (findCandidates env path) :=
  @searchStacks_found setting s env path [] _ rfl

/-! ## Bodies -/

/-- A candidate that takes the arguments has its parameters in front of its scope, and the caller
    behind it. -/
theorem matchCandidates_scope (caller : Environment) (args : List Argument) (span : Span)
    (candidates : List Candidate) :
    Ends setting s (matchCandidates caller args span candidates)
      (fun selection _ => ∀ m ∈ selection.matched,
        ∃ c ∈ candidates, m.scope = (c.scope.push m.params).capture caller) fun _ _ => True := by
  induction candidates generalizing s with
  | nil => exact Ends.pure (by simp)
  | cons c rest ih =>
    have first : Ends setting s (matchCandidate caller args span c)
        (fun outcome _ => ∀ m, outcome = .ok (some m) →
          m.scope = (c.scope.push m.params).capture caller) fun _ _ => True := by
      unfold matchCandidate
      split
      · exact Ends.change (Ends.pure (by simp))
      · apply Ends.bind_of_run (fun params t _ => ?_) fun _ _ _ => trivial
        apply Ends.bind_of_run (fun group u _ => ?_) fun _ _ _ => trivial
        apply Ends.pure
        intro m same
        cases group with
        | none => cases same
        | some group =>
          cases same
          rfl
    apply Ends.seq first ?_
    intro outcome t own
    apply Ends.seq ih ?_
    intro others u later
    have weaker : ∀ m ∈ others.matched,
        ∃ c' ∈ c :: rest, m.scope = (c'.scope.push m.params).capture caller := by
      intro m member
      obtain ⟨c', among, scope⟩ := later m member
      exact ⟨c', List.mem_cons_of_mem c among, scope⟩
    split
    · exact .pure weaker
    · exact .pure weaker
    · rename_i m
      apply Ends.pure
      intro m' member
      rcases List.mem_cons.mp member with rfl | member
      · exact ⟨c, List.mem_cons_self, own _ rfl⟩
      · exact weaker m' member

theorem expandAll_congr
    (same : ∀ m ∈ ms, ∀ body ctx, evaluate (m.scope.push body) ctx = evaluate' (m.scope.push body) ctx)
    (ctx : Context) (nesting : Nat) (caller : Option FrameId) :
    expandAll evaluate ctx nesting caller ms = expandAll evaluate' ctx nesting caller ms := by
  induction ms with
  | nil => rfl
  | cons m ms ih =>
    have body : evaluateBody evaluate ctx nesting m = evaluateBody evaluate' ctx nesting m := by
      simp only [evaluateBody, same m List.mem_cons_self]
    have later := ih fun m' member => same m' (List.mem_cons_of_mem m member)
    simp only [expandAll, expandBody, body, later]

theorem resolveCall_congr (evaluated : evaluateArguments env call.args setting s = (.ok args, t))
    (found : findCandidates env call.path setting t = (.ok candidates, u))
    (same : ∀ c ∈ candidates, ∀ params body ctx,
      evaluate (c.bodyEnvironment env params body) ctx =
        evaluate' (c.bodyEnvironment env params body) ctx)
    (ctx : Context) (nesting : Nat) : resolveCall evaluate env ctx nesting call setting s =
      resolveCall evaluate' env ctx nesting call setting s := by
  unfold resolveCall
  rw [bind_of_ok evaluated, bind_of_ok evaluated, bind_of_ok found, bind_of_ok found]
  split
  · rfl
  · simp only [bind_apply, emit, change]
    have scopes := @matchCandidates_scope setting
      { u with events := u.events.push (.candidates candidates.length call.text) } env args
      call.span candidates
    rcases run : matchCandidates env args call.span candidates setting
      { u with events := u.events.push (.candidates candidates.length call.text) } with
      ⟨f | selection, w⟩
    · rfl
    · dsimp only
      split
      · rfl
      · simp only [bind_apply]
        rcases chosenGroup selection.matched call setting w with ⟨f | group, w'⟩
        · rfl
        · dsimp only
          rw [expandAll_congr fun m member body ctx => ?_]
          obtain ⟨c, among, scope⟩ := scopes.result run m (List.mem_filter.mp member).1
          rw [scope]
          exact same c among m.params body ctx

end Eval

/-- A namespace that defines `@x` and a mixin, and a caller that was captured beside it, defines `@x`
    too, and `@y`. -/
def capturedNamespace : Evaluation :=
  { frames := ⟨#[
      Frame.ofBlock (.written 0 [])
        [.ruleset [⟨[⟨.attached, .literal "#ns"⟩]⟩]
          [.variable ⟨"x", .keyword "namespace", Span.none⟩, .mixin ⟨".m", [], none, Span.none⟩ []]
          Span.none] 0,
      Frame.ofBlock (.written 0 [1])
        [.variable ⟨"x", .keyword "caller", Span.none⟩,
          .variable ⟨"y", .keyword "caller", Span.none⟩] 0]⟩ }

def capturedNamespace.caller : Environment :=
  { frames := [1], captured := [[0]] }

def capturedNamespace.search : Except Failure (List Candidate) × Evaluation :=
  findCandidates capturedNamespace.caller ["#ns", ".m"] {} capturedNamespace

def capturedNamespace.evaluate : BlockEvaluator := fun env ctx =>
  if env.frames.drop 2 = [2, 0] then blockWithin 1 env ctx else failWith .exhausted

end StyleResolution
