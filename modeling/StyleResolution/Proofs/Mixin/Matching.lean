import Mathlib.Algebra.Order.Ring.Nat
import Mathlib.Data.List.Nodup
import Mathlib.Data.List.Perm.Subperm
import StyleResolution.Mixin.Binding

/-! # Which calls a mixin takes

What a call binds is said here position by position: every parameter has a slot, which holds the last
argument that names the parameter, or else the next positional argument, and a variadic parameter
takes the positional arguments that are left over. A call fits the parameters if there are enough
arguments and not too many, all names are known, and all slots hold what they have to hold.

Arguments are bound if and only if they fit. That no positional argument may be left over without a
variadic parameter need not be said: with no more arguments than parameters, there is a slot for each.
-/

namespace StyleResolution.Mixin

variable (params : List Param) (args : List Argument)

/-! ## Slots -/

/-- The position of the parameter that an argument names: the first one of that name that is not
    variadic. -/
def selects (arg : Argument) : Option Nat :=
  arg.name.bind fun name => params.findIdx? fun p => !p.isVariadic && p.name == some name

def namedSlot (i : Nat) : Option Value :=
  ((args.filter fun a => selects params a == some i).getLast?).map (·.value)

/-- The number of slots before a position that no named argument fills. -/
def openBefore (i : Nat) : Nat :=
  (List.range i).countP fun j => (namedSlot params args j).isNone

/-- The position of the first variadic parameter. Without one, it is behind all parameters. -/
def firstVariadic : Nat :=
  params.findIdx Param.isVariadic

/-- What the slot of the parameter at a position holds. Positional arguments fill the slots before
    the first variadic parameter that are still open. -/
def slotAt (i : Nat) : Option Value :=
  (namedSlot params args i).or
    (if i < firstVariadic params then (positionals args)[openBefore params args i]? else none)

def leftover : List Value :=
  (positionals args).drop (openBefore params args (firstVariadic params))

def namesFallback (arg : Argument) : Bool :=
  params.any fun
    | .named name _ => arg.name == some name
    | _ => false

/-- The arguments fit the parameters. -/
structure Fits : Prop where
  enough : params.countP Param.isRequired ≤ args.countP fun a => !namesFallback params a
  bounded : (∀ p ∈ params, p.isVariadic = false) → args.length ≤ params.length
  known : ∀ a ∈ args, ∀ name, a.name = some name →
    ∃ p ∈ params, p.isVariadic = false ∧ p.name = some name
  filled : ∀ i p, params[i]? = some p → p.isRequired = true → (slotAt params args i).isSome = true
  equal : ∀ i expected actual, params[i]? = some (.pattern expected) →
    slotAt params args i = some actual → expected.cssEq actual = true

def boundAt (i : Nat) : Param → List (String × Bound)
  | .positional name => (slotAt params args i).toList.map fun v => (name, .supplied v)
  | .named name fallback =>
    [(name, ((slotAt params args i).map .supplied).getD (.fallback fallback))]
  | .variadic (some name) => [(name, .supplied (.spaceList (leftover params args)))]
  | .variadic none | .pattern _ => []

variable {params args}

theorem mapIdx_self (items : List α) : items.mapIdx (fun _ item => item) = items :=
  List.ext_getElem? fun i => by simp

/-! ## Named arguments -/

theorem namedSlot_cons (a : Argument) (i : Nat) :
    namedSlot params (a :: args) i =
      (namedSlot params args i).or (if selects params a = some i then some a.value else none) := by
  unfold namedSlot
  by_cases here : selects params a = some i
  · rw [List.filter_cons_of_pos (by simpa using here), List.getLast?_cons, if_pos here]
    cases (args.filter fun a => selects params a == some i).getLast? <;> rfl
  · rw [List.filter_cons_of_neg (by simpa using here), if_neg here, Option.or_none]

theorem assignNamed_eq_ok : assignNamed params slots args = .ok named ↔
      (∀ a ∈ args, a.name.isSome = true → (selects params a).isSome = true) ∧
        named = slots.mapIdx fun i old => (namedSlot params args i).or old := by
  induction args generalizing slots with
  | nil =>
    rw [assignNamed, Except.ok.injEq, eq_comm]
    simp [namedSlot, mapIdx_self]
  | cons a args ih =>
    rw [assignNamed, List.forall_mem_cons]
    cases name : a.name with
    | none =>
      have selectsNone : selects params a = none := by rw [selects, name]; rfl
      simp [ih, namedSlot_cons, selectsNone]
    | some n =>
      have found : params.findIdx? (takesName n) = selects params a := by
        rw [selects, name]
        rfl
      cases position : selects params a with
      | none => simp [found, position]
      | some j =>
        have set : (slots.set j (some a.value)).mapIdx
            (fun i old => (namedSlot params args i).or old) =
              slots.mapIdx fun i old => (namedSlot params (a :: args) i).or old := by
          refine List.ext_getElem? fun i => ?_
          by_cases here : j = i
          · subst here
            simp only [List.getElem?_mapIdx, List.getElem?_set_self', namedSlot_cons, position,
              if_true]
            cases slots[j]? <;> simp
          · simp [namedSlot_cons, position, here]
        simp [found, position, ih, set]

/-! ## Positional arguments -/

/-- The number of open slots before a position. -/
def openIn (named : List (Option Value)) (i : Nat) : Nat :=
  (named.take i).countP Option.isNone

@[simp] theorem openIn_zero (named : List (Option Value)) : openIn named 0 = 0 := rfl

theorem openIn_cons (slot : Option Value) (named : List (Option Value)) (i : Nat) :
    openIn (slot :: named) (i + 1) = openIn named i + if slot.isNone then 1 else 0 := by
  simp [openIn, List.countP_cons]

theorem firstVariadic_cons (fixed : p.isVariadic = false) (params : List Param) :
    firstVariadic (p :: params) = firstVariadic params + 1 := by
  simp [firstVariadic, List.findIdx_cons, fixed]

/-- Positional arguments fill the open slots before the first variadic parameter. What is left over
    is the rest if there is such a parameter, and found no place otherwise. -/
theorem fillPositional_eq (same : named.length = params.length) (values : List Value) :
    fillPositional params named values =
      (named.mapIdx fun i slot =>
          slot.or (if i < firstVariadic params then values[openIn named i]? else none),
        if params.any Param.isVariadic then values.drop (openIn named (firstVariadic params)) else [],
        if params.any Param.isVariadic then []
        else values.drop (openIn named (firstVariadic params))) := by
  have fixed : ∀ {p : Param}, (∀ name, p = .variadic name → False) → p.isVariadic = false := by
    intro p other
    cases p with
    | «variadic» name => exact (other name rfl).elim
    | _ => rfl
  fun_induction fillPositional params named values with
  | case1 name ps named values =>
    have first : firstVariadic (.variadic name :: ps) = 0 := rfl
    simp only [first, Nat.not_lt_zero, if_false, Option.or_none, mapIdx_self]
    simp [Param.isVariadic]
  | case5 params named values notVariadic notFilled notEmpty notOpen =>
    -- With a slot for every parameter, none of the cases before is missed unless both lists end.
    cases params with
    | nil =>
      obtain rfl := List.eq_nil_of_length_eq_zero same
      simp [openIn]
    | cons p ps =>
      exfalso
      cases named with
      | nil => simp at same
      | cons slot named =>
        cases slot with
        | some v => exact notFilled p ps v named rfl rfl
        | none =>
          cases values with
          | nil => exact notEmpty p ps named rfl rfl rfl
          | cons v values => exact notOpen p ps named v values rfl rfl rfl
  | _ =>
    rename_i other filled rest left run ih
    have later := run.symm.trans (ih (by simpa using same))
    simp only [Prod.mk.injEq] at later
    obtain ⟨rfl, rfl, rfl⟩ := later
    simp [firstVariadic_cons (fixed other), openIn_cons, fixed other, List.mapIdx_cons]

theorem countP_namedSlot_le (n : Nat) :
    (List.range n).countP (fun i => (namedSlot params args i).isSome) ≤
      args.countP (·.name.isSome) := by
  rw [List.countP_eq_length_filter, List.countP_eq_length_filter]
  have selected : (List.range n).filter (fun i => (namedSlot params args i).isSome) ⊆
      (args.filter (·.name.isSome)).filterMap (selects params) := by
    intro i member
    have filled := (List.mem_filter.mp member).2
    rw [namedSlot, Option.isSome_map, List.getLast?_isSome] at filled
    obtain ⟨a, inside⟩ := List.exists_mem_of_ne_nil _ filled
    obtain ⟨argument, here⟩ := List.mem_filter.mp inside
    have here : selects params a = some i := by simpa using here
    have named : a.name.isSome = true := by
      cases name : a.name with
      | none => simp [selects, name] at here
      | some n => rfl
    exact List.mem_filterMap.mpr ⟨a, List.mem_filter.mpr ⟨argument, named⟩, here⟩
  exact ((List.nodup_range.filter _).subperm selected).length_le.trans (List.length_filterMap_le _ _)

theorem leftover_eq_nil (none : ∀ p ∈ params, p.isVariadic = false)
    (bounded : args.length ≤ params.length) : leftover params args = [] := by
  have behind : firstVariadic params = params.length := by
    rw [firstVariadic, List.findIdx_eq_length]
    exact none
  have slots := List.length_eq_countP_add_countP (fun i => (namedSlot params args i).isSome)
    (l := List.range params.length)
  have arguments := List.length_eq_countP_add_countP (fun a : Argument => a.name.isSome) (l := args)
  have filled := @countP_namedSlot_le params args params.length
  rw [leftover, List.drop_eq_nil_iff, behind, positionals, List.length_map, openBefore,
    ← List.countP_eq_length_filter]
  simp only [List.length_range, Option.not_isSome, decide_not, Bool.decide_eq_true] at slots arguments
  omega

/-! ## Checking the slots -/

theorem checkSlots_eq_ok : checkSlots required filled position params slots = .ok () ↔
      ∀ x ∈ params.zip slots, (x.1.isRequired = true → x.2.isSome = true) ∧
        ∀ expected actual, x.1 = .pattern expected → x.2 = some actual →
          expected.cssEq actual = true := by
  induction params generalizing slots position with
  | nil => simp [checkSlots]
  | cons p ps ih =>
    cases slots with
    | nil => simp [checkSlots]
    | cons slot slots =>
      have later := @ih (position + 1) slots
      rw [List.zip_cons_cons, List.forall_mem_cons, ← later]
      cases slot with
      | none => cases p <;> simp [checkSlots, Param.isRequired]
      | some actual =>
        cases p with
        | pattern expected => by_cases equal : expected.cssEq actual <;> simp [checkSlots, equal]
        | _ => simp [checkSlots]

/-! ## Assignments -/

def slots (params : List Param) (args : List Argument) : List (Option Value) :=
  params.mapIdx fun i _ => slotAt params args i

theorem counts_eq (a : Argument) : counts params a = !namesFallback params a := by
  unfold counts namesFallback
  cases a.name with
  | none =>
    rw [eq_comm, Bool.not_eq_true', List.any_eq_false]
    intro p _
    cases p <;> simp
  | some name =>
    change (!params.any (isNamed name)) = _
    congr 2
    funext p
    cases p with
    | named n fallback => simp [isNamed, eq_comm]
    | _ => rfl

theorem known_iff : (∀ a ∈ args, a.name.isSome = true → (selects params a).isSome = true) ↔
    ∀ a ∈ args, ∀ name, a.name = some name →
      ∃ p ∈ params, p.isVariadic = false ∧ p.name = some name := by
  refine forall₂_congr fun a _ => ?_
  cases name : a.name with
  | none => simp
  | some n => simp [selects, name]

theorem mapIdx_namedSlot :
    ((List.replicate params.length none).mapIdx fun i old => (namedSlot params args i).or old) =
      (List.range params.length).map (namedSlot params args) := by
  refine List.ext_getElem? fun i => ?_
  by_cases inside : i < params.length
  · simp [inside]
  · simp [inside]

theorem openIn_namedSlot (inside : i ≤ params.length) :
    openIn ((List.range params.length).map (namedSlot params args)) i = openBefore params args i := by
  rw [openIn, ← List.map_take, List.take_range, Nat.min_eq_left inside, List.countP_map]
  rfl

/-- Named and positional arguments together fill the slots, and every argument finds a place. -/
theorem fillPositional_namedSlot
    (bounded : (∀ p ∈ params, p.isVariadic = false) → args.length ≤ params.length) :
    fillPositional params ((List.range params.length).map (namedSlot params args))
        (positionals args) = (slots params args, leftover params args, []) := by
  have filled : (((List.range params.length).map (namedSlot params args)).mapIdx fun i slot =>
      slot.or (if i < firstVariadic params then
        (positionals args)[openIn ((List.range params.length).map (namedSlot params args)) i]?
      else none)) = slots params args := by
    refine List.ext_getElem? fun i => ?_
    by_cases inside : i < params.length
    · simp [slots, inside, openIn_namedSlot (Nat.le_of_lt inside), slotAt]
    · simp [slots, inside]
  have inside : firstVariadic params ≤ params.length := List.findIdx_le_length
  rw [fillPositional_eq (by simp), filled, openIn_namedSlot inside, ← leftover]
  split
  · rfl
  · rename_i none
    have none : ∀ p ∈ params, p.isVariadic = false := by simpa using none
    rw [leftover_eq_nil none (bounded none)]

theorem zip_slots :
    params.zip (slots params args) = params.mapIdx fun i p => (p, slotAt params args i) := by
  refine List.ext_getElem? fun i => ?_
  by_cases inside : i < params.length
  · simp [slots, inside]
  · simp [slots, inside]

theorem checkSlots_slots : checkSlots required filled position params (slots params args) = .ok () ↔
      (∀ i p, params[i]? = some p → p.isRequired = true → (slotAt params args i).isSome = true) ∧
        ∀ i expected actual, params[i]? = some (.pattern expected) →
          slotAt params args i = some actual → expected.cssEq actual = true := by
  rw [checkSlots_eq_ok, zip_slots]
  constructor
  · intro checked
    have at_ : ∀ {i p}, params[i]? = some p → (p, slotAt params args i) ∈
        params.mapIdx fun i p => (p, slotAt params args i) := by
      intro i p here
      obtain ⟨inside, rfl⟩ := List.getElem?_eq_some_iff.mp here
      exact List.mem_mapIdx.mpr ⟨i, inside, rfl⟩
    exact ⟨fun i p here => (checked _ (at_ here)).1, fun i expected actual here =>
      (checked _ (at_ here)).2 expected actual rfl⟩
  · rintro ⟨filled, equal⟩ x member
    obtain ⟨i, inside, rfl⟩ := List.mem_mapIdx.mp member
    have here := List.getElem?_eq_getElem inside
    refine ⟨filled i _ here, fun expected actual isPattern => ?_⟩
    exact equal i expected actual (here.trans (congrArg some isPattern))

theorem assign_eq_ok : assign params args = .ok a ↔
    params.countP Param.isRequired ≤ args.countP (counts params) ∧
    (params.any Param.isVariadic = false → args.length ≤ params.countP (!·.isVariadic)) ∧
    ∃ named, assignNamed params (List.replicate params.length none) args = .ok named ∧
      let (slots, rest, left) := fillPositional params named (positionals args)
      left = [] ∧
        checkSlots (params.countP Param.isRequired) (slots.countP Option.isSome) 0 params slots =
          .ok () ∧ a = ⟨slots, rest⟩ := by
  have continues : ∀ {c : Prop} [Decidable c] {f : MatchFailure} {x : Except MatchFailure Assignment},
      (if c then throw f >>= fun (_ : PUnit) => x else x) = .ok a ↔ ¬ c ∧ x = .ok a := by
    intro c _ f x
    by_cases stops : c
    · rw [if_pos stops]
      exact iff_of_false (by intro h; cases h) fun h => h.1 stops
    · rw [if_neg stops, and_iff_right stops]
  unfold assign
  dsimp only
  rw [continues, continues]
  refine and_congr Nat.not_lt (and_congr ?_ ?_)
  · cases params.any Param.isVariadic <;> simp
  · cases run : assignNamed params (List.replicate params.length none) args with
    | error f => exact iff_of_false (by intro h; cases h) (by rintro ⟨_, h, _⟩; cases h)
    | ok named =>
      change (if _ then _ else _) = _ ↔ _
      rw [continues]
      simp only [Except.ok.injEq, exists_eq_left']
      refine and_congr (by simp) ?_
      cases checkSlots _ _ 0 params (fillPositional params named (positionals args)).1 with
      | error f => exact iff_of_false (by intro h; cases h) (by rintro ⟨h, _⟩; cases h)
      | ok =>
        change Except.ok _ = Except.ok a ↔ _
        simp [eq_comm]

theorem assign_iff_fits : assign params args = .ok a ↔
    Fits params args ∧ a = ⟨slots params args, leftover params args⟩ := by
  have variadic : params.any Param.isVariadic = false ↔ ∀ p ∈ params, p.isVariadic = false := by
    simp
  have fixed : params.any Param.isVariadic = false → params.countP (!·.isVariadic) = params.length :=
    fun none => List.countP_eq_length.mpr fun p member => by simp [variadic.mp none p member]
  have counted : args.countP (counts params) = args.countP fun a => !namesFallback params a :=
    List.countP_congr fun a _ => by rw [counts_eq]
  rw [assign_eq_ok]
  simp only [assignNamed_eq_ok, known_iff, counted]
  constructor
  · rintro ⟨enough, within, _, ⟨known, rfl⟩, h⟩
    have bounded : (∀ p ∈ params, p.isVariadic = false) → args.length ≤ params.length := by
      rw [← variadic]
      exact fun none => (within none).trans_eq (fixed none)
    rw [mapIdx_namedSlot, fillPositional_namedSlot bounded] at h
    obtain ⟨-, checked, rfl⟩ := h
    obtain ⟨filled, equal⟩ := checkSlots_slots.mp checked
    exact ⟨⟨enough, bounded, known, filled, equal⟩, rfl⟩
  · rintro ⟨fits, rfl⟩
    refine ⟨fits.enough, fun none => ?_, _, ⟨fits.known, rfl⟩, ?_⟩
    · rw [fixed none]
      exact fits.bounded (variadic.mp none)
    · rw [mapIdx_namedSlot, fillPositional_namedSlot fits.bounded]
      exact ⟨rfl, checkSlots_slots.mpr ⟨fits.filled, fits.equal⟩, rfl⟩

/-! ## Bindings -/

theorem bindParam_slotAt (i : Nat) (p : Param) :
    bindParam (leftover params args) p (slotAt params args i) = boundAt params args i p := by
  unfold bindParam boundAt
  cases p with
  | «variadic» name => cases name <;> rfl
  | pattern v => rfl
  | _ => cases slotAt params args i <;> rfl

theorem bind_of_assign (assigned : assign params args = .ok ⟨slots params args, leftover params args⟩) :
    bind params args =
      .ok ⟨(params.mapIdx (boundAt params args)).flatten, args.map (·.value)⟩ := by
  have bindings : ((params.zip (slots params args)).flatMap fun x =>
      bindParam (leftover params args) x.1 x.2) = (params.mapIdx (boundAt params args)).flatten := by
    rw [zip_slots, List.flatMap_def]
    refine congrArg List.flatten (List.ext_getElem? fun i => ?_)
    simp only [List.getElem?_map, List.getElem?_mapIdx, Option.map_map, Function.comp_def,
      bindParam_slotAt]
  unfold bind
  rw [assigned, ← bindings]
  rfl

/-- A call is taken if and only if its arguments fit the parameters, and it is bound if and only if
    it is taken. Then every parameter binds what its slot holds, or else its fallback as it is written,
    in the order of the parameters, and a variadic parameter binds what is left over. -/
theorem arguments_bind_when_they_fit (params : List Param) (args : List Argument) :
    (accepts params args = true ↔ Fits params args) ∧
      (bind params args).toOption =
        if accepts params args then
          some ⟨(params.mapIdx (boundAt params args)).flatten, args.map (·.value)⟩
        else none := by
  cases run : assign params args with
  | error f =>
    have accepted : accepts params args = false := by rw [accepts, run]
    have bound : bind params args = .error f := by rw [bind, run]; rfl
    have unfit : ¬ Fits params args := fun fits => by
      rw [assign_iff_fits.mpr ⟨fits, rfl⟩] at run
      cases run
    simp [accepted, bound, unfit, Except.toOption]
  | ok a =>
    obtain ⟨fits, rfl⟩ := assign_iff_fits.mp run
    have accepted : accepts params args = true := by rw [accepts, run]
    simp [accepted, fits, bind_of_assign run, Except.toOption]

/-- The second `@a` counts, `2` goes to the slot before the variadic parameter that is still open, and
    the parameter behind it has to be named. -/
example : bind [.positional "a", .positional "b", .variadic (some "more"), .positional "c"]
    [⟨some "a", .keyword "0"⟩, ⟨none, .keyword "2"⟩, ⟨some "c", .keyword "3"⟩, ⟨none, .keyword "4"⟩,
      ⟨some "a", .keyword "1"⟩] =
    .ok ⟨[("a", .supplied (.keyword "1")), ("b", .supplied (.keyword "2")),
      ("more", .supplied (.spaceList [.keyword "4"])), ("c", .supplied (.keyword "3"))],
      [.keyword "0", .keyword "2", .keyword "3", .keyword "4", .keyword "1"]⟩ := by
  rfl

end StyleResolution.Mixin
