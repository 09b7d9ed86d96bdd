import StyleResolution.Scope.Site

/-!
# Frames

A frame is one lexical scope: the rules of a block, each with its import nesting, that is, how
many imports deep the file was that it came from. Imports and mixin expansions change the rules of
a frame by splicing. Names are looked up in an index of the rules that is built on the first
look-up after a change and dropped by the next change.

Within a frame the last definition of a name wins. A mixin definition that an expansion exported
into the frame keeps the frames of that expansion as its closure.
-/

namespace StyleResolution

/-- The number of a frame. -/
abbrev FrameId := Nat

/-- A rule of a frame with its import nesting. -/
structure Entry extends Placed where
  nesting : Nat
  deriving Repr

/-- The names that the rules of a frame define. -/
structure Index where
  definitions : List (String × Variable)
  /-- In document order. -/
  callables : List Callable
  deriving Repr

namespace Index

def empty : Index :=
  ⟨[], []⟩

/-- Records the value of a key in place of an earlier one. -/
def assign {α : Type} (key : String) (value : α) : List (String × α) → List (String × α)
  | [] => [(key, value)]
  | (k, v) :: rest => if k == key then (key, value) :: rest else (k, v) :: assign key value rest

/-- Records what a rule defines. -/
def add (index : Index) (p : Placed) : Index :=
  match p.asVariable, p.asCallable with
  | some v, _ => { index with definitions := assign v.definition.name v index.definitions }
  | none, some c => { index with callables := index.callables ++ [c] }
  | none, none => index

def ofRules (rules : List Placed) : Index :=
  rules.foldl add empty

def definitionOf (index : Index) (name : String) : Option Variable :=
  index.definitions.lookup name

/-- The callables that a call by this name means, in document order. -/
def callablesNamed (index : Index) (name : String) : List Callable :=
  index.callables.filter (·.answersTo name)

end Index

/-- What a scope holds. Its rules and the import nesting of each are two lists side by side, which are
    spliced one after the other; nothing here says that they are equally long. -/
structure FrameData where
  rules : List Placed
  nestings : List Nat
  /-- The import nesting of the block itself. -/
  base : Nat
  /-- The index, if it was built since the last change. -/
  index : Option Index := none
  /-- The number of changes so far. -/
  revision : Nat := 0
  /-- The closures of exported mixins, newest first. -/
  closures : List (Site × List FrameId) := []
  deriving Repr

namespace FrameData

/-- The rules of a block found `nesting` imports deep. -/
def ofPlaced (rules : List Placed) (nesting : Nat) : FrameData :=
  { rules, nestings := List.replicate rules.length nesting, base := nesting }

def empty : FrameData :=
  ofPlaced [] 0

def size (d : FrameData) : Nat :=
  d.rules.length

/-- The import nesting at a position; past the end it is that of the block. -/
def nestingAt (d : FrameData) (position : Nat) : Nat :=
  d.nestings[position]?.getD d.base

/-- The list with its items from `start` up to `stop` replaced by others. -/
def replaced {α : Type} (start stop : Nat) (new items : List α) : List α :=
  items.take start ++ new ++ items.drop stop

/-- Replaces `remove` rules from a position on by rules loaded `nesting` imports deep. Positions
    behind the last rule count as the end. -/
def spliceAt (d : FrameData) (position remove : Nat) (rules : List Placed) (nesting : Nat) :
    FrameData :=
  let stop := min (position + remove) d.rules.length
  let start := min position stop
  { d with
    nestings := replaced start stop (List.replicate rules.length nesting) d.nestings
    rules := replaced start stop rules d.rules
    index := none
    revision := d.revision + 1 }

/-- Replaces rules by others, which take the nesting of the first rule they replace, or of the
    block if they replace none. -/
def splice (d : FrameData) (position remove : Nat) (rules : List Placed) : FrameData :=
  d.spliceAt position remove rules (if 0 < remove then d.nestingAt position else d.base)

/-- Adds a rule at the end. -/
def push (d : FrameData) (rule : Placed) : FrameData :=
  d.splice d.size 0 [rule]

/-- Adds rules in front, so that the block's own definitions still win. -/
def prepend (d : FrameData) (rules : List Placed) : FrameData :=
  if rules.isEmpty then d else d.splice 0 0 rules

/-- The closure of an exported mixin; the newest one counts. -/
def closureOf (d : FrameData) (site : Site) : Option (List FrameId) :=
  d.closures.lookup site

/-- Whether the rule is a mixin definition. -/
def isMixin : Rule → Bool
  | .mixin _ _ => true
  | _ => false

/-- Keeps the closures of mixins that an expansion exported out of `source`: `closure`, unless they
    already had one there. -/
def enclose (d : FrameData) (rules : List Placed) (closure : List FrameId) (source : FrameData) :
    FrameData :=
  let closed := (rules.filter fun p => isMixin p.rule).map fun p =>
    (p.site, (source.closureOf p.site).getD closure)
  { d with closures := closed.reverse ++ d.closures }

/-- Adds definitions that an expansion exported out of `source`. -/
def prependExports (d : FrameData) (rules : List Placed) (closure : List FrameId)
    (source : FrameData) : FrameData :=
  (d.enclose rules closure source).prepend rules

/-- The index: the one kept, or a new one. -/
def names (d : FrameData) : Index :=
  d.index.getD (Index.ofRules d.rules)

def indexed (d : FrameData) : FrameData :=
  { d with index := some d.names }

def Parallel (d : FrameData) : Prop :=
  d.nestings.length = d.rules.length

namespace Parallel

variable {d : FrameData}

theorem ofPlaced (rules : List Placed) (nesting : Nat) : (FrameData.ofPlaced rules nesting).Parallel :=
  List.length_replicate

theorem spliceAt (h : d.Parallel) (position remove : Nat) (rules : List Placed) (nesting : Nat) :
    (d.spliceAt position remove rules nesting).Parallel := by
  unfold Parallel at h ⊢
  simp [FrameData.spliceAt, replaced, h]

theorem prepend (h : d.Parallel) (rules : List Placed) : (d.prepend rules).Parallel := by
  unfold FrameData.prepend
  split
  · exact h
  · exact h.spliceAt ..

end Parallel

end FrameData

/-- One lexical scope. -/
structure Frame extends FrameData where
  parallel : toFrameData.Parallel
  deriving Repr

namespace Frame

/-- A frame for the rules of a block found `nesting` imports deep. -/
def ofPlaced (rules : List Placed) (nesting : Nat) : Frame :=
  ⟨.ofPlaced rules nesting, .ofPlaced rules nesting⟩

def ofBlock (site : Site) (rules : List Rule) (nesting : Nat) : Frame :=
  ofPlaced (Placed.ofBlock site rules) nesting

/-- A frame without rules. -/
def empty : Frame :=
  ofPlaced [] 0

def entries (f : Frame) : List Entry :=
  f.rules.zipWith Entry.mk f.nestings

def entryAt (f : Frame) (position : Nat) : Option Entry :=
  f.rules[position]?.map fun rule => ⟨rule, f.nestingAt position⟩

@[inherit_doc FrameData.spliceAt]
def spliceAt (f : Frame) (position remove : Nat) (rules : List Placed) (nesting : Nat) : Frame :=
  ⟨f.toFrameData.spliceAt position remove rules nesting, f.parallel.spliceAt ..⟩

@[inherit_doc FrameData.splice]
def splice (f : Frame) (position remove : Nat) (rules : List Placed) : Frame :=
  ⟨f.toFrameData.splice position remove rules, f.parallel.spliceAt ..⟩

@[inherit_doc FrameData.push]
def push (f : Frame) (rule : Placed) : Frame :=
  ⟨f.toFrameData.push rule, f.parallel.spliceAt ..⟩

@[inherit_doc FrameData.prepend]
def prepend (f : Frame) (rules : List Placed) : Frame :=
  ⟨f.toFrameData.prepend rules, f.parallel.prepend rules⟩

@[inherit_doc FrameData.prependExports]
def prependExports (f : Frame) (rules : List Placed) (closure : List FrameId) (source : Frame) :
    Frame :=
  prepend ⟨f.toFrameData.enclose rules closure source.toFrameData, f.parallel⟩ rules

def indexed (f : Frame) : Frame :=
  ⟨f.toFrameData.indexed, f.parallel⟩

end Frame

end StyleResolution
