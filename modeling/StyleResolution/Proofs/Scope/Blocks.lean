import Mathlib.Algebra.Order.BigOperators.Group.Finset
import Mathlib.Algebra.Order.Ring.Nat
import StyleResolution.Compiler

/-! # The blocks of a compilation

All blocks that a compilation can ever enter are written in the sheet or in a file of the loader.
Each is known by the site of its rule, so there are at most as many as rules, and the blocks inside
a known block are known too. A file is read at most once, so all of them together have no more rules
than `Compiler.ruleBound` says.
-/

namespace StyleResolution

namespace Rule

def block? : Rule → Option (List Rule)
  | .ruleset _ rules _ | .mixin _ rules | .media _ rules _ | .atBlock _ _ rules _ => some rules
  | _ => none

mutual

def blocks (site : Site) : Rule → List (Site × List Rule)
  | .ruleset _ rules _ | .mixin _ rules | .media _ rules _ | .atBlock _ _ rules _ =>
    (site, rules) :: blocksFrom site 0 rules
  | .declaration _ | .variable _ | .call _ | .fileImport _ | .atStatement _ _ _ => []

def blocksFrom (site : Site) : Nat → List Rule → List (Site × List Rule)
  | _, [] => []
  | position, r :: rs => blocks (site.child position) r ++ blocksFrom site (position + 1) rs

end

def blocksOf (site : Site) (rules : List Rule) : List (Site × List Rule) :=
  (site, rules) :: blocksFrom site 0 rules

theorem blocks_of_block? {r : Rule} {inner : List Rule} (h : r.block? = some inner) (site : Site) :
    blocks site r = blocksOf site inner := by
  cases r <;> simp only [block?, Option.some.injEq, reduceCtorEq] at h <;> subst h <;>
    simp only [blocks, blocksOf]

theorem size_of_block? {r : Rule} {inner : List Rule} (h : r.block? = some inner) :
    r.size = 1 + sizes inner := by
  cases r <;> simp only [block?, Option.some.injEq, reduceCtorEq] at h <;> subst h <;>
    simp only [size]

theorem one_le_size (r : Rule) : 1 ≤ r.size := by
  cases r <;> simp [size]

theorem length_le_sizes (rules : List Rule) : rules.length ≤ sizes rules := by
  induction rules with
  | nil => exact Nat.le_refl _
  | cons r rs ih =>
    have := one_le_size r
    simp only [List.length_cons, sizes]
    omega

theorem size_le_sizes (inside : r ∈ rules) : r.size ≤ sizes rules := by
  induction rules with
  | nil => cases inside
  | cons first rest ih =>
    simp only [sizes]
    rcases List.mem_cons.mp inside with rfl | later
    · omega
    · have := ih later
      omega

/-! ## How many blocks there are -/

mutual

theorem length_blocks_le (site : Site) (r : Rule) : (blocks site r).length ≤ r.size := by
  cases r with
  | declaration | «variable» | call | fileImport | atStatement => simp [blocks, size]
  | ruleset _ rules _ | mixin _ rules | media _ rules _ | atBlock _ _ rules _ =>
    have := length_blocksFrom_le site 0 rules
    simp only [blocks, size, List.length_cons]
    omega

theorem length_blocksFrom_le (site : Site) (position : Nat) (rules : List Rule) :
    (blocksFrom site position rules).length ≤ sizes rules := by
  cases rules with
  | nil => simp [blocksFrom, sizes]
  | cons r rs =>
    have := length_blocks_le (site.child position) r
    have := length_blocksFrom_le site (position + 1) rs
    simp only [blocksFrom, sizes, List.length_append]
    omega

end

theorem length_blocksOf_le (site : Site) (rules : List Rule) :
    (blocksOf site rules).length ≤ sizes rules + 1 := by
  have := length_blocksFrom_le site 0 rules
  simp only [blocksOf, List.length_cons]
  omega

mutual

theorem sizes_lt_of_mem_blocks (h : known ∈ blocks site r) : sizes known.2 < r.size := by
  cases r with
  | declaration | «variable» | call | fileImport | atStatement => simp [blocks] at h
  | ruleset _ rules _ | mixin _ rules | media _ rules _ | atBlock _ _ rules _ =>
    simp only [blocks, List.mem_cons] at h
    simp only [size]
    rcases h with rfl | inner
    · exact Nat.lt_add_of_pos_left Nat.one_pos
    · have := sizes_le_of_mem_blocksFrom inner
      omega

theorem sizes_le_of_mem_blocksFrom {position : Nat} (h : known ∈ blocksFrom site position rules) :
    sizes known.2 ≤ sizes rules := by
  cases rules with
  | nil => simp [blocksFrom] at h
  | cons r rs =>
    simp only [blocksFrom, List.mem_append] at h
    simp only [sizes]
    rcases h with first | later
    · have := sizes_lt_of_mem_blocks first
      omega
    · have := sizes_le_of_mem_blocksFrom later
      omega

end

theorem sizes_le_of_mem_blocksOf (h : known ∈ blocksOf site rules) :
    sizes known.2 ≤ sizes rules := by
  rcases List.mem_cons.mp h with rfl | inner
  · exact Nat.le_refl _
  · exact sizes_le_of_mem_blocksFrom inner

/-! ## Blocks inside known blocks are known -/

theorem mem_blocksFrom_of_getElem? {site : Site} {rules : List Rule} {i : Nat} {r : Rule}
    {inner : List Rule} (at_ : rules[i]? = some r) (block : r.block? = some inner) (position : Nat) :
    (site.child (position + i), inner) ∈ blocksFrom site position rules := by
  induction rules generalizing i position with
  | nil => simp at at_
  | cons first rest ih =>
    simp only [blocksFrom, List.mem_append]
    cases i with
    | zero =>
      cases at_
      rw [blocks_of_block? block]
      exact .inl List.mem_cons_self
    | succ i =>
      have later := ih (by simpa using at_) (position + 1)
      rw [Nat.add_right_comm, Nat.add_assoc] at later
      exact .inr later

mutual

theorem blocks_closed {site : Site} (r : Rule) {t : Site} {rules : List Rule} {i : Nat} {c : Rule}
    {inner : List Rule} (known : (t, rules) ∈ blocks site r) (at_ : rules[i]? = some c)
    (block : c.block? = some inner) : (t.child i, inner) ∈ blocks site r := by
  cases r with
  | declaration | «variable» | call | fileImport | atStatement => simp [blocks] at known
  | ruleset _ own _ | mixin _ own | media _ own _ | atBlock _ _ own _ =>
    simp only [blocks, List.mem_cons] at known ⊢
    rcases known with same | within
    · cases same
      exact .inr (by simpa using mem_blocksFrom_of_getElem? at_ block 0)
    · exact .inr (blocksFrom_closed own within at_ block)

theorem blocksFrom_closed {site : Site} {position : Nat} (own : List Rule) {t : Site}
    {rules : List Rule} {i : Nat} {c : Rule} {inner : List Rule}
    (known : (t, rules) ∈ blocksFrom site position own) (at_ : rules[i]? = some c)
    (block : c.block? = some inner) : (t.child i, inner) ∈ blocksFrom site position own := by
  cases own with
  | nil => simp [blocksFrom] at known
  | cons r rs =>
    simp only [blocksFrom, List.mem_append] at known ⊢
    rcases known with first | later
    · exact .inl (blocks_closed r first at_ block)
    · exact .inr (blocksFrom_closed rs later at_ block)

end

theorem blocksOf_closed {site t : Site} {own rules : List Rule} {i : Nat} {c : Rule}
    {inner : List Rule} (known : (t, rules) ∈ blocksOf site own) (at_ : rules[i]? = some c)
    (block : c.block? = some inner) : (t.child i, inner) ∈ blocksOf site own := by
  rcases List.mem_cons.mp known with same | within
  · cases same
    exact List.mem_cons_of_mem _ (by simpa using mem_blocksFrom_of_getElem? at_ block 0)
  · exact List.mem_cons_of_mem _ (blocksFrom_closed own within at_ block)

end Rule

/-! ## The files that were read -/

/-- Every file in the cache was read from the loader, and none twice. -/
structure Sources.Caches (loader : Sources) (cache : List (CanonicalPath × LoadedFile)) : Prop where
  once : (cache.map Prod.fst).Nodup
  read : ∀ c ∈ cache, ∃ source, loader.load c.1 = .ok source ∧ Rule.sizes c.2.rules ≤ source.length

namespace Sources

theorem subperm_paths {loader : Sources} {paths : List CanonicalPath} (once : paths.Nodup)
    (read : ∀ path ∈ paths, ∃ source, loader.load path = .ok source) :
    paths.Subperm loader.paths := by
  apply List.subperm_of_subset once
  intro path member
  obtain ⟨source, loads⟩ := read path member
  exact loader.listed path source loads

theorem bulk_eq_sum (loader : Sources) :
    loader.bulk = (loader.paths.map fun path => loader.lengthOf path + 1).sum := by
  unfold bulk
  induction loader.paths with
  | nil => rfl
  | cons path paths ih => simp [ih]

namespace Caches

variable {loader : Sources} {cache : List (CanonicalPath × LoadedFile)} (h : loader.Caches cache)

include h

theorem sum_le_bulk : (cache.map fun c => Rule.sizes c.2.rules + 1).sum ≤ loader.bulk := by
  have fits : ∀ c ∈ cache, Rule.sizes c.2.rules + 1 ≤ loader.lengthOf c.1 + 1 := by
    intro c cached
    obtain ⟨source, loads, few⟩ := h.read c cached
    simpa [lengthOf, loads] using few
  have read : ∀ path ∈ cache.map Prod.fst, ∃ source, loader.load path = .ok source := by
    intro path member
    obtain ⟨c, cached, rfl⟩ := List.mem_map.mp member
    obtain ⟨source, loads, -⟩ := h.read c cached
    exact ⟨source, loads⟩
  obtain ⟨same, perm, sublist⟩ := subperm_paths h.once read
  calc (cache.map fun c => Rule.sizes c.2.rules + 1).sum
      ≤ (cache.map fun c => loader.lengthOf c.1 + 1).sum := List.sum_le_sum fits
    _ = ((cache.map Prod.fst).map fun path => loader.lengthOf path + 1).sum := by
        rw [List.map_map]
        rfl
    _ = (same.map fun path => loader.lengthOf path + 1).sum := ((perm.map _).sum_eq).symm
    _ ≤ (loader.paths.map fun path => loader.lengthOf path + 1).sum :=
        (sublist.map _).sum_le_sum (by simp)
    _ = loader.bulk := loader.bulk_eq_sum.symm

theorem sizes_lt_bulk (inside : c ∈ cache) : Rule.sizes c.2.rules < loader.bulk := by
  have single : Rule.sizes c.2.rules + 1 ≤ (cache.map fun c => Rule.sizes c.2.rules + 1).sum :=
    List.single_le_sum (by simp) _ (List.mem_map_of_mem inside)
  exact Nat.lt_of_lt_of_le single h.sum_le_bulk

end Caches

end Sources

/-! ## Known blocks -/

def knownBlocks (sheet : Stylesheet) (cache : List (CanonicalPath × LoadedFile)) :
    List (Site × List Rule) :=
  Rule.blocksOf (.written 0 []) sheet.rules ++
    cache.flatMap fun c => Rule.blocksOf (.written c.2.file []) c.2.rules

section Known

variable {sheet : Stylesheet} {cache : List (CanonicalPath × LoadedFile)}

theorem knownBlocks_mono (h : cache <:+ more) (inside : known ∈ knownBlocks sheet cache) :
    known ∈ knownBlocks sheet more := by
  rcases List.mem_append.mp inside with own | loaded
  · exact List.mem_append_left _ own
  · obtain ⟨c, cached, block⟩ := List.mem_flatMap.mp loaded
    exact List.mem_append_right _ (List.mem_flatMap.mpr ⟨c, h.subset cached, block⟩)

theorem knownBlocks_closed {t : Site} {rules : List Rule} {i : Nat} {c : Rule} {inner : List Rule}
    (known : (t, rules) ∈ knownBlocks sheet cache) (at_ : rules[i]? = some c)
    (block : c.block? = some inner) : (t.child i, inner) ∈ knownBlocks sheet cache := by
  rcases List.mem_append.mp known with own | loaded
  · exact List.mem_append_left _ (Rule.blocksOf_closed own at_ block)
  · obtain ⟨file, cached, within⟩ := List.mem_flatMap.mp loaded
    exact List.mem_append_right _
      (List.mem_flatMap.mpr ⟨file, cached, Rule.blocksOf_closed within at_ block⟩)

theorem mem_knownBlocks_of_cached {c : CanonicalPath × LoadedFile} (cached : c ∈ cache) :
    (Site.written c.2.file [], c.2.rules) ∈ knownBlocks sheet cache :=
  List.mem_append_right _ (List.mem_flatMap.mpr ⟨c, cached, List.mem_cons_self⟩)

theorem length_knownBlocks_le {loader : Sources} (caches : loader.Caches cache) :
    (knownBlocks sheet cache).length ≤ Compiler.ruleBound loader sheet := by
  have own := Rule.length_blocksOf_le (.written 0 []) sheet.rules
  have loaded : (cache.flatMap fun c => Rule.blocksOf (.written c.2.file []) c.2.rules).length ≤
      (cache.map fun c => Rule.sizes c.2.rules + 1).sum := by
    clear caches
    induction cache with
    | nil => exact Nat.le_refl _
    | cons c cache ih =>
      have := Rule.length_blocksOf_le (.written c.2.file []) c.2.rules
      simp only [List.flatMap_cons, List.length_append, List.map_cons, List.sum_cons]
      omega
  have := caches.sum_le_bulk
  simp only [knownBlocks, List.length_append, Compiler.ruleBound]
  omega

theorem sizes_lt_of_known {loader : Sources} (caches : loader.Caches cache)
    {known : Site × List Rule} (inside : known ∈ knownBlocks sheet cache) :
    Rule.sizes known.2 < Compiler.ruleBound loader sheet := by
  unfold Compiler.ruleBound
  rcases List.mem_append.mp inside with own | loaded
  · have := Rule.sizes_le_of_mem_blocksOf own
    omega
  · obtain ⟨c, cached, within⟩ := List.mem_flatMap.mp loaded
    have := Rule.sizes_le_of_mem_blocksOf within
    have := caches.sizes_lt_bulk cached
    omega

end Known

/-- A list has at most `limit` items for each of the values that it may hold. -/
theorem length_le_of_count_le {values l : List Site} (inside : ∀ a ∈ l, a ∈ values)
    (few : ∀ a ∈ l, l.count a ≤ limit) : l.length ≤ limit * values.length := by
  calc l.length = ∑ a ∈ l.toFinset, l.count a := (List.sum_toFinset_count_eq_length l).symm
    _ ≤ ∑ _a ∈ l.toFinset, limit := Finset.sum_le_sum fun a member => few a (List.mem_toFinset.mp member)
    _ = l.toFinset.card * limit := by simp
    _ ≤ values.toFinset.card * limit := by
        refine Nat.mul_le_mul_right _ (Finset.card_le_card fun a member => ?_)
        exact List.mem_toFinset.mpr (inside a (List.mem_toFinset.mp member))
    _ ≤ values.length * limit := Nat.mul_le_mul_right _ (List.toFinset_card_le values)
    _ = limit * values.length := Nat.mul_comm _ _

end StyleResolution
