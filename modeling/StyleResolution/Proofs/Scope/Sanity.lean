import StyleResolution.Proofs.Regime.Upholding
import StyleResolution.Proofs.Sheet.Size

/-! # Sane states

In every state of a compilation the names of the frames are those of their rules, the blocks of
these rules are known, and the cache holds files of the loader. The bounds on how long a compilation
can take rest on this.
-/

namespace StyleResolution

def Placed.Known (blocks : List (Site × List Rule)) (p : Placed) : Prop :=
  ∀ inner, p.rule.block? = some inner → (p.site, inner) ∈ blocks

variable {setting : Setting} {sheet : Stylesheet}

theorem Placed.Known.mono {p : Placed} (known : p.Known (knownBlocks sheet cache))
    (suffix : cache <:+ more) : p.Known (knownBlocks sheet more) :=
  fun inner block => knownBlocks_mono suffix (known inner block)

theorem Placed.ofBlock_known {cache : List (CanonicalPath × LoadedFile)} {site : Site}
    {rules : List Rule} (known : (site, rules) ∈ knownBlocks sheet cache) :
    ∀ p ∈ Placed.ofBlock site rules, p.Known (knownBlocks sheet cache) := by
  intro p member inner block
  obtain ⟨i, inside, rfl⟩ := List.mem_mapIdx.mp member
  exact knownBlocks_closed known (List.getElem?_eq_getElem inside) block

theorem Eval.contribution_known {cache : List (CanonicalPath × LoadedFile)} {path : CanonicalPath}
    {loaded : LoadedFile} (cached : (path, loaded) ∈ cache) (i : Import) :
    ∀ p ∈ contribution i loaded, p.Known (knownBlocks sheet cache) := by
  have root := @mem_knownBlocks_of_cached sheet _ _ cached
  intro p member
  unfold contribution at member
  dsimp only at member
  split at member
  · cases List.mem_singleton.mp member
    rintro inner ⟨⟩
    exact root
  · exact Placed.ofBlock_known root p member

namespace Eval

variable {α : Type} {s : Evaluation}

/-! ## The cache holds files of the loader -/

/-- What holds before holds afterwards. -/
def Preserves (I : Evaluation → Prop) (s s' : Evaluation) : Prop :=
  I s → I s'

instance (I : Evaluation → Prop) : IsPreorder Evaluation (Preserves I) where
  refl _ := id
  trans _ _ _ first second := second ∘ first

/-- Whether it fails or not, the computation caches files of the loader only. -/
abbrev KeepsCaches (setting : Setting) (x : Eval α) : Prop :=
  Keeps setting (Preserves fun s => setting.loader.Caches s.importer.cache) x

theorem Keeps.caches (h : Keeps setting Quiet x) : KeepsCaches setting x := by
  intro s caches
  rw [(h s).importer]
  exact caches

theorem loadFile_caches (path : CanonicalPath) : KeepsCaches setting (loadFile path) := by
  refine .of_ends fun s => ?_
  unfold loadFile
  refine .ofState ?_
  split
  · exact .change (.pure id)
  · rename_i absent
    refine .change (.ofSetting ?_)
    split
    · exact .failWith id
    · rename_i source loads
      refine .ofState (.change ?_)
      dsimp only
      cases parsed : Stylesheet.read source s.importer.files.length (some path.toPath) with
      | error f => exact .fail id
      | ok sheet =>
        refine .bind_of_ok rfl (.change (.pure fun caches => ?_))
        have notCached : path ∉ s.importer.cache.map Prod.fst := by
          intro member
          obtain ⟨c, cached, rfl⟩ := List.mem_map.mp member
          exact absurd (List.lookup_eq_none_iff.mp absent c cached) (by simp)
        refine ⟨List.nodup_cons.mpr ⟨notCached, caches.once⟩, fun c cached => ?_⟩
        rcases List.mem_cons.mp cached with rfl | earlier
        · exact ⟨source, loads, Stylesheet.sizes_le_of_read parsed⟩
        · exact caches.read c earlier

theorem openImport_caches (i : Import) (text : String) : KeepsCaches setting (openImport i text) := by
  have openings : Composes.Openings fun _ x _ => KeepsCaches setting x :=
    Keeps.openings (fun e => (emit_quiet e).caches) (fun _ => Keeps.change fun _ h => h)
      (fun _ => .change fun _ h => h) loadFile_caches
  exact openings.openImport i text

end Eval

def Regime.sane (setting : Setting) (sheet : Stylesheet) : Regime setting where
  holds i _ := setting.loader.Caches i.cache
  law _ := True
  rule i p := p.Known (knownBlocks sheet i.cache)
  lawful _ := trivial
  mono known grows := known.mono grows.cache
  block known isBlock := Placed.ofBlock_known (known _ isBlock)
  definition _ _ := nofun
  settled _ _ := nofun
  opens s _ i _ text caches _ :=
    ((Eval.openImport_ends i text).and ((Eval.openImport_caches i text).ends setting s)).mono
      (fun _ _ ended => ⟨ended.2 caches, fun _ _ isFile =>
        Eval.contribution_known (isFile ▸ ended.1).cached i⟩)
      fun _ _ _ => ⟨trivial, trivial⟩

/-- Names are those of rules, blocks are known, and the cache holds files of the loader. -/
abbrev Sane (setting : Setting) (sheet : Stylesheet) (s : Evaluation) : Prop :=
  (Regime.sane setting sheet).Orderly s

namespace Sane

variable {s s' : Evaluation} (sane : Sane setting sheet s)

include sane

theorem fresh : s.frames.Fresh :=
  fun id => (sane.frames id).fresh

theorem known (id : FrameId) :
    ∀ e ∈ (s.frames.get id).entries, e.toPlaced.Known (knownBlocks sheet s.importer.cache) :=
  (sane.frames id).rules

theorem congr (frames : s'.frames = s.frames) (cache : s'.importer.cache = s.importer.cache) :
    Sane setting sheet s' := by
  refine ⟨?_, fun id => ⟨frames ▸ sane.fresh id, ?_⟩, .inr trivial⟩
  · change setting.loader.Caches s'.importer.cache
    rw [cache]
    exact sane.holds
  · rw [frames]
    intro e member
    have known := sane.known id e member
    rw [← cache] at known
    exact known

theorem addBlock {site : Site} {rules : List Rule}
    (known : (site, rules) ∈ knownBlocks sheet s.importer.cache) (nesting : Nat) :
    Sane setting sheet { s with frames := (s.frames.add (Frame.ofBlock site rules nesting)).2 } := by
  have block : (Regime.sane setting sheet).Block s.importer site rules :=
    Placed.ofBlock_known known
  exact sane.add (.ofBlock block nesting)

theorem sizes_lt {known : Site × List Rule}
    (inside : known ∈ knownBlocks sheet s.importer.cache) :
    Rule.sizes known.2 < Compiler.ruleBound setting.loader sheet :=
  sizes_lt_of_known sane.holds inside

end Sane

end StyleResolution
