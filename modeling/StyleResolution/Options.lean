import StyleResolution.Path

/-!
# Options of a compilation
-/

namespace StyleResolution

/-- What can be chosen for a compilation. -/
structure Options where
  /-- Operations are carried out inside parentheses only. -/
  strictMath : Bool := false
  /-- The first warning ends the compilation. -/
  warningsAsErrors : Bool := false
  /-- Directories that are searched after the importing file's own. -/
  includePaths : List Path := []
  /-- Each file is imported once unless an import says otherwise. -/
  importOnce : Bool := true
  /-- How often one mixin may be expanded inside itself. -/
  maxMixinDepth : Nat := 64
  /-- How deep imports may nest. -/
  maxImportDepth : Nat := 32
  /-- How many selectors one nested ruleset may expand to. -/
  maxSelectorExpansions : Nat := 4096
  deriving Repr

end StyleResolution
