import StyleResolution.Proofs.Evaluation.Restoration
import StyleResolution.Proofs.Strictness.Resolution
import StyleResolution.Proofs.Import.Once
import StyleResolution.Proofs.Import.Depth
import StyleResolution.Proofs.Coupling.Rearrangement
import StyleResolution.Proofs.Coupling.Substitution
import StyleResolution.Proofs.Selector.Effective
import StyleResolution.Proofs.Mixin.Importance
import StyleResolution.Proofs.Mixin.Closures
import StyleResolution.Proofs.Mixin.Overloads
import StyleResolution.Proofs.Mixin.Finality
import StyleResolution.Proofs.Scope.Cycles
import StyleResolution.Proofs.Import.Recursion
import StyleResolution.Proofs.Evaluation.Passes
import StyleResolution.Proofs.Mixin.Exports
import StyleResolution.Proofs.Mixin.Scoping
import StyleResolution.Proofs.Mixin.Namespaces
import StyleResolution.Proofs.Media.Nesting
import StyleResolution.Proofs.Failure.Warnings
import StyleResolution.Proofs.Sheet.Places
import StyleResolution.Proofs.Selector.RoundTrip
import StyleResolution.Proofs.Value.ReadBack
import StyleResolution.Proofs.Mixin.Arguments
import StyleResolution.Proofs.Import.Canonical
import StyleResolution.Proofs.Sheet.Progress
import StyleResolution.Proofs.Sheet.Literals
