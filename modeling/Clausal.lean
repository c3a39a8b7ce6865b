import Clausal.Compilation
import Clausal.Core.Printer
import Clausal.Reduction.Bounded
import Clausal.Typing.Inference
import Clausal.Proofs.Typing.MostGeneral
import Clausal.Proofs.Term.FreeVariables
import Clausal.Proofs.Typing.HasType
import Clausal.Proofs.Typing.Inference
import Clausal.Proofs.Typing.Principal
import Clausal.Proofs.Typing.Normalization
import Clausal.Proofs.Typing.Registry
import Clausal.Proofs.Typing.Growth
import Clausal.Proofs.Delta.Rule
import Clausal.Proofs.Reduction.Step
import Clausal.Proofs.Reduction.Evaluated
import Clausal.Proofs.Typing.Spine
import Clausal.Proofs.Typing.Preservation
import Clausal.Proofs.Typing.Canonical
import Clausal.Proofs.Typing.Progress
import Clausal.Proofs.Simplification.FirstPlace
import Clausal.Proofs.Simplification.Grammar
import Clausal.Proofs.Simplification.Clauses
import Clausal.Proofs.Simplification.Fixpoint
import Clausal.Proofs.Simplification.Stages
import Clausal.Proofs.Simplification.Passes
import Clausal.Proofs.Simplification.CommonFixpoint
import Clausal.Proofs.Compilation
import Clausal.Proofs.Surface.Children
import Clausal.Proofs.Core.FromSurface
import Clausal.Proofs.Nameless.Term
import Clausal.Proofs.Nameless.Reading
import Clausal.Proofs.Nameless.Reduction
import Clausal.Proofs.Delta.Answer
import Clausal.Proofs.Reduction.Contraction
import Clausal.Proofs.Nameless.Alpha
import Clausal.Proofs.Nameless.Substitution
import Clausal.Proofs.Reduction.Confluence
import Clausal.Proofs.Lists
import Clausal.Proofs.Dependency.Cliques
import Clausal.Proofs.Dependency.Groups
import Clausal.Proofs.Surface.Scopes
import Clausal.Proofs.Surface.Names
import Clausal.Proofs.Simplification.FreeVariables
import Clausal.Proofs.Core.Lowering
import Clausal.Proofs.Core.Alpha
import Clausal.Proofs.Hygiene
import Clausal.Proofs.Nameless.Conversion
import Clausal.Proofs.Reduction.Conversion
import Clausal.Proofs.Reduction.Laziness
import Clausal.Proofs.Surface.Reading
import Clausal.Proofs.Surface.Fixpoints
import Clausal.Proofs.Simplification.Nesting
import Clausal.Proofs.Simplification.Runs
import Clausal.Proofs.Simplification.Blocks
import Clausal.Proofs.FreshSupply
import Clausal.Proofs.Simplification.Names
import Clausal.Proofs.Simplification.Draws
import Clausal.Proofs.Freshness
import Clausal.Proofs.Primitive.Name
import Clausal.Proofs.Letrec
import Clausal.Proofs.Matching.Value
import Clausal.Proofs.Matching.Expansion
import Clausal.Proofs.Matching.Filling
import Clausal.Proofs.Matching.CaseElimination
import Clausal.Proofs.Simplification.Fusion
import Clausal.Proofs.Simplification.Functions
import Clausal.Proofs.Equations
import Clausal.Proofs.Reduction.Alpha
import Clausal.Proofs.Dependency.Grouping
import Clausal.Proofs.Typing.Unification
import Clausal.Proofs.Reduction.Limits
import Clausal.Proofs.Reduction.NormalForms
import Clausal.Proofs.Reduction.Calculation
import Clausal.Proofs.Matching.Copies
import Clausal.Proofs.Matching.Sharing
import Clausal.Proofs.Matching.Components
import Clausal.Proofs.Simplification.Agreement
import Clausal.Proofs.Validation
import Clausal.Proofs.Simplification.FusedBlocks
import Clausal.Proofs.DeclarationOrder
