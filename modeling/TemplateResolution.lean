import TemplateResolution.Candidate
import TemplateResolution.CommandLine
import TemplateResolution.Main
import TemplateResolution.Matching.Deduction
import TemplateResolution.Matching.Slots
import TemplateResolution.Matching.Unify
import TemplateResolution.Parameter
import TemplateResolution.Pattern.Basic
import TemplateResolution.Pattern.Instance
import TemplateResolution.Pattern.Signature
import TemplateResolution.Placeholder
import TemplateResolution.Proofs.Matching.Arguments
import TemplateResolution.Proofs.Matching.Bindings
import TemplateResolution.Proofs.Matching.Call
import TemplateResolution.Proofs.Matching.Completion
import TemplateResolution.Proofs.Matching.EmptyPacks
import TemplateResolution.Proofs.Matching.Evidence
import TemplateResolution.Proofs.Matching.Kinds
import TemplateResolution.Proofs.Matching.Modes
import TemplateResolution.Proofs.Matching.Offsets
import TemplateResolution.Proofs.Matching.Parts
import TemplateResolution.Proofs.Matching.Primary
import TemplateResolution.Proofs.Matching.Reading
import TemplateResolution.Proofs.Matching.Relabeling
import TemplateResolution.Proofs.Matching.Renaming
import TemplateResolution.Proofs.Matching.Replay
import TemplateResolution.Proofs.Matching.RoundTrip
import TemplateResolution.Proofs.Matching.SelfMatch
import TemplateResolution.Proofs.Matching.Sifting
import TemplateResolution.Proofs.Matching.Soundness
import TemplateResolution.Proofs.Matching.SpelledOut
import TemplateResolution.Proofs.Pattern.Closing
import TemplateResolution.Proofs.Pattern.Seeding
import TemplateResolution.Proofs.Pattern.TemplateArguments
import TemplateResolution.Proofs.Placeholder.Fitting
import TemplateResolution.Proofs.Placeholder.Renaming
import TemplateResolution.Proofs.Placeholder.Separation
import TemplateResolution.Proofs.Placeholder.Supply
import TemplateResolution.Proofs.Placeholder.Thaw
import TemplateResolution.Proofs.Registry.Accepted
import TemplateResolution.Proofs.Registry.Coherence
import TemplateResolution.Proofs.Registry.Completion
import TemplateResolution.Proofs.Registry.Copies
import TemplateResolution.Proofs.Registry.Duplicates
import TemplateResolution.Proofs.Registry.Explicits
import TemplateResolution.Proofs.Registry.Narrowing
import TemplateResolution.Proofs.Registry.Overloads
import TemplateResolution.Proofs.Registry.Reachable
import TemplateResolution.Proofs.Resolution.Acyclic
import TemplateResolution.Proofs.Resolution.Bound
import TemplateResolution.Proofs.Resolution.Contest
import TemplateResolution.Proofs.Resolution.Defaults
import TemplateResolution.Proofs.Resolution.Dominance
import TemplateResolution.Proofs.Resolution.Entrants
import TemplateResolution.Proofs.Resolution.ExplicitBindings
import TemplateResolution.Proofs.Resolution.Explicits
import TemplateResolution.Proofs.Resolution.Frame
import TemplateResolution.Proofs.Resolution.Graph
import TemplateResolution.Proofs.Resolution.Ranking
import TemplateResolution.Proofs.Resolution.Renumbering
import TemplateResolution.Proofs.Resolution.Unsupplied
import TemplateResolution.Proofs.Specificity.Closed
import TemplateResolution.Proofs.Specificity.Copies
import TemplateResolution.Proofs.Specificity.Deduction
import TemplateResolution.Proofs.Specificity.Image
import TemplateResolution.Proofs.Specificity.Lifting
import TemplateResolution.Proofs.Specificity.Numbering
import TemplateResolution.Proofs.Specificity.Order
import TemplateResolution.Proofs.Specificity.Outcome
import TemplateResolution.Proofs.Specificity.Reversal
import TemplateResolution.Proofs.Specificity.Standing
import TemplateResolution.Proofs.Specificity.Subset
import TemplateResolution.Proofs.Specificity.Unrolling
import TemplateResolution.Proofs.Substitution.Building
import TemplateResolution.Proofs.Substitution.Congruence
import TemplateResolution.Proofs.Substitution.PackFree
import TemplateResolution.Proofs.Substitution.Support
import TemplateResolution.Proofs.Term.Equality
import TemplateResolution.Proofs.Term.Gain
import TemplateResolution.Proofs.Term.Normal
import TemplateResolution.Proofs.Term.Reduced
import TemplateResolution.Proofs.Term.Relabeling
import TemplateResolution.Proofs.TypeModel.Aliases
import TemplateResolution.Qualifiers
import TemplateResolution.Query
import TemplateResolution.Registry.Ascending
import TemplateResolution.Registry.Basic
import TemplateResolution.Registry.Error
import TemplateResolution.Registry.Register
import TemplateResolution.Registry.WellFormed
import TemplateResolution.Resolution.Basic
import TemplateResolution.Resolution.Graph
import TemplateResolution.Resolution.Report
import TemplateResolution.Resolution.Resolve
import TemplateResolution.Scenario
import TemplateResolution.Specificity.Basic
import TemplateResolution.Specificity.Comparison
import TemplateResolution.Specificity.Verdict
import TemplateResolution.Substitution.Apply
import TemplateResolution.Substitution.Basic
import TemplateResolution.Substitution.Printer
import TemplateResolution.Term.Basic
import TemplateResolution.Term.Decoration
import TemplateResolution.Term.Equality
import TemplateResolution.Term.Induction
import TemplateResolution.Term.Parameters
import TemplateResolution.Term.Printer
import TemplateResolution.Text.Blank
import TemplateResolution.TypeModel.Alias
import TemplateResolution.TypeModel.Basic
