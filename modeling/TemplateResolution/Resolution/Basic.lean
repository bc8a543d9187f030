import TemplateResolution.Candidate
import TemplateResolution.Query
import TemplateResolution.Specificity.Basic

/-!
# Resolutions

What a query resolves to: one selected pattern, an ambiguity between several, or
nothing, with the evidence in each case.
-/

namespace TemplateResolution

/-- How a pattern came to be selected. -/
inductive SelectionPath where
  | explicit
  | soleCandidate
  | mostSpecialized
deriving DecidableEq

structure Selection where
  pattern : PatternId
  /-- Binds the parameters of the selected pattern; if that is an explicit specialization, those of
  the pattern it specializes. -/
  substitution : Substitution
  path : SelectionPath
  specializes : Option PatternId
deriving DecidableEq

/-- Two candidates of which neither is the more specialized. -/
structure UnorderedPair where
  a : PatternId
  b : PatternId
  basis : OrderingBasis
deriving DecidableEq

/-- Two candidates of which the first is the more specialized. -/
structure OrderedPair where
  more : PatternId
  less : PatternId
  basis : OrderingBasis
deriving DecidableEq

structure Ambiguity where
  /-- The candidates that none is more specialized than; all of them if there are no such. -/
  maximal : List PatternId
  considered : List PatternId
  /-- The unordered pairs of maximal candidates. -/
  unordered : List UnorderedPair
  /-- The orderings that lie on a cycle, if no candidate is undominated. -/
  cycle : List OrderedPair
deriving DecidableEq

structure Unmatched where
  /-- Whether some pattern has the name of the query. -/
  knownName : Bool
  considered : List (PatternId × Rejection)
deriving DecidableEq

inductive Resolution where
  | resolved (selection : Selection)
  | ambiguous (ambiguity : Ambiguity)
  | unmatched (unmatched : Unmatched)
deriving DecidableEq

def Resolution.selected : Resolution → Option PatternId
  | resolved selection => some selection.pattern
  | ambiguous _ | unmatched _ => none

end TemplateResolution
