import TemplateResolution.Resolution.Basic

/-!
# Specificity graphs

The pairwise comparisons of the candidates for a use-site make a graph: an edge
runs from the more specialized candidate to the less specialized one, and pairs
that could not be ordered are kept beside the edges.  A candidate without an
edge into it is maximal.  When the orderings contradict each other there may be
none, and then the edges on a cycle are the explanation: those that can be
travelled back (`onCycle`).
-/

namespace TemplateResolution

structure SpecificityGraph where
  nodes : List PatternId
  /-- In the order of the comparisons, as are the unordered pairs. -/
  edges : List OrderedPair
  unordered : List UnorderedPair
deriving DecidableEq

namespace SpecificityGraph

def edgeOf (a b : PatternId) (c : Comparison) : Option OrderedPair :=
  match c.specificity with
  | .aMoreSpecific => some ⟨a, b, c.basis⟩
  | .bMoreSpecific => some ⟨b, a, c.basis⟩
  | .unordered => none

def tieOf (a b : PatternId) (c : Comparison) : Option UnorderedPair :=
  if c.isOrdered then none else some ⟨a, b, c.basis⟩

def ofComparisons (nodes : List PatternId)
    (comparisons : List (PatternId × PatternId × Comparison)) : SpecificityGraph where
  nodes := nodes
  edges := comparisons.filterMap fun (a, b, c) => edgeOf a b c
  unordered := comparisons.filterMap fun (a, b, c) => tieOf a b c

def isMaximal (g : SpecificityGraph) (id : PatternId) : Bool := !g.edges.any (·.less = id)

def maximal (g : SpecificityGraph) : List PatternId := g.nodes.filter g.isMaximal

/-! ### Cycles -/

/-- The nodes that one edge leads to from `reached`. -/
def successors (g : SpecificityGraph) (reached : List PatternId) : List PatternId :=
  (g.edges.filter fun e => reached.contains e.more && !reached.contains e.less).map (·.less)

/-- The nodes within a number of edges from `reached`. -/
def within (g : SpecificityGraph) : Nat → List PatternId → List PatternId
  | 0, reached => reached
  | steps + 1, reached => g.within steps (reached ++ (g.successors reached).eraseDups)

/-- Whether a path leads from one node to another; a path need not be longer than the number of
nodes. -/
def reaches (g : SpecificityGraph) (source target : PatternId) : Bool :=
  (g.within g.nodes.length [source]).contains target

def onCycle (g : SpecificityGraph) (e : OrderedPair) : Bool := g.reaches e.less e.more

/-! ### Ambiguity -/

/-- Why a graph has no single maximal node. -/
def ambiguity (g : SpecificityGraph) : Ambiguity :=
  let maximal := if g.maximal.isEmpty then g.nodes else g.maximal
  { maximal
    considered := g.nodes
    unordered := g.unordered.filter fun e => maximal.contains e.a && maximal.contains e.b
    cycle := if g.maximal.isEmpty then g.edges.filter g.onCycle else [] }

end SpecificityGraph

end TemplateResolution
