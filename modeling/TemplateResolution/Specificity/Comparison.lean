import TemplateResolution.Matching.Slots
import TemplateResolution.Placeholder
import TemplateResolution.Specificity.Verdict

/-!
# Comparing two patterns

Pattern `a` is more specialized than `b` when `b` takes everything that `a`
takes and not the other way round.  To see whether `b` takes all that `a` takes,
the parameters of `a` are replaced by placeholders and the result is matched
with `b`: `reproduces` is that test, and a comparison runs it both ways.

What the test leaves open is decided by the ordering rules, for function-like
families by conversions and decorations and for every family by packs.
`equivalent` asks whether two patterns reproduce each other in every decoration,
which is when they declare the same thing.
-/

namespace TemplateResolution

/-- What a use-site says about two candidates: how many arguments it has, and how each of the
two was deduced from them. -/
structure UseSite where
  arity : Nat
  a : Substitution
  b : Substitution

/-- The setting in which the patterns of one family are compared. -/
structure Comparator where
  model : TypeModel
  rules : OrderingRules
  flavor : Flavor

/-- The part of a pattern that takes part in a comparison. -/
structure Side where
  parameters : List Parameter
  slots : List Slot

namespace Side

def ofPattern (p : Pattern) : Side := ⟨p.parameters, p.slots⟩

def take (arity : Nat) (s : Side) : Side := { s with slots := s.slots.take arity }

def mapTerms (f : Term → Term) (s : Side) : Side :=
  { s with slots := s.slots.map fun slot => { slot with term := f slot.term } }

def args (s : Side) : List Term := s.slots.map (·.term)

end Side

/-- A parameter without the qualifiers that are no part of a function's signature: those at the
top of a parameter taken by value. -/
def Term.decayed : Term → Term
  | .expansion inner => .expansion inner.decayed
  | .qualified _ inner => inner
  | t => t

/-- How the patterns of a family are matched with each other. -/
def Flavor.orderingMode : Flavor → MatchMode
  | .classLike => .structural
  | .functionLike => .ordering

namespace Comparator

/-- Whether `source` takes every argument list that `target` takes. -/
def reproduces (c : Comparator) (mode : MatchMode) (source target : Side) :
    StateM PlaceholderSupply Bool := do
  let fresh ← PlaceholderSupply.bindFrom c.model 0 target.parameters .empty
  pure (Matching.run c.model mode source.parameters source.slots .empty
    (Term.substList fresh target.args)).isSome

/-- Whether each side takes what the other takes, in every decoration. -/
def reproduceEachOther (c : Comparator) (a b : Side) : StateM PlaceholderSupply Bool := do
  if ← c.reproduces .structural a b then c.reproduces .structural b a else pure false

/-- Whether two patterns declare the same thing. -/
def equivalent (c : Comparator) (a b : Pattern) : StateM PlaceholderSupply Bool :=
  match c.flavor with
  | .functionLike =>
    c.reproduceEachOther ((Side.ofPattern a).mapTerms Term.decayed)
      ((Side.ofPattern b).mapTerms Term.decayed)
  | .classLike => c.reproduceEachOther (.ofPattern a) (.ofPattern b)

/-! ### The rules after deduction -/

/-- At each position, favours the side that binds without a conversion. -/
def conversionVerdict (site : UseSite) : Verdict :=
  .mergeAll <| (List.range site.arity).map fun position =>
    match site.a.hasConversionAt position, site.b.hasConversionAt position with
    | true, false => .decisive .bMoreSpecific .conversionAvoidance
    | false, true => .decisive .aMoreSpecific .conversionAvoidance
    | _, _ => .neutral

/-- Conversions count only between patterns that differ in nothing but decorations. -/
def avoidConversions (c : Comparator) (a b : Side) (site : UseSite) :
    StateM PlaceholderSupply Verdict := do
  if ← c.reproduceEachOther (a.mapTerms Term.erase) (b.mapTerms Term.erase) then
    pure (conversionVerdict site)
  else pure .neutral

/-- Decides when deduction fails both ways or succeeds `bothWays`: by the decorations of
functions, then by packs. -/
def breakTie (c : Comparator) (a b : Pattern) (aSide bSide : Side) (bothWays : Bool) :
    Specificity × OrderingBasis :=
  let decorations :=
    if bothWays && c.flavor = .functionLike && c.rules.qualificationTieBreak then
      Verdict.ofSlots aSide.slots bSide.slots
    else .neutral
  match decorations with
  | .decisive specificity basis => (specificity, basis)
  | verdict =>
    let tie : OrderingBasis :=
      if verdict = .conflict then .qualificationTie
      else if bothWays then .equallySpecialized
      else .incomparable
    if c.rules.packTieBreak then
      match a.isVariadic, b.isVariadic with
      | false, true => (.aMoreSpecific, .pack)
      | true, false => (.bMoreSpecific, .pack)
      | true, true => (.unordered, if tie = .equallySpecialized then .packTie else tie)
      | false, false => (.unordered, tie)
    else (.unordered, tie)

/-! ### Comparisons -/

/-- The use-site, where the flavor regards one. -/
def heed (c : Comparator) (site : Option UseSite) : Option UseSite :=
  if c.flavor = .functionLike then site else none

/-- The part of a pattern that is compared: at a use-site, what has an argument there. -/
def sideAt (c : Comparator) (site : Option UseSite) (p : Pattern) : Side :=
  match c.heed site with
  | some site =>
    if c.rules.suppliedArgumentsOnly then (Side.ofPattern p).take site.arity else .ofPattern p
  | none => .ofPattern p

/-- What conversions say at a use-site. -/
def conversionsAt (c : Comparator) (a b : Side) (site : Option UseSite) :
    StateM PlaceholderSupply Verdict :=
  match c.heed site with
  | some site => if c.rules.conversionAvoidance then c.avoidConversions a b site else pure .neutral
  | none => pure .neutral

/-- The outcome: conversions come first, then deduction, then the rules for ties. -/
def weigh (c : Comparator) (a b : Pattern) (aSide bSide : Side) (conversions : Verdict)
    (aFromB bFromA : Bool) : Comparison :=
  let (specificity, basis) : Specificity × OrderingBasis :=
    match conversions, bFromA, aFromB with
    | .decisive specificity basis, _, _ => (specificity, basis)
    | _, true, false => (.bMoreSpecific, .deduction)
    | _, false, true => (.aMoreSpecific, .deduction)
    | _, true, true => c.breakTie a b aSide bSide true
    | _, false, false => c.breakTie a b aSide bSide false
  ⟨specificity, basis, aFromB, bFromA⟩

/-- Compares two patterns, at a use-site that both of them take if one is given. -/
def compareAt (c : Comparator) (a b : Pattern) (site : Option UseSite) :
    StateM PlaceholderSupply Comparison := do
  let aSide := c.sideAt site a
  let bSide := c.sideAt site b
  let bFromA ← c.reproduces c.flavor.orderingMode aSide bSide
  let aFromB ← c.reproduces c.flavor.orderingMode bSide aSide
  let conversions ← c.conversionsAt aSide bSide site
  pure (c.weigh a b aSide bSide conversions aFromB bFromA)

/-- Compares two patterns apart from any use-site. -/
def compare (c : Comparator) (a b : Pattern) : StateM PlaceholderSupply Comparison :=
  c.compareAt a b none

end Comparator

end TemplateResolution
