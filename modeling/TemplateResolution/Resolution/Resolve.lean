import TemplateResolution.Registry.Register
import TemplateResolution.Resolution.Graph

/-!
# Resolving a query

The candidates for a query are compared pair by pair, and the one that is not
less specialized than any other is selected; if that is not one candidate, the
query is ambiguous.

Explicit specializations do not compete.  In a class-like family one that is
written exactly as the query comes first of all; in a function-like family the
selected overload may be replaced by its explicit specialization at the
template arguments that were deduced.
-/

namespace TemplateResolution

/-- All pairs of items of a list, the earlier item first. -/
def pairs {α : Type} : List α → List (α × α)
  | [] => []
  | x :: xs => xs.map (x, ·) ++ pairs xs

namespace Declarations

/-! ### Class-like families -/

/-- The arguments with the defaults of the primary in place of those left out. -/
def completeArgs (d : Declarations) (family : Family) (args : List Term) : List Term :=
  match family.primaries.head?.bind d.pattern? with
  | none => args
  | some primary =>
    if args.length < primary.parameters.length then
      match primary.seed? d.model args with
      | none => args
      | some seed =>
        ((primary.complete d.model seed).flatten primary.parameters.length).getD args
    else args

/-- The substitution for the parameters of a primary at given template arguments. -/
def primarySubstitution (d : Declarations) (of : PatternId) (templateArgs : List Term) :
    Substitution :=
  ((d.pattern? of).bind fun primary => primary.seed? d.model templateArgs).getD .empty

/-- The selection of an explicit specialization, if it has these arguments. -/
def selectExplicit (d : Declarations) (args : List Term) (id : PatternId) : Option Selection :=
  match d.pattern? id with
  | none => none
  | some explicit =>
    match explicit.role with
    | .explicitOf of templateArgs =>
      if d.model.sameTerms explicit.args args then
        some ⟨id, d.primarySubstitution of templateArgs, .explicit, some of⟩
      else none
    | _ => none

/-! ### Ordering the candidates -/

def compareCandidates (c : Comparator) (arity : Nat) (x y : Candidate) :
    StateM PlaceholderSupply (PatternId × PatternId × Comparison) := do
  let comparison ← c.compareAt x.pattern y.pattern (some ⟨arity, x.substitution, y.substitution⟩)
  pure (x.id, y.id, comparison)

/-- The graph of the candidates for a use-site with `arity` arguments. -/
def graph (d : Declarations) (rules : OrderingRules) (flavor : Flavor) (arity : Nat)
    (viable : List Candidate) : SpecificityGraph :=
  let comparisons := (pairs viable).mapM fun (x, y) =>
    compareCandidates ⟨d.model, rules, flavor⟩ arity x y
  .ofComparisons (viable.map (·.id)) (comparisons.run {}).1

/-! ### Selection -/

/-- Selects a candidate, or its explicit specialization at the same template arguments. -/
def select (d : Declarations) (family : Family) (primaryOnly : Bool) (path : SelectionPath)
    (winner : Candidate) : Selection :=
  let σ := winner.pattern.complete d.model winner.substitution
  let explicit? :=
    if family.flavor = .functionLike && !primaryOnly then
      (σ.flatten winner.pattern.parameters.length).bind (d.explicitAt? family winner.id)
    else none
  match explicit? with
  | some id => ⟨id, σ, .explicit, some winner.id⟩
  | none => ⟨winner.id, σ, path, winner.pattern.specializes⟩

/-- Resolves among the members that compete. -/
def resolveAmong (d : Declarations) (rules : OrderingRules) (family : Family) (q : Query)
    (args : List Term) : Resolution :=
  let screening := Screening.ofPatterns d.model family.flavor args q.explicitArgs
    (d.withIds (family.contenders q.primaryOnly))
  match screening.viable with
  | [] => .unmatched ⟨true, screening.rejected⟩
  | [c] => .resolved (d.select family q.primaryOnly .soleCandidate c)
  | viable =>
    let graph := d.graph rules family.flavor q.args.length viable
    match viable.filter fun c => graph.isMaximal c.id with
    | [c] => .resolved (d.select family q.primaryOnly .mostSpecialized c)
    | _ => .ambiguous graph.ambiguity

def resolve (d : Declarations) (rules : OrderingRules) (q : Query) : Resolution :=
  match d.family? q.name with
  | none => .unmatched ⟨false, []⟩
  | some family =>
    match family.flavor with
    | .functionLike => d.resolveAmong rules family q q.args
    | .classLike =>
      let args := d.completeArgs family q.args
      let explicit? :=
        if q.primaryOnly then none else family.explicits.findSome? (d.selectExplicit args)
      match explicit? with
      | some selection => .resolved selection
      | none => d.resolveAmong rules family q args

/-- Compares two registered patterns of one name, apart from any use-site. -/
def compare? (d : Declarations) (rules : OrderingRules) (a b : PatternId) : Option Comparison := do
  let p ← d.pattern? a
  let q ← d.pattern? b
  if p.name = q.name then
    let family ← d.family? p.name
    some ((Comparator.compare ⟨d.model, rules, family.flavor⟩ p q).run {}).1
  else none

end Declarations

end TemplateResolution
