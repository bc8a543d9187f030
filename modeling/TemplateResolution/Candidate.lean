import TemplateResolution.Matching.Slots

/-!
# Candidates

A pattern is a candidate for a use-site when the template arguments written out
fit its parameters (`Pattern.seed?`) and the arguments match its slots from
there (`Pattern.screen`).  A screening sorts patterns into the candidates, with
the substitution of each, and the rejected, with the reason.
-/

namespace TemplateResolution

/-- A pattern that takes a use-site, with the substitution by which it does. -/
structure Candidate where
  id : PatternId
  pattern : Pattern
  substitution : Substitution
deriving DecidableEq

inductive Rejection where
  | explicitArguments
  | deduction
deriving DecidableEq

def Rejection.text : Rejection → String
  | explicitArguments => "explicit template arguments do not fit its parameters"
  | deduction => "no substitution reproduces the arguments"

/-- How the use-sites of a family are matched. -/
def Flavor.siteMode : Flavor → MatchMode
  | .classLike => .structural
  | .functionLike => .call

namespace Pattern

/-- Binds the parameters from position `id` on to the template arguments left.  A pack takes all
of them. -/
def seedFrom (model : TypeModel) (id : ParamId) :
    List Parameter → List Term → Substitution → Option Substitution
  | _, [], seed => some seed
  | [], _ :: _, _ => none
  | p :: ps, arg :: args, seed =>
    if model.isPack p then
      if (arg :: args).all (model.accepts p) then some (seed.insert id (.pack (arg :: args)))
      else none
    else if model.accepts p arg then seedFrom model (id + 1) ps args (seed.insert id (.single arg))
    else none

/-- Binds parameters to explicit template arguments by position; none if there are too many of
them or one is of the wrong kind. -/
def seed? (model : TypeModel) (p : Pattern) (explicitArgs : List Term) : Option Substitution :=
  seedFrom model 0 p.parameters explicitArgs .empty

/-- The substitution by which a pattern takes a use-site, or the reason why it does not. -/
def screen (model : TypeModel) (flavor : Flavor) (args explicitArgs : List Term) (p : Pattern) :
    Except Rejection Substitution :=
  match p.seed? model explicitArgs with
  | none => .error .explicitArguments
  | some seed =>
    match p.match? model flavor.siteMode seed args with
    | none => .error .deduction
    | some σ => .ok σ

end Pattern

/-- The patterns of a family after screening for one use-site, each list in the given order. -/
structure Screening where
  viable : List Candidate := []
  rejected : List (PatternId × Rejection) := []
deriving DecidableEq

def Screening.ofPatterns (model : TypeModel) (flavor : Flavor) (args explicitArgs : List Term) :
    List (PatternId × Pattern) → Screening
  | [] => {}
  | (id, p) :: rest =>
    let others := ofPatterns model flavor args explicitArgs rest
    match p.screen model flavor args explicitArgs with
    | .ok σ => { others with viable := ⟨id, p, σ⟩ :: others.viable }
    | .error reason => { others with rejected := (id, reason) :: others.rejected }

end TemplateResolution
