import TemplateResolution.Pattern.Basic
import TemplateResolution.Substitution.Apply
import TemplateResolution.TypeModel.Basic

/-!
# Deductions

A deduction is the state of one match: the bindings found so far, the terms
whose check has to wait for all bindings, and, inside an expansion, the element
that is being found for the pack.  Each step below either extends the state or
fails, and a failure is final: a term has at most one way to bind.

A parameter occurs once to be bound and any number of times to be confirmed
(`bind`).  A pack is bound by an expansion only (`expand`), which finds one
element for each target and puts them together.
-/

namespace TemplateResolution

inductive MatchMode where
  /-- Terms have to agree in every decoration. -/
  | structural
  /-- The reference and the qualifiers at the top of each position are left aside. -/
  | ordering
  /-- Arguments bind as in a call. -/
  | call
deriving DecidableEq

/-- What stays fixed during one match. -/
structure Matching where
  model : TypeModel
  mode : MatchMode
  parameters : List Parameter
  /-- The parameters bound from the start. -/
  seeded : List ParamId := []

namespace Matching

def isPack (m : Matching) (id : ParamId) : Bool :=
  m.parameters[id]?.any m.model.isPack

/-- The pack that an expansion of `inner` runs over. -/
def packOf (m : Matching) (inner : Term) : Option ParamId := inner.occurrences.find? m.isPack

/-- The parameter `T` of a forwarding reference `T&&`: an unqualified type parameter that was
not bound from the start. -/
def forwarded (m : Matching) : Term → Option ParamId
  | .param id =>
    if m.parameters[id]?.any (m.model.argumentKind · = .type) && !m.seeded.contains id then some id
    else none
  | _ => none

end Matching

structure Deduction where
  substitution : Substitution
  /-- Pairs of a pattern and a target to be compared at the end. -/
  deferred : List (Term × Term) := []
  /-- The pack in progress, and its element once that is found. -/
  element : Option (ParamId × Option Term) := none

namespace Deduction

def start (seed : Substitution) : Deduction := { substitution := seed }

def bindElement (m : Matching) (pack : ParamId) (found : Option Term) (t : Term)
    (d : Deduction) : Option Deduction :=
  match found with
  | some u => if m.model.sameTerm u t then some d else none
  | none => some { d with element := some (pack, some t) }

def bindSingle (m : Matching) (id : ParamId) (t : Term) (d : Deduction) : Option Deduction :=
  match m.parameters[id]? with
  | none => none
  | some p =>
    if m.model.isPack p then none
    else
      match d.substitution.get? id with
      | some (.single u) => if m.model.sameTerm u t then some d else none
      | some (.pack _) => none
      | none => some { d with substitution := d.substitution.insert id (.single t) }

/-- Binds `id` to `t`, or confirms that it is bound to the same term. -/
def bind (m : Matching) (id : ParamId) (t : Term) (d : Deduction) : Option Deduction :=
  match d.element with
  | some (pack, found) => if pack = id then d.bindElement m pack found t else d.bindSingle m id t
  | none => d.bindSingle m id t

/-- Binds a declared parameter to an argument of its kind. -/
def bindArgument (m : Matching) (id : ParamId) (t : Term) (d : Deduction) : Option Deduction :=
  if m.parameters[id]?.any (m.model.accepts · t) then d.bind m id t else none

def defer (pattern target : Term) (d : Deduction) : Deduction :=
  { d with deferred := (pattern, target) :: d.deferred }

/-- Compares the qualifiers a pattern wants with those of the target.  In a call the model may
let the target gain what it lacks, and the gain is recorded. -/
def admitQualifiers (m : Matching) (wanted given : Qualifiers) (position : Nat)
    (d : Deduction) : Option Deduction :=
  if given.includes wanted then some d
  else if m.mode = .call && m.model.mayQualify given wanted then
    some { d with substitution := d.substitution.recordConversion ⟨position, wanted.without given⟩ }
  else none

/-! ### Expansions -/

/-- Runs `step` on each target, numbered from `k`, with a fresh element of `pack` each time. -/
def collect (pack : ParamId) (step : Nat → Term → Deduction → Option Deduction) :
    Nat → List Term → Deduction → Option (List Term × Deduction)
  | _, [], d => some ([], d)
  | k, target :: targets, d =>
    match step k target.expanded { d with element := some (pack, none) } with
    | none => none
    | some d' =>
      match d'.element with
      | some (_, some t) =>
        match collect pack step (k + 1) targets { d' with element := none } with
        | none => none
        | some (ts, d'') => some (target.expandedLike t :: ts, d'')
      | _ => none

/-- Binds a pack to its elements, or confirms that it is bound to the same. -/
def bindPack (m : Matching) (pack : ParamId) (elements : List Term) (d : Deduction) :
    Option Deduction :=
  match d.substitution.get? pack with
  | some (.pack bound) => if m.model.sameTerms bound elements then some d else none
  | some (.single _) => none
  | none => some { d with substitution := d.substitution.insert pack (.pack elements) }

/-- Matches an expansion of `inner` against all targets; an expansion inside another is not
deduced. -/
def expand (m : Matching) (inner : Term) (step : Nat → Term → Deduction → Option Deduction)
    (targets : List Term) (d : Deduction) : Option Deduction :=
  match m.packOf inner, d.element with
  | some pack, none =>
    match collect pack step 0 targets d with
    | some (elements, d') => d'.bindPack m pack elements
    | none => none
  | _, _ => none

/-! ### The end of a match -/

/-- The substitution found, if the deferred terms agree under it. -/
def finish (m : Matching) (d : Deduction) : Option Substitution :=
  if d.deferred.all fun (pattern, target) => m.model.sameTerm (pattern.subst d.substitution) target
  then some d.substitution
  else none

end Deduction

end TemplateResolution
