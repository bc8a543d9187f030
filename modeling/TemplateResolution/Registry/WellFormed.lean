import TemplateResolution.Registry.Error
import TemplateResolution.TypeModel.Basic

/-!
# Well-formed patterns

What a pattern has to satisfy whatever has been declared before it.  Its
parameters have different names and at most one pack among them, and what
follows the pack has a default or can be deduced.  In its argument list every
pack stands inside an expansion, every expansion mentions a pack, and an
expansion is the last item of its list.
-/

namespace TemplateResolution

namespace Pattern

def isPack (model : TypeModel) (p : Pattern) (id : ParamId) : Bool :=
  (p.parameter? id).any model.isPack

/-! ### Parameters -/

/-- The first parameter whose name is one of `earlier` or that of a parameter before it. -/
def repeated? (earlier : List String) : List Parameter → Option Parameter
  | [] => none
  | p :: ps => if earlier.contains p.name then some p else repeated? (p.name :: earlier) ps

/-- The parameters from the first pack on, with their positions. -/
def fromPack (model : TypeModel) (p : Pattern) : List (Parameter × ParamId) :=
  p.parameters.zipIdx.dropWhile fun (q, _) => !model.isPack q

/-- The parameters that may follow a pack without a default; the argument list of a primary is
written by position, so nothing behind its pack is deduced. -/
def deducibleBehindPack (p : Pattern) : List ParamId :=
  match p.role with
  | .primary => []
  | _ => p.deducibleParameters

def checkPacks (model : TypeModel) (p : Pattern) : Except RegistrationError Unit :=
  match p.fromPack model with
  | [] => .ok ()
  | (pack, _) :: later =>
    match later.find? fun (q, _) => model.isPack q with
    | some (second, _) => .error (.multiplePacks p.name pack.name second.name)
    | none =>
      match later.find? fun (q, id) => q.default.isNone && !p.deducibleBehindPack.contains id with
      | some (q, _) => .error (.packNotLast p.name pack.name q.name)
      | none => .ok ()

def checkParameters (model : TypeModel) (p : Pattern) : Except RegistrationError Unit :=
  match repeated? [] p.parameters with
  | some q => .error (.duplicateParameter p.name q.name)
  | none => p.checkPacks model

/-! ### Arguments -/

/-- Whether an expansion stands in front of another item. -/
def hasInnerExpansion (ts : List Term) : Bool := ts.dropLast.any Term.isExpansion

mutual

/-- Whether an expansion is misplaced in some list of template arguments inside a term. -/
def misplacesExpansion : Term → Bool
  | .apply head args =>
    misplacesExpansion head || hasInnerExpansion args || misplacesExpansionList args
  | .pointer inner | .expansion inner | .qualified _ inner | .reference _ inner =>
    misplacesExpansion inner
  | .offset base _ => misplacesExpansion base
  | .param _ | .placeholder _ | .type _ | .value _ _ | .template _ => false

def misplacesExpansionList : List Term → Bool
  | [] => false
  | t :: ts => misplacesExpansion t || misplacesExpansionList ts

end

mutual

/-- Checks from left to right that packs occur inside expansions only and that every expansion
mentions a pack; `expanded` tells whether the term stands inside one. -/
def checkUsage (model : TypeModel) (p : Pattern) : Term → Bool → Except RegistrationError Unit
  | .param id, expanded =>
    match p.parameter? id with
    | some q =>
      if model.isPack q && !expanded then .error (.unexpandedPack p.name q.name) else .ok ()
    | none => .ok ()
  | .expansion inner, _ =>
    if inner.occurrences.any (p.isPack model) then checkUsage model p inner true
    else .error (.expansionWithoutPack p.name)
  | .apply head args, expanded => do
    checkUsage model p head expanded
    checkUsageList model p args expanded
  | .pointer inner, expanded | .qualified _ inner, expanded | .reference _ inner, expanded =>
    checkUsage model p inner expanded
  | .offset base _, expanded => checkUsage model p base expanded
  | .placeholder _, _ | .type _, _ | .value _ _, _ | .template _, _ => .ok ()

def checkUsageList (model : TypeModel) (p : Pattern) :
    List Term → Bool → Except RegistrationError Unit
  | [], _ => .ok ()
  | t :: ts, expanded => do
    checkUsage model p t expanded
    checkUsageList model p ts expanded

end

/-- Of two faults in an argument list, an expansion misplaced among the slots comes first and one
misplaced deeper comes last. -/
def checkArguments (model : TypeModel) (p : Pattern) : Except RegistrationError Unit :=
  if hasInnerExpansion p.args then .error (.expansionNotLast p.name)
  else do
    checkUsageList model p p.args false
    if misplacesExpansionList p.args then .error (.expansionNotLast p.name) else .ok ()

end Pattern

end TemplateResolution
