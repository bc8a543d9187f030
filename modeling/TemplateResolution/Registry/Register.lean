import TemplateResolution.Candidate
import TemplateResolution.Pattern.Instance
import TemplateResolution.Pattern.Signature
import TemplateResolution.Registry.Basic
import TemplateResolution.Registry.WellFormed
import TemplateResolution.Specificity.Comparison

/-!
# Registration

`Registry.register` accepts a pattern or says why not.  A refused pattern leaves
no trace.  A primary has to be the only one of its name, and an overload must
not repeat another.  A partial specialization has to narrow its primary and to
determine all its parameters.  An explicit specialization is completed on the
way in: its template arguments and its argument list each follow from the other.
-/

namespace TemplateResolution

namespace Declarations

/-- The comparator for registration, with every rule on. -/
def comparator (d : Declarations) (flavor : Flavor) : Comparator := ⟨d.model, {}, flavor⟩

/-- The first of `siblings` that declares the same as `p`. -/
def equivalentAmong (c : Comparator) (p : Pattern) :
    List (PatternId × Pattern) → StateM PlaceholderSupply (Option PatternId)
  | [] => pure none
  | (id, sibling) :: rest => do
    if ← c.equivalent sibling p then pure (some id) else equivalentAmong c p rest

def checkNew (d : Declarations) (flavor : Flavor) (siblings : List PatternId) (p : Pattern) :
    Except RegistrationError Unit :=
  match ((equivalentAmong (d.comparator flavor) p (d.withIds siblings)).run {}).1 with
  | some existing => .error (.duplicatePattern p.name p.signature existing)
  | none => .ok ()

/-! ### Primaries and overloads -/

def checkPrimary (d : Declarations) (p : Pattern) : Except RegistrationError Unit := do
  p.checkArguments d.model
  match d.family? p.name with
  | none => .ok ()
  | some family =>
    match family.flavor, family.primaries with
    | .functionLike, _ => .error (.flavorMismatch p.name .functionLike .classLike)
    | .classLike, _ :: _ => .error (.duplicatePrimary p.name)
    | .classLike, [] => .ok ()

def checkOverload (d : Declarations) (p : Pattern) : Except RegistrationError Unit := do
  p.checkArguments d.model
  match d.family? p.name with
  | none => .ok ()
  | some family =>
    match family.flavor with
    | .classLike => .error (.flavorMismatch p.name .classLike .functionLike)
    | .functionLike => d.checkNew .functionLike family.primaries p

/-! ### Partial specializations -/

/-- The pattern that `p` specializes, which has to be of the same name. -/
def target (d : Declarations) (p : Pattern) (of : PatternId) : Except RegistrationError Pattern :=
  match d.pattern? of with
  | none => .error (.invalidTarget p.name of .unregistered)
  | some t =>
    if t.name = p.name then .ok t else .error (.invalidTarget p.name of (.otherFamily t.name))

def checkDeducible (p : Pattern) : Except RegistrationError Unit :=
  match p.parameters.zipIdx.find? fun (_, id) => !p.deducibleParameters.contains id with
  | some (q, _) => .error (.undeducibleParameter p.name q.name)
  | none => .ok ()

/-- A partial specialization reproduces less than its primary. -/
def checkNarrower (d : Declarations) (primary p : Pattern) : Except RegistrationError Unit :=
  let c := (((d.comparator .classLike).compare primary p).run {}).1
  if c.aFromB && c.bFromA then .error (.identicalToPrimary p.name p.signature)
  else if c.specificity = .bMoreSpecific then .ok ()
  else .error (.notMoreSpecialized p.name p.signature)

def checkPartial (d : Declarations) (p : Pattern) (of : PatternId) :
    Except RegistrationError Unit := do
  let primary ← d.target p of
  match primary.role with
  | .primary => .ok ()
  | .overload => .error (.partialOfOverload p.name)
  | .partialOf _ | .explicitOf _ _ => .error (.invalidTarget p.name of .notPrimary)
  match p.slots.findIdx? fun slot => slot.default.isSome with
  | some position => .error (.defaultInSpecialization p.name position)
  | none => .ok ()
  p.checkArguments d.model
  checkDeducible p
  d.checkNarrower primary p
  d.checkNew .classLike (((d.family? p.name).map (·.partials)).getD []) p

/-! ### Explicit specializations -/

/-- The substitution for the target's parameters: from the template arguments if there are some,
else from the argument list. -/
def explicitSubstitution (d : Declarations) (p target : Pattern) (templateArgs : List Term) :
    Except RegistrationError Substitution :=
  if templateArgs.isEmpty then
    match target.match? d.model .structural .empty p.args with
    | some σ => .ok (target.complete d.model σ)
    | none => .error (.undeducibleExplicit p.name p.signature)
  else
    match target.seed? d.model templateArgs with
    | some σ => .ok (target.complete d.model σ)
    | none =>
      .error (.explicitArgumentMismatch p.name target.parameters.length templateArgs.length)

/-- All template arguments under a substitution for the target's parameters. -/
def explicitTemplateArgs (p target : Pattern) (templateArgs : List Term) (σ : Substitution) :
    Except RegistrationError (List Term) :=
  match σ.flatten target.parameters.length with
  | some ts => .ok ts
  | none =>
    if templateArgs.isEmpty then .error (.undeducibleExplicit p.name p.signature)
    else .error (.explicitArgumentMismatch p.name target.parameters.length templateArgs.length)

/-- Whether a pattern is the explicit specialization of `of` at these template arguments. -/
def isExplicitAt (model : TypeModel) (of : PatternId) (templateArgs : List Term) (p : Pattern) :
    Bool :=
  match p.role with
  | .explicitOf target ts => target = of && model.sameTerms ts templateArgs
  | _ => false

/-- The explicit specialization of `of` at these template arguments, if it is registered. -/
def explicitAt? (d : Declarations) (family : Family) (of : PatternId) (templateArgs : List Term) :
    Option PatternId :=
  family.explicits.find? fun id => (d.pattern? id).any (isExplicitAt d.model of templateArgs)

/-- Completes an explicit specialization.  An argument list that was given has to be the beginning
of the one that follows from the template arguments. -/
def completeExplicit (d : Declarations) (p : Pattern) (of : PatternId) (templateArgs : List Term) :
    Except RegistrationError Pattern := do
  unless p.parameters.isEmpty do .error (.explicitWithParameters p.name)
  let target ← d.target p of
  match target.role with
  | .primary | .overload => .ok ()
  | .partialOf _ | .explicitOf _ _ => .error (.invalidTarget p.name of .notPrimaryOrOverload)
  let σ ← d.explicitSubstitution p target templateArgs
  let templateArgs ← explicitTemplateArgs p target templateArgs σ
  let slots := target.instantiate σ
  unless d.model.sameTerms ((slots.map (·.term)).take p.slots.length) p.args do
    .error (.invalidTarget p.name of .argumentsDiffer)
  let completed : Pattern := { name := p.name, role := .explicitOf of templateArgs, slots }
  match (d.family? p.name).bind fun family => d.explicitAt? family of templateArgs with
  | some existing => .error (.duplicatePattern p.name completed.signature existing)
  | none => .ok completed

/-! ### Any pattern -/

/-- The pattern as it is to be recorded, or the reason why it is refused. -/
def accept (d : Declarations) (p : Pattern) : Except RegistrationError Pattern := do
  p.checkParameters d.model
  match p.role with
  | .primary => d.checkPrimary p; .ok p
  | .overload => d.checkOverload p; .ok p
  | .partialOf of => d.checkPartial p of; .ok p
  | .explicitOf of templateArgs => d.completeExplicit p of templateArgs

end Declarations

/-- Declares a pattern: the number it gets and the registry with it. -/
def Registry.register (r : Registry) (p : Pattern) :
    Except RegistrationError (PatternId × Registry) :=
  if r.frozen then .error (.frozen p.name)
  else do
    let accepted ← r.declarations.accept p
    .ok (r.declarations.size, { r with declarations := r.declarations.record accepted })

/-- Declares patterns in order; the first refusal ends it. -/
def Registry.registerAll (r : Registry) : List Pattern → Except RegistrationError Registry
  | [] => .ok r
  | p :: ps =>
    match r.register p with
    | .ok (_, r') => r'.registerAll ps
    | .error e => .error e

end TemplateResolution
