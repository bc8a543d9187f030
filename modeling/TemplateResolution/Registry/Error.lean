import TemplateResolution.Pattern.Basic

/-!
# Why a declaration is refused

Every cause has a message, a code that names it and, for most, an advice.
-/

namespace TemplateResolution

/-- What is wrong with the pattern that a specialization names. -/
inductive TargetFault where
  | unregistered
  /-- The target has another name. -/
  | otherFamily (owner : String)
  | notPrimary
  | notPrimaryOrOverload
  /-- The template arguments do not lead to the argument list. -/
  | argumentsDiffer
deriving DecidableEq

def TargetFault.text : TargetFault → String
  | unregistered => "no such pattern is registered"
  | otherFamily owner => s!"it belongs to `{owner}`"
  | notPrimary => "only a primary can be partially specialized"
  | notPrimaryOrOverload => "only a primary or an overload can be explicitly specialized"
  | argumentsDiffer => "its argument list does not follow from its template arguments"

/-- The cause of a refusal; `name` is the name of the refused pattern. -/
inductive RegistrationError where
  | frozen (name : String)
  | flavorMismatch (name : String) (existing found : Flavor)
  | duplicatePrimary (name : String)
  | partialOfOverload (name : String)
  | invalidTarget (name : String) (target : PatternId) (fault : TargetFault)
  | duplicateParameter (name parameter : String)
  | multiplePacks (name first second : String)
  | packNotLast (name pack parameter : String)
  | expansionNotLast (name : String)
  | unexpandedPack (name parameter : String)
  | expansionWithoutPack (name : String)
  | undeducibleParameter (name parameter : String)
  | identicalToPrimary (name signature : String)
  | notMoreSpecialized (name signature : String)
  | defaultInSpecialization (name : String) (position : Nat)
  | explicitWithParameters (name : String)
  | explicitArgumentMismatch (name : String) (expected found : Nat)
  | undeducibleExplicit (name signature : String)
  | duplicatePattern (name signature : String) (existing : PatternId)
deriving DecidableEq

namespace RegistrationError

def message : RegistrationError → String
  | frozen name => s!"Cannot register `{name}`: the registry has been frozen"
  | flavorMismatch name existing found =>
    s!"`{name}` is a {existing.text} family and cannot take a {found.text} pattern"
  | duplicatePrimary name => s!"`{name}` already has a primary pattern"
  | partialOfOverload name => s!"`{name}` is function-like and cannot be partially specialized"
  | invalidTarget name target fault =>
    s!"`{name}` cannot specialize {PatternId.text target}: {fault.text}"
  | duplicateParameter name parameter => s!"Parameter `{parameter}` of `{name}` is declared twice"
  | multiplePacks name first second =>
    s!"`{name}` declares more than one pack: `{first}` and `{second}`"
  | packNotLast name pack parameter =>
    s!"Pack `{pack}` of `{name}` is followed by `{parameter}`, " ++
      "which has no default and cannot be deduced"
  | expansionNotLast name => s!"A pack expansion in `{name}` is not the last argument of its list"
  | unexpandedPack name parameter =>
    s!"Pack `{parameter}` of `{name}` is used without being expanded"
  | expansionWithoutPack name => s!"A pack expansion in `{name}` does not mention any pack"
  | undeducibleParameter name parameter =>
    s!"Parameter `{parameter}` of `{name}` cannot be deduced from its argument list"
  | identicalToPrimary _ signature => s!"`{signature}` has the same argument list as its primary"
  | notMoreSpecialized _ signature => s!"`{signature}` is not more specialized than its primary"
  | defaultInSpecialization name position =>
    s!"Argument {position} of specialization `{name}` declares a default"
  | explicitWithParameters name => s!"Explicit specialization of `{name}` declares parameters"
  | explicitArgumentMismatch name expected found =>
    s!"Explicit specialization of `{name}` supplies {found} template arguments, " ++
      s!"expected {expected}"
  | undeducibleExplicit _ signature =>
    s!"Template arguments of explicit specialization `{signature}` cannot be deduced"
  | duplicatePattern _ signature existing =>
    s!"`{signature}` is equivalent to the already registered {PatternId.text existing}"

def code : RegistrationError → String
  | frozen _ => "specres::registration::frozen"
  | flavorMismatch _ _ _ => "specres::registration::flavor_mismatch"
  | duplicatePrimary _ => "specres::registration::duplicate_primary"
  | partialOfOverload _ => "specres::registration::partial_of_overload"
  | invalidTarget _ _ _ => "specres::registration::invalid_target"
  | duplicateParameter _ _ => "specres::registration::duplicate_parameter"
  | multiplePacks _ _ _ => "specres::registration::multiple_packs"
  | packNotLast _ _ _ => "specres::registration::pack_not_last"
  | expansionNotLast _ => "specres::registration::expansion_not_last"
  | unexpandedPack _ _ => "specres::registration::unexpanded_pack"
  | expansionWithoutPack _ => "specres::registration::expansion_without_pack"
  | undeducibleParameter _ _ => "specres::registration::undeducible_parameter"
  | identicalToPrimary _ _ => "specres::registration::identical_to_primary"
  | notMoreSpecialized _ _ => "specres::registration::not_more_specialized"
  | defaultInSpecialization _ _ => "specres::registration::default_in_specialization"
  | explicitWithParameters _ => "specres::registration::explicit_with_parameters"
  | explicitArgumentMismatch _ _ _ => "specres::registration::explicit_argument_mismatch"
  | undeducibleExplicit _ _ => "specres::registration::undeducible_explicit"
  | duplicatePattern _ _ _ => "specres::registration::duplicate_pattern"

def advice : RegistrationError → Option String
  | frozen _ =>
    some ("Declare every pattern before calling `freeze()`, " ++
      "or take a `snapshot()` to keep declaring")
  | flavorMismatch _ _ _ => some "Overloads and class-like primaries cannot share a name"
  | duplicatePrimary _ =>
    some "Declare a partial or explicit specialization of the existing primary instead"
  | partialOfOverload _ => some "Declare another overload instead"
  | invalidTarget _ _ _ => none
  | duplicateParameter _ _ => none
  | multiplePacks _ _ _ => some "A pattern may have at most one pack parameter"
  | packNotLast _ _ parameter =>
    some s!"Move the pack to the end of the parameter list or give `{parameter}` a default"
  | expansionNotLast _ => none
  | unexpandedPack _ parameter => some s!"Write `{parameter}...` wherever the pack is used"
  | expansionWithoutPack _ => none
  | undeducibleParameter _ _ =>
    some ("Every parameter of a specialization must appear on its own at least once; " ++
      "`X+1` is not enough")
  | identicalToPrimary _ _ =>
    some "A partial specialization must narrow the primary's arguments"
  | notMoreSpecialized _ _ =>
    some "A partial specialization must accept a strict subset of what the primary accepts"
  | defaultInSpecialization _ _ =>
    some "Specializations inherit defaults from the pattern they specialize"
  | explicitWithParameters _ => some "Use a partial specialization to keep parameters"
  | explicitArgumentMismatch _ _ _ => none
  | undeducibleExplicit _ _ => some "Supply the template arguments explicitly"
  | duplicatePattern _ _ _ =>
    some ("Functionally equivalent patterns would make every use ambiguous; " ++
      "remove one of them")

end RegistrationError

end TemplateResolution
