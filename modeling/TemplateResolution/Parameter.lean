import TemplateResolution.Term.Equality
import TemplateResolution.Term.Printer

/-!
# Parameters

A pattern declares its parameters in a list, and its terms refer to them by
position.  A default argument may mention the parameters in front of its own.
-/

namespace TemplateResolution

structure Parameter where
  name : String
  kind : ParamKind
  /-- The declared type of a value parameter; without one, a constant of any type will do. -/
  valueType : Option String := none
  default : Option Term := none
  /-- Takes any number of arguments of its kind. -/
  pack : Bool := false
deriving DecidableEq

namespace Parameter

def names (parameters : List Parameter) : List String := parameters.map (·.name)

/-- The words in front of the parameter's name. -/
def keyword (p : Parameter) : String :=
  match p.kind with
  | .type => "typename"
  | .value => p.valueType.getD "auto"
  | .nested => "template<typename> class"

/-- The declaration of a parameter, its default written with the names of `siblings`. -/
def declaration (siblings : List Parameter) (p : Parameter) : String :=
  p.keyword ++ (if p.pack then "..." else "") ++ " " ++ p.name ++
    match p.default with
    | some default => " = " ++ default.text (names siblings)
    | none => ""

end Parameter

end TemplateResolution
