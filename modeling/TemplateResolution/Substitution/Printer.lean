import TemplateResolution.Parameter
import TemplateResolution.Substitution.Basic

/-!
# The text of a substitution

Bindings are listed in the order they were made, a pack in braces.  The bound
terms come from a use-site, so parameters in them are not named.
-/

namespace TemplateResolution

def Binding.text : Binding → String
  | .single t => t.text []
  | .pack ts => "\x7b" ++ Term.listText [] ts ++ "\x7d"

/-- The bindings, with the names that `parameters` give to what is bound. -/
def Substitution.describe (parameters : List Parameter) (σ : Substitution) : String :=
  ", ".intercalate <| σ.bindings.map fun (id, b) =>
    ParamId.text (Parameter.names parameters) id ++ " = " ++ b.text

end TemplateResolution
