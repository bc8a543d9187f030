import TemplateResolution.Pattern.Basic

/-!
# Signatures

The signature of a pattern is its declaration on one line.  A primary shows its
parameters only; the template arguments of an explicit specialization belong to
another pattern, so parameters in them are not named.
-/

namespace TemplateResolution

def Slot.text (names : List String) (slot : Slot) : String :=
  slot.term.text names ++
    match slot.default with
    | some default => " = " ++ default.text names
    | none => ""

def Pattern.signature (p : Pattern) : String :=
  let names := Parameter.names p.parameters
  let params := ", ".intercalate (p.parameters.map (Parameter.declaration p.parameters))
  let args := ", ".intercalate (p.slots.map (Slot.text names))
  match p.role with
  | .primary => s!"template<{params}> {p.name}"
  | .partialOf _ => s!"template<{params}> {p.name}<{args}>"
  | .overload => s!"template<{params}> {p.name}({args})"
  | .explicitOf _ templateArgs => s!"template<> {p.name}<{Term.listText [] templateArgs}>({args})"

end TemplateResolution
