import TemplateResolution.Term.Printer

/-!
# Queries

A query is a use-site: the name used, the arguments, and the template arguments
written out, which bind parameters by position.  An lvalue reference among the
arguments marks an lvalue.
-/

namespace TemplateResolution

structure Query where
  name : String
  args : List Term := []
  explicitArgs : List Term := []
  /-- Leaves out specializations. -/
  primaryOnly : Bool := false

def Query.text (q : Query) : String :=
  let explicitArgs :=
    if q.explicitArgs.isEmpty then "" else "<" ++ Term.listText [] q.explicitArgs ++ ">"
  q.name ++ explicitArgs ++ "(" ++ Term.listText [] q.args ++ ")"

end TemplateResolution
