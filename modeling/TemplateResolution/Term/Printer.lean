import TemplateResolution.Term.Basic

/-!
# The text of a term

A term is written as in a declaration: qualifiers in front of what they qualify,
except that those of a pointer follow the star.  Parameters have their names
where a name is known, and `$` with their position where it is not.
-/

namespace TemplateResolution

def RefKind.text : RefKind → String
  | .lvalue => "&"
  | .rvalue => "&&"

def Placeholder.text (token : Placeholder) : String :=
  match token.kind with
  | .type => s!"U{token.id}"
  | .value => s!"V{token.id}"
  | .nested => s!"TT{token.id}"

/-- The name at a parameter's position, or that position itself. -/
def ParamId.text (names : List String) (id : ParamId) : String :=
  names[id]?.getD s!"${id}"

namespace Term

def isPointer : Term → Bool
  | pointer _ => true
  | _ => false

mutual

/-- The text of a term whose parameters are named by `names`, in order. -/
def text (names : List String) : Term → String
  | param id => ParamId.text names id
  | placeholder token => token.text
  | type name => name
  | template name => name
  | value number _ => toString number
  | apply head args => text names head ++ "<" ++ ", ".intercalate (texts names args) ++ ">"
  | pointer inner => text names inner ++ "*"
  | qualified quals inner =>
    if inner.isPointer then text names inner ++ " " ++ quals.text
    else quals.text ++ " " ++ text names inner
  | reference kind inner => text names inner ++ kind.text
  | expansion inner => text names inner ++ "..."
  | offset base delta =>
    text names base ++ (if delta < 0 then "" else "+") ++ toString delta

def texts (names : List String) : List Term → List String
  | [] => []
  | t :: ts => text names t :: texts names ts

end

/-- The texts of a list of terms, separated by commas. -/
def listText (names : List String) (ts : List Term) : String :=
  ", ".intercalate (texts names ts)

end Term

end TemplateResolution
