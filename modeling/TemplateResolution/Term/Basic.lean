import TemplateResolution.Qualifiers

/-!
# Terms

A term is what stands at an argument position: a leaf type, a constant, the
name of a template, a parameter of the enclosing pattern, or one of these under
pointers, qualifiers, references, template-ids, pack expansions and constant
offsets.  Names are opaque here; whether two of them mean the same leaf is for
a type model to say.
-/

namespace TemplateResolution

/-- The position of a parameter in the parameter list of its pattern. -/
abbrev ParamId := Nat

inductive ParamKind where
  | type
  | value
  /-- A parameter that stands for a template. -/
  | nested
deriving DecidableEq

inductive RefKind where
  | lvalue
  | rvalue
deriving DecidableEq

/-- A stand-in for an arbitrary argument of its kind, equal to nothing but itself. -/
structure Placeholder where
  id : Nat
  kind : ParamKind
deriving DecidableEq

inductive Term where
  | param (id : ParamId)
  | placeholder (token : Placeholder)
  | type (name : String)
  /-- A constant of a declared type. -/
  | value (number : Int) (type : String)
  | template (name : String)
  /-- A template-id: a template, or a parameter that stands for one, and its arguments. -/
  | apply (head : Term) (args : List Term)
  | pointer (inner : Term)
  | qualified (quals : Qualifiers) (inner : Term)
  | reference (kind : RefKind) (inner : Term)
  /-- A pack expansion: one argument for each element of the pack it mentions. -/
  | expansion (inner : Term)
  /-- A constant at a fixed distance from `base`; nothing is deduced from it. -/
  | offset (base : Term) (delta : Int)

namespace Term

/-- Whether the term denotes a type, rather than a constant, a template or a parameter. -/
def isTypeLike : Term → Bool
  | type _ | apply _ _ | pointer _ | qualified _ _ | reference _ _ => true
  | placeholder token => token.kind = .type
  | param _ | value _ _ | template _ | expansion _ | offset _ _ => false

def isExpansion : Term → Bool
  | expansion _ => true
  | _ => false

theorem exists_of_isExpansion {t : Term} (h : t.isExpansion = true) :
    ∃ inner, t = expansion inner := by
  cases t with
  | expansion inner => exact ⟨inner, rfl⟩
  | _ => exact Bool.noConfusion h

/-- The term that an expansion repeats; any other term is its own. -/
def expanded : Term → Term
  | expansion inner => inner
  | t => t

/-- `element` in the shape of `t`: an expansion if `t` is one. -/
def expandedLike (t element : Term) : Term :=
  if t.isExpansion then expansion element else element

end Term

end TemplateResolution
