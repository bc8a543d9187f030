import TemplateResolution.Parameter
import TemplateResolution.Term.Parameters

/-!
# Patterns

A pattern is a named, parameterized signature: the terms of its slots say which
argument lists it describes.  Its role says what it is to the other patterns of
its name.  A class-like family has one primary, which partial specializations
narrow; a function-like family has overloads.  An explicit specialization of a
primary or of an overload replaces it for one choice of template arguments.
-/

namespace TemplateResolution

/-- The position of a registered pattern in the order of registration. -/
abbrev PatternId := Nat

def PatternId.text (id : PatternId) : String := s!"#{id}"

/-- What the patterns of one name declare. -/
inductive Flavor where
  | classLike
  | functionLike
deriving DecidableEq

def Flavor.text : Flavor → String
  | .classLike => "class-like"
  | .functionLike => "function-like"

/-- One position of an argument list. -/
structure Slot where
  term : Term
  /-- Stands in for the argument when a call leaves it out. -/
  default : Option Term := none
deriving DecidableEq

def Slot.isExpansion (slot : Slot) : Bool := slot.term.isExpansion

inductive Role where
  | primary
  | overload
  /-- A partial specialization of the primary `of`. -/
  | partialOf (of : PatternId)
  /-- An explicit specialization of `of` at `templateArgs`, which may be left out until they
  are deduced from the slots. -/
  | explicitOf (of : PatternId) (templateArgs : List Term)
deriving DecidableEq

structure Pattern where
  name : String
  role : Role
  parameters : List Parameter := []
  slots : List Slot := []
deriving DecidableEq

namespace Pattern

/-- The slots of a primary that declares `parameters`: each parameter itself, a pack expanded. -/
def primarySlots (parameters : List Parameter) : List Slot :=
  parameters.mapIdx fun id p => ⟨if p.pack then .expansion (.param id) else .param id, none⟩

/-- A class-like primary, whose argument list is its parameter list. -/
def primary (name : String) (parameters : List Parameter) : Pattern :=
  { name, role := .primary, parameters, slots := primarySlots parameters }

def overload (name : String) (parameters : List Parameter) (slots : List Slot) : Pattern :=
  { name, role := .overload, parameters, slots }

def partialOf (name : String) (primary : PatternId) (parameters : List Parameter)
    (args : List Term) : Pattern :=
  { name, role := .partialOf primary, parameters, slots := args.map ({ term := · }) }

/-- The explicit specialization of `of` at the given template arguments. -/
def explicitAt (name : String) (of : PatternId) (templateArgs : List Term) : Pattern :=
  { name, role := .explicitOf of templateArgs }

/-- The explicit specialization of `of` with the given argument list. -/
def explicitFor (name : String) (of : PatternId) (args : List Term) : Pattern :=
  { name, role := .explicitOf of [], slots := args.map ({ term := · }) }

def parameter? (p : Pattern) (id : ParamId) : Option Parameter := p.parameters[id]?

/-- The terms of the slots, without their defaults. -/
def args (p : Pattern) : List Term := p.slots.map (·.term)

/-- Whether an expansion stands in the argument list itself. -/
def isVariadic (p : Pattern) : Bool := p.slots.any (·.isExpansion)

def isExplicit (p : Pattern) : Bool :=
  match p.role with
  | .explicitOf _ _ => true
  | _ => false

/-- The pattern that this one specializes. -/
def specializes (p : Pattern) : Option PatternId :=
  match p.role with
  | .partialOf of | .explicitOf of _ => some of
  | .primary | .overload => none

/-- The parameters that an argument list determines. -/
def deducibleParameters (p : Pattern) : List ParamId :=
  (p.args.flatMap Term.deducibleOccurrences).eraseDups

end Pattern

end TemplateResolution
