import TemplateResolution.Pattern.Basic
import TemplateResolution.Substitution.Apply
import TemplateResolution.TypeModel.Basic

/-!
# Instances of a pattern

A substitution for a pattern's parameters may leave out what has a default.
`complete` fills that in, in parameter order, since a default may mention the
parameters before it; `instantiate` then writes the argument list out.
-/

namespace TemplateResolution.Pattern

/-- What an unbound parameter is bound to: a pack is empty, a default is taken under the
bindings so far. -/
def defaultBinding (model : TypeModel) (p : Parameter) (σ : Substitution) : Option Binding :=
  if model.isPack p then some (.pack []) else p.default.map fun t => .single (t.subst σ)

def completeAt (model : TypeModel) (id : ParamId) (p : Parameter) (σ : Substitution) :
    Substitution :=
  match σ.get? id, defaultBinding model p σ with
  | none, some b => σ.insert id b
  | _, _ => σ

/-- Completes a substitution for the parameters from position `id` on. -/
def completeFrom (model : TypeModel) (id : ParamId) : List Parameter → Substitution → Substitution
  | [], σ => σ
  | p :: ps, σ => completeFrom model (id + 1) ps (completeAt model id p σ)

/-- Binds every unbound parameter that has a default or is a pack. -/
def complete (model : TypeModel) (p : Pattern) (σ : Substitution) : Substitution :=
  completeFrom model 0 p.parameters σ

/-- The slots that stand for `slot` under a substitution. -/
def instantiateSlot (σ : Substitution) (slot : Slot) : List Slot :=
  if slot.isExpansion then (Term.substList σ [slot.term]).map ({ term := · })
  else [⟨slot.term.subst σ, slot.default.map (Term.subst σ)⟩]

/-- The argument list under a substitution, with bound packs written out. -/
def instantiate (p : Pattern) (σ : Substitution) : List Slot := p.slots.flatMap (instantiateSlot σ)

end TemplateResolution.Pattern
