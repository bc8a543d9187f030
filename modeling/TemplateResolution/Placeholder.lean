import TemplateResolution.Pattern.Basic
import TemplateResolution.Substitution.Basic
import TemplateResolution.TypeModel.Basic

/-!
# Placeholders

To compare two patterns, the parameters of one are bound to placeholders, which
stand for arguments about which nothing is known.  A supply hands out each
placeholder once.
-/

namespace TemplateResolution

structure PlaceholderSupply where
  issued : Nat := 0
deriving DecidableEq

namespace PlaceholderSupply

def next (kind : ParamKind) : StateM PlaceholderSupply Placeholder :=
  fun supply => (⟨supply.issued, kind⟩, ⟨supply.issued + 1⟩)

/-- The placeholder binding of a parameter: for a pack, a pack of unknown length. -/
def bindingFor (model : TypeModel) (p : Parameter) (token : Placeholder) : Binding :=
  if model.isPack p then .pack [.expansion (.placeholder token)] else .single (.placeholder token)

/-- Binds the parameters from position `id` on to fresh placeholders. -/
def bindFrom (model : TypeModel) (id : ParamId) :
    List Parameter → Substitution → StateM PlaceholderSupply Substitution
  | [], σ => pure σ
  | p :: ps, σ => do
    let token ← next (model.argumentKind p)
    bindFrom model (id + 1) ps (σ.insert id (bindingFor model p token))

/-- Binds every parameter of a pattern to a fresh placeholder. -/
def fresh (model : TypeModel) (p : Pattern) : StateM PlaceholderSupply Substitution :=
  bindFrom model 0 p.parameters .empty

end PlaceholderSupply

end TemplateResolution
