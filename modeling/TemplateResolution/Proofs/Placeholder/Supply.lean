import TemplateResolution.Placeholder
import TemplateResolution.Proofs.Placeholder.Renaming

/-!
# Supplies that start elsewhere

A supply numbers its placeholders consecutively, so what it binds after `k`
placeholders have been issued is what a new supply binds, renamed by `k`
(`bindFrom_shift`).  It has then issued one more for each parameter.
-/

namespace TemplateResolution.PlaceholderSupply

theorem bindingFor_rename (f : Nat → Nat) (model : TypeModel) (p : Parameter)
    (token : Placeholder) :
    (bindingFor model p token).rename f = bindingFor model p (token.rename f) := by
  rw [bindingFor, bindingFor]
  split <;> rfl

theorem bindFrom_cons (model : TypeModel) (id : ParamId) (p : Parameter) (ps : List Parameter)
    (σ : Substitution) (supply : PlaceholderSupply) :
    (bindFrom model id (p :: ps) σ).run supply =
      (bindFrom model (id + 1) ps
        (σ.insert id (bindingFor model p ⟨supply.issued, model.argumentKind p⟩))).run
          ⟨supply.issued + 1⟩ := rfl

theorem bindFrom_shift (model : TypeModel) (k : Nat) (ps : List Parameter) :
    ∀ (id : ParamId) (σ : Substitution) (n : Nat),
      (bindFrom model id ps (σ.rename (· + k))).run ⟨n + k⟩ =
        (((bindFrom model id ps σ).run ⟨n⟩).1.rename (· + k),
          ⟨n + k + ps.length⟩) := by
  induction ps with
  | nil => intro id σ n; rfl
  | cons p ps ih =>
    intro id σ n
    have hbinding : bindingFor model p ⟨n + k, model.argumentKind p⟩ =
        (bindingFor model p ⟨n, model.argumentKind p⟩).rename (· + k) :=
      (bindingFor_rename (· + k) model p ⟨n, model.argumentKind p⟩).symm
    rw [bindFrom_cons, hbinding, Substitution.insert_rename, show n + k + 1 = n + 1 + k by omega,
      ih, List.length_cons, show n + 1 + k + ps.length = n + k + (ps.length + 1) by omega]
    rfl

end TemplateResolution.PlaceholderSupply
