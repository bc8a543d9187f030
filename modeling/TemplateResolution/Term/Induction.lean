import TemplateResolution.Term.Basic

/-!
# Induction on terms

A term holds a list of terms, and `Term.induct` is induction with the hypothesis
for every member of that list.
-/

namespace TemplateResolution.Term

@[elab_as_elim]
theorem induct {P : Term → Prop}
    (param : ∀ id, P (param id))
    (placeholder : ∀ token, P (placeholder token))
    (type : ∀ name, P (type name))
    (value : ∀ number ty, P (value number ty))
    (template : ∀ name, P (template name))
    (apply : ∀ head args, P head → (∀ t ∈ args, P t) → P (apply head args))
    (pointer : ∀ inner, P inner → P (pointer inner))
    (qualified : ∀ quals inner, P inner → P (qualified quals inner))
    (reference : ∀ kind inner, P inner → P (reference kind inner))
    (expansion : ∀ inner, P inner → P (expansion inner))
    (offset : ∀ base delta, P base → P (offset base delta))
    (t : Term) : P t :=
  @Term.rec P (fun ts => ∀ t ∈ ts, P t)
    param placeholder type value template apply pointer qualified reference expansion offset
    (fun _ ht => absurd ht List.not_mem_nil)
    (fun _ _ h hs _ hu => (List.mem_cons.1 hu).elim (fun e => e ▸ h) (hs _))
    t

end TemplateResolution.Term
