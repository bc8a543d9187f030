import TemplateResolution.Substitution.Basic
import TemplateResolution.Term.Decoration
import TemplateResolution.Term.Parameters

/-!
# Applying a substitution

`apply` puts bound terms in place of parameters and keeps the result normal:
qualifiers merge, references collapse, offsets of constants are computed.  In a
list of terms an expansion over a bound pack becomes one term for each element;
an element that is itself an expansion stays one.
-/

namespace TemplateResolution.Substitution

/-- The first parameter of `t` that is bound to a pack, with the elements. -/
def boundPack (σ : Substitution) (t : Term) : Option (ParamId × List Term) :=
  t.occurrences.findSome? fun id =>
    match σ.get? id with
    | some (.pack elements) => some (id, elements)
    | _ => none

/-- The substitution for one element of a pack. -/
def atElement (σ : Substitution) (pack : ParamId) (element : Term) : Substitution :=
  σ.insert pack (.single element.expanded)

/-- What stands for the parameter `id`: its term, or itself if none or a pack is bound. -/
def atParam (σ : Substitution) (id : ParamId) : Term :=
  match σ.get? id with
  | some (.single t) => t
  | _ => .param id

mutual

def apply : Term → Substitution → Term
  | .param id, σ => σ.atParam id
  | .apply head args, σ => .apply (apply head σ) (applyList args σ)
  | .pointer inner, σ => .pointer (apply inner σ)
  | .qualified quals inner, σ => (apply inner σ).qualify quals
  | .reference kind inner, σ => (apply inner σ).refer kind
  | .expansion inner, σ => .expansion (apply inner σ)
  | .offset base delta, σ => (apply base σ).plus delta
  | .placeholder token, _ => .placeholder token
  | .type name, _ => .type name
  | .value number type, _ => .value number type
  | .template name, _ => .template name

def applyList : List Term → Substitution → List Term
  | [], _ => []
  | .expansion inner :: ts, σ =>
    match σ.boundPack inner with
    | some (pack, elements) =>
      elements.map (fun e => e.expandedLike (apply inner (σ.atElement pack e))) ++ applyList ts σ
    | none => .expansion (apply inner σ) :: applyList ts σ
  | t :: ts, σ => apply t σ :: applyList ts σ

end

/-- Only an expansion becomes more or less than one term. -/
theorem applyList_cons {t : Term} (h : t.isExpansion = false) (ts : List Term) (σ : Substitution) :
    applyList (t :: ts) σ = apply t σ :: applyList ts σ := by
  cases t with
  | expansion inner => exact Bool.noConfusion h
  | _ => simp [applyList]

theorem applyList_append (σ : Substitution) (ts us : List Term) :
    applyList (ts ++ us) σ = applyList ts σ ++ applyList us σ := by
  induction ts with
  | nil => rfl
  | cons t ts ih =>
    cases t with
    | expansion inner =>
      cases h : σ.boundPack inner with
      | none => simp [applyList, h, ih]
      | some b => simp [applyList, h, ih]
    | _ => simp [applyList, ih]

end TemplateResolution.Substitution

namespace TemplateResolution

/-- The term with its parameters replaced. -/
def Term.subst (σ : Substitution) (t : Term) : Term := Substitution.apply t σ

def Term.substList (σ : Substitution) (ts : List Term) : List Term := Substitution.applyList ts σ

end TemplateResolution
