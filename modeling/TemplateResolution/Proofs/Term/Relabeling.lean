import TemplateResolution.Proofs.Term.Normal
import TemplateResolution.Substitution.Apply
import Mathlib.Logic.Equiv.Defs

/-!
# Renaming parameters

The parameters of a pattern are positions, and which position a parameter has says
nothing about the pattern.  `relabel ρ` writes `ρ id` for the parameter `id`.  What is
built from relabelled terms is the relabelling of what was built, substitutions included
(`apply_relabel`), and two terms are the same exactly when their relabellings are
(`same_relabel`).

A term without parameters is its own relabelling (`relabel_of_closed`).
-/

namespace TemplateResolution

namespace Term

mutual

/-- The term with other numbers for its parameters. -/
def relabel (ρ : Equiv.Perm ParamId) : Term → Term
  | param id => param (ρ id)
  | apply head args => apply (relabel ρ head) (relabelList ρ args)
  | pointer inner => pointer (relabel ρ inner)
  | qualified quals inner => qualified quals (relabel ρ inner)
  | reference kind inner => reference kind (relabel ρ inner)
  | expansion inner => expansion (relabel ρ inner)
  | offset base delta => offset (relabel ρ base) delta
  | placeholder token => placeholder token
  | type name => type name
  | value number ty => value number ty
  | template name => template name

def relabelList (ρ : Equiv.Perm ParamId) : List Term → List Term
  | [] => []
  | t :: ts => relabel ρ t :: relabelList ρ ts

end

variable {ρ : Equiv.Perm ParamId}

theorem relabelList_eq_map (ρ : Equiv.Perm ParamId) (ts : List Term) :
    relabelList ρ ts = ts.map (relabel ρ) := by
  induction ts with
  | nil => rfl
  | cons t ts ih => rw [relabelList, ih, List.map_cons]

mutual

/-- What mentions no parameter is not relabelled. -/
theorem relabel_of_closed : ∀ {t : Term}, t.occurrences = [] → t.relabel ρ = t
  | param id, h => absurd h (List.cons_ne_nil _ _)
  | placeholder _, _ | type _, _ | value _ _, _ | template _, _ => rfl
  | apply head args, h => by
    obtain ⟨hhead, hargs⟩ := List.append_eq_nil_iff.mp h
    rw [relabel, relabel_of_closed hhead, relabelList_of_closed hargs]
  | pointer t, h | qualified _ t, h | reference _ t, h | expansion t, h | offset t _, h => by
    have ht : t.occurrences = [] := h
    rw [relabel, relabel_of_closed ht]

theorem relabelList_of_closed : ∀ {ts : List Term}, occurrencesList ts = [] →
    relabelList ρ ts = ts
  | [], _ => rfl
  | t :: ts, h => by
    obtain ⟨ht, hts⟩ := List.append_eq_nil_iff.mp h
    rw [relabelList, relabel_of_closed ht, relabelList_of_closed hts]

end

mutual

theorem relabel_refl : ∀ t : Term, t.relabel (.refl ParamId) = t
  | param _ | placeholder _ | type _ | value _ _ | template _ => rfl
  | apply head args => by rw [relabel, relabel_refl head, relabelList_refl args]
  | pointer t | qualified _ t | reference _ t | expansion t | offset t _ => by
    rw [relabel, relabel_refl t]

theorem relabelList_refl : ∀ ts : List Term, relabelList (.refl ParamId) ts = ts
  | [] => rfl
  | t :: ts => by rw [relabelList, relabel_refl t, relabelList_refl ts]

end

/-! ### Shapes -/

@[simp] theorem isTypeLike_relabel (t : Term) : (t.relabel ρ).isTypeLike = t.isTypeLike := by
  cases t <;> rfl

@[simp] theorem isExpansion_relabel (t : Term) : (t.relabel ρ).isExpansion = t.isExpansion := by
  cases t <;> rfl

@[simp] theorem expanded_relabel (t : Term) : (t.relabel ρ).expanded = t.expanded.relabel ρ := by
  cases t <;> rfl

@[simp] theorem expandedLike_relabel (t element : Term) :
    (t.relabel ρ).expandedLike (element.relabel ρ) = (t.expandedLike element).relabel ρ := by
  cases t <;> rfl

@[simp] theorem quals_relabel (t : Term) : (t.relabel ρ).quals = t.quals := by
  cases t <;> rfl

@[simp] theorem unqualified_relabel (t : Term) :
    (t.relabel ρ).unqualified = t.unqualified.relabel ρ := by
  cases t <;> rfl

@[simp] theorem undecorated_relabel (t : Term) :
    (t.relabel ρ).undecorated = t.undecorated.relabel ρ := by
  cases t with
  | reference kind inner => exact unqualified_relabel inner
  | _ => rfl

@[simp] theorem qualify_relabel (quals : Qualifiers) (t : Term) :
    (t.relabel ρ).qualify quals = (t.qualify quals).relabel ρ := by
  unfold qualify
  split
  · rfl
  · cases t <;> rfl

@[simp] theorem withoutQuals_relabel (quals : Qualifiers) (t : Term) :
    (t.relabel ρ).withoutQuals quals = (t.withoutQuals quals).relabel ρ := by
  rw [withoutQuals, withoutQuals, quals_relabel, unqualified_relabel, qualify_relabel]

@[simp] theorem refer_relabel (kind : RefKind) (t : Term) :
    (t.relabel ρ).refer kind = (t.refer kind).relabel ρ := by
  cases t <;> rfl

@[simp] theorem plus_relabel (t : Term) (delta : Int) :
    (t.relabel ρ).plus delta = (t.plus delta).relabel ρ := by
  cases t with
  | value number ty =>
    rw [relabel, plus]
    split <;> rfl
  | _ => rfl

mutual

@[simp] theorem occurrences_relabel : ∀ t : Term,
    (t.relabel ρ).occurrences = t.occurrences.map ρ
  | param _ | placeholder _ | type _ | value _ _ | template _ => rfl
  | apply head args => by
    rw [relabel, occurrences, occurrences, occurrences_relabel head, occurrencesList_relabel args,
      List.map_append]
  | pointer t | qualified _ t | reference _ t | expansion t | offset t _ => occurrences_relabel t

@[simp] theorem occurrencesList_relabel : ∀ ts : List Term,
    occurrencesList (relabelList ρ ts) = (occurrencesList ts).map ρ
  | [] => rfl
  | t :: ts => by
    rw [relabelList, occurrencesList, occurrencesList, occurrences_relabel t,
      occurrencesList_relabel ts, List.map_append]

end

mutual

/-- **Relabelling keeps terms apart.** -/
theorem same_relabel (leaf : String → String → Bool) : ∀ a b : Term,
    same leaf (a.relabel ρ) (b.relabel ρ) = same leaf a b
  | param _, b => by cases b <;> simp [relabel, same]
  | placeholder _, b | type _, b | template _, b | value _ _, b => by
    cases b <;> simp [relabel, same]
  | apply g as, b => by
    cases b <;> simp [relabel, same, same_relabel leaf g, sameList_relabel leaf as]
  | pointer a, b | expansion a, b | qualified _ a, b | reference _ a, b | offset a _, b => by
    cases b <;> simp [relabel, same, same_relabel leaf a]

theorem sameList_relabel (leaf : String → String → Bool) : ∀ as bs : List Term,
    sameList leaf (relabelList ρ as) (relabelList ρ bs) = sameList leaf as bs
  | [], bs => by cases bs <;> rfl
  | a :: as, bs => by
    cases bs <;> simp [relabelList, sameList, same_relabel leaf a, sameList_relabel leaf as]

end

end Term

/-! ### Substitutions -/

def Binding.relabel (ρ : Equiv.Perm ParamId) : Binding → Binding
  | .single t => .single (t.relabel ρ)
  | .pack ts => .pack (Term.relabelList ρ ts)

namespace Substitution

variable {ρ τ : Equiv.Perm ParamId}

/-- The substitution with other numbers for the parameters: `ρ` numbers the bound ones, `τ` those
that occur in what they are bound to. -/
def relabel (ρ τ : Equiv.Perm ParamId) (σ : Substitution) : Substitution :=
  { σ with bindings := σ.bindings.map fun (id, b) => (ρ id, b.relabel τ) }

theorem get?_relabel (σ : Substitution) (id : ParamId) :
    (σ.relabel ρ τ).get? (ρ id) = (σ.get? id).map (Binding.relabel τ) := by
  unfold get? relabel
  induction σ.bindings with
  | nil => rfl
  | cons entry rest ih =>
    obtain ⟨i, b⟩ := entry
    rw [List.map_cons, List.lookup_cons, List.lookup_cons, ih]
    by_cases heq : id = i
    · simp [heq]
    · have hne : ρ id ≠ ρ i := fun h => heq (ρ.injective h)
      simp [beq_eq_false_iff_ne.mpr heq, beq_eq_false_iff_ne.mpr hne]

theorem insert_relabel (σ : Substitution) (id : ParamId) (b : Binding) :
    (σ.relabel ρ τ).insert (ρ id) (b.relabel τ) = (σ.insert id b).relabel ρ τ := by
  have hbindings : ∀ l : List (ParamId × Binding),
      insertInto (ρ id) (b.relabel τ) (l.map fun (i, c) => (ρ i, c.relabel τ)) =
        (insertInto id b l).map fun (i, c) => (ρ i, c.relabel τ) := by
    intro l
    induction l with
    | nil => rfl
    | cons entry rest ih =>
      obtain ⟨i, old⟩ := entry
      rw [List.map_cons, insertInto, insertInto]
      simp only [EmbeddingLike.apply_eq_iff_eq]
      split
      · rfl
      · rw [ih, List.map_cons]
  rw [insert, insert, relabel, relabel, hbindings]

theorem atElement_relabel (σ : Substitution) (pack : ParamId) (element : Term) :
    (σ.relabel ρ ρ).atElement (ρ pack) (element.relabel ρ) =
      (σ.atElement pack element).relabel ρ ρ := by
  rw [atElement, atElement, ← insert_relabel, Term.expanded_relabel, Binding.relabel]

theorem atParam_relabel (σ : Substitution) (id : ParamId) :
    (σ.relabel ρ ρ).atParam (ρ id) = (σ.atParam id).relabel ρ := by
  rw [atParam, atParam, get?_relabel]
  rcases σ.get? id with _ | (_ | _) <;> rfl

theorem boundPack_relabel (σ : Substitution) (t : Term) :
    (σ.relabel ρ ρ).boundPack (t.relabel ρ) =
      (σ.boundPack t).map fun (pack, ts) => (ρ pack, ts.map (Term.relabel ρ)) := by
  rw [boundPack, boundPack, Term.occurrences_relabel]
  induction t.occurrences with
  | nil => rfl
  | cons id ids ih =>
    rw [List.map_cons, List.findSome?_cons, List.findSome?_cons, ih, get?_relabel]
    rcases σ.get? id with _ | (_ | ts)
    · rfl
    · rfl
    · simp [Binding.relabel, Term.relabelList_eq_map]

mutual

/-- **Substitution commutes with relabelling.** -/
theorem apply_relabel : ∀ (t : Term) (σ : Substitution),
    apply (t.relabel ρ) (σ.relabel ρ ρ) = (apply t σ).relabel ρ
  | .param id, σ => atParam_relabel σ id
  | .apply head args, σ => by
    rw [Term.relabel, apply, apply, apply_relabel head σ, applyList_relabel args σ, Term.relabel]
  | .pointer inner, σ => by rw [Term.relabel, apply, apply, apply_relabel inner σ, Term.relabel]
  | .qualified quals inner, σ => by
    rw [Term.relabel, apply, apply, apply_relabel inner σ, Term.qualify_relabel]
  | .reference kind inner, σ => by
    rw [Term.relabel, apply, apply, apply_relabel inner σ, Term.refer_relabel]
  | .expansion inner, σ => by rw [Term.relabel, apply, apply, apply_relabel inner σ, Term.relabel]
  | .offset base delta, σ => by
    rw [Term.relabel, apply, apply, apply_relabel base σ, Term.plus_relabel]
  | .placeholder _, _ | .type _, _ | .value _ _, _ | .template _, _ => rfl

theorem applyList_relabel : ∀ (ts : List Term) (σ : Substitution),
    applyList (Term.relabelList ρ ts) (σ.relabel ρ ρ) = Term.relabelList ρ (applyList ts σ)
  | [], _ => rfl
  | t :: ts, σ => by
    have htail := applyList_relabel ts σ
    cases t with
    | expansion inner =>
      have hinner := fun τ => apply_relabel inner τ
      rw [Term.relabelList, Term.relabel, applyList, applyList, boundPack_relabel]
      cases σ.boundPack inner with
      | none => simp only [Option.map_none, hinner, htail, Term.relabelList, Term.relabel]
      | some b =>
        obtain ⟨pack, elements⟩ := b
        simp only [Term.relabelList_eq_map] at htail ⊢
        simp only [Option.map_some, List.map_map, Function.comp_def, atElement_relabel, hinner,
          Term.expandedLike_relabel, htail, List.map_append]
    | _ =>
      rw [applyList_cons rfl, Term.relabelList, applyList_cons rfl, apply_relabel, htail,
        Term.relabelList]

end

end Substitution

end TemplateResolution
