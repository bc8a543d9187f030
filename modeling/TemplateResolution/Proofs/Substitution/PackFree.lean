import TemplateResolution.Proofs.Substitution.Support
import TemplateResolution.Proofs.Term.Reduced

/-!
# Substitutions without packs

A substitution goes through everything that builds terms: qualifiers are merged and
references collapsed before it is applied or afterwards, and an offset that becomes a
constant half-way is the constant that it becomes at once (`subst_qualify`, `subst_refer`,
`subst_plus`).

Where no parameter is bound to a pack, an expansion stays one and every term of a list
becomes one term (`PackFree.substList`).  Two such substitutions can be applied one after
the other or as one (`subst_after`), and decorations can be erased before one is applied or
afterwards (`erase_subst`).
-/

namespace TemplateResolution

namespace Term

/-! ### Everything that builds terms -/

theorem refer_refer (t : Term) (k l : RefKind) :
    (t.refer l).refer k = t.refer (k.collapse l) := by
  cases t with
  | reference j inner => cases j <;> cases k <;> cases l <;> rfl
  | _ => rfl

theorem qualify_refer (t : Term) (kind : RefKind) (quals : Qualifiers) :
    (t.refer kind).qualify quals = t.refer kind := by
  cases t <;> exact qualify_reference quals _ _

@[simp] theorem subst_qualify (t : Term) (quals : Qualifiers) (σ : Substitution) :
    (t.qualify quals).subst σ = (t.subst σ).qualify quals := by
  cases hquals : quals.isEmpty with
  | true => rw [qualify_eq_self hquals, qualify_eq_self hquals]
  | false =>
    cases t with
    | qualified existing inner =>
      rw [qualify_qualified hquals]
      change (inner.subst σ).qualify (existing.union quals) =
        ((inner.subst σ).qualify existing).qualify quals
      rw [qualify_qualify]
    | reference kind inner =>
      rw [qualify_reference]
      exact (qualify_refer (inner.subst σ) kind quals).symm
    | _ =>
      rw [qualify_eq_of_plain rfl rfl hquals]
      rfl

@[simp] theorem subst_refer (t : Term) (kind : RefKind) (σ : Substitution) :
    (t.refer kind).subst σ = (t.subst σ).refer kind := by
  cases t with
  | reference k inner => exact (refer_refer (inner.subst σ) kind k).symm
  | _ => rfl

@[simp] theorem subst_plus (t : Term) (delta : Int) (σ : Substitution) :
    (t.plus delta).subst σ = (t.subst σ).plus delta := by
  cases t with
  | value number ty =>
    change _ = (value number ty).plus delta
    rw [plus]
    split
    · rfl
    · rename_i hfits
      change (value number ty).plus delta = _
      rw [plus, if_neg hfits]
  | _ => rfl

theorem subst_expandedLike (t element : Term) (σ : Substitution) :
    (t.expandedLike element).subst σ = t.expandedLike (element.subst σ) := by
  cases t <;> rfl

end Term

namespace Substitution

/-- No parameter is bound to a pack. -/
def PackFree (w : Substitution) : Prop := ∀ id us, w.get? id ≠ some (.pack us)

variable {w : Substitution}

theorem packFree_empty : empty.PackFree := fun _ _ h => absurd h (Option.some_ne_none _).symm

theorem PackFree.insert (hw : w.PackFree) (id : ParamId) (t : Term) :
    (w.insert id (.single t)).PackFree := by
  intro j us h
  rw [get?_insert] at h
  split at h
  · exact Binding.noConfusion (Option.some.inj h)
  · exact hw j us h

theorem PackFree.boundPack (hw : w.PackFree) (t : Term) : w.boundPack t = none := by
  rw [Substitution.boundPack, List.findSome?_eq_none_iff]
  intro id _
  split
  · rename_i us hus
    exact absurd hus (hw id us)
  · rfl

/-- Without packs, every term of a list becomes one term. -/
theorem PackFree.applyList_cons (hw : w.PackFree) (t : Term) (ts : List Term) :
    applyList (t :: ts) w = apply t w :: applyList ts w := by
  by_cases hexp : t.isExpansion = true
  · obtain ⟨inner, rfl⟩ := Term.exists_of_isExpansion hexp
    rw [applyList, hw.boundPack inner]
    rfl
  · rw [Bool.not_eq_true] at hexp
    exact Substitution.applyList_cons hexp ts w

theorem PackFree.substList (hw : w.PackFree) (ts : List Term) :
    Term.substList w ts = ts.map (Term.subst w) := by
  induction ts with
  | nil => rfl
  | cons t ts ih =>
    rw [List.map_cons, ← ih]
    exact hw.applyList_cons t ts

mutual

/-- What a term mentions after a substitution without packs. -/
theorem occurrences_apply (hw : w.PackFree) :
    ∀ t : Term, (apply t w).occurrences = t.occurrences.flatMap fun id => (w.atParam id).occurrences
  | .param id => by simp [apply, Term.occurrences]
  | .apply head args => by
    rw [apply, Term.occurrences, Term.occurrences, List.flatMap_append, occurrences_apply hw head,
      occurrencesList_applyList hw args]
  | .pointer inner | .expansion inner => by
    rw [apply, Term.occurrences, Term.occurrences, occurrences_apply hw inner]
  | .qualified quals inner => by
    rw [apply, Term.occurrences_qualify, Term.occurrences, occurrences_apply hw inner]
  | .reference kind inner => by
    rw [apply, Term.occurrences_refer, Term.occurrences, occurrences_apply hw inner]
  | .offset base delta => by
    rw [apply, Term.occurrences_plus, Term.occurrences, occurrences_apply hw base]
  | .placeholder _ | .type _ | .value _ _ | .template _ => rfl

theorem occurrencesList_applyList (hw : w.PackFree) :
    ∀ ts : List Term, Term.occurrencesList (applyList ts w) =
      (Term.occurrencesList ts).flatMap fun id => (w.atParam id).occurrences
  | [] => rfl
  | t :: ts => by
    rw [hw.applyList_cons, Term.occurrencesList, Term.occurrencesList, List.flatMap_append,
      occurrences_apply hw t, occurrencesList_applyList hw ts]

end

/-- A term that mentions nothing after a substitution without packs mentioned bound parameters. -/
theorem PackFree.exists_single (hw : w.PackFree) {t : Term} (h : (t.subst w).occurrences = []) :
    ∀ id ∈ t.occurrences, ∃ u, w.get? id = some (.single u) := by
  intro id hid
  have hnil : (w.atParam id).occurrences = [] := by
    rw [Term.subst, occurrences_apply hw, List.flatMap_eq_nil_iff] at h
    exact h id hid
  rw [atParam] at hnil
  split at hnil
  · rename_i u hu
    exact ⟨u, hu⟩
  · exact absurd hnil (List.cons_ne_nil _ _)

end Substitution

/-! ### One substitution after the other -/

/-- The binding with every term changed by `f`. -/
def Binding.mapTerms (f : Term → Term) : Binding → Binding
  | .single t => .single (f t)
  | .pack ts => .pack (ts.map f)

namespace Substitution

/-- The substitution with every bound term changed by `f`. -/
def mapTerms (f : Term → Term) (σ : Substitution) : Substitution :=
  { σ with bindings := σ.bindings.map fun (id, b) => (id, b.mapTerms f) }

theorem get?_mapTerms (f : Term → Term) (σ : Substitution) (id : ParamId) :
    (σ.mapTerms f).get? id = (σ.get? id).map (Binding.mapTerms f) :=
  lookup_map (Binding.mapTerms f) id σ.bindings

/-- First `σ` and then `τ`, as one substitution: `τ` is applied to what `σ` binds, and what `σ`
leaves unbound is bound as `τ` binds it. -/
def after (τ σ : Substitution) : Substitution where
  bindings := (σ.mapTerms (Term.subst τ)).bindings ++
    τ.bindings.filter fun entry => (σ.get? entry.1).isNone

theorem get?_after (τ σ : Substitution) (id : ParamId) :
    (τ.after σ).get? id =
      ((σ.get? id).map (Binding.mapTerms (Term.subst τ))).or (τ.get? id) := by
  have hbehind : (τ.bindings.filter fun entry => (σ.get? entry.1).isNone).lookup id =
      if (σ.get? id).isNone then τ.get? id else none :=
    lookup_filter (fun i => (σ.get? i).isNone) id τ.bindings
  rw [get?, after, List.lookup_append, hbehind]
  change ((σ.mapTerms (Term.subst τ)).get? id).or _ = _
  rw [get?_mapTerms]
  cases σ.get? id <;> rfl

variable {σ τ : Substitution}

theorem PackFree.mapTerms (hσ : σ.PackFree) (f : Term → Term) : (σ.mapTerms f).PackFree := by
  intro id us h
  rw [get?_mapTerms, Option.map_eq_some_iff] at h
  obtain ⟨b, hb, hmap⟩ := h
  cases b with
  | single t => exact Binding.noConfusion hmap
  | pack ts => exact hσ id ts hb

theorem PackFree.after (hσ : σ.PackFree) (hτ : τ.PackFree) : (τ.after σ).PackFree := by
  intro id us h
  rw [get?_after, ← get?_mapTerms, Option.or_eq_some_iff] at h
  exact h.elim (hσ.mapTerms _ id us) fun h => hτ id us h.2

theorem atParam_after (hσ : σ.PackFree) (id : ParamId) :
    apply (σ.atParam id) τ = (τ.after σ).atParam id := by
  rw [atParam, atParam, get?_after]
  rcases hget : σ.get? id with _ | (t | ts)
  · rw [apply, atParam]
    rfl
  · rfl
  · exact absurd hget (hσ id ts)

theorem apply_after (hσ : σ.PackFree) (hτ : τ.PackFree) (t : Term) :
    apply (apply t σ) τ = apply t (τ.after σ) := by
  induction t using Term.induct with
  | param id => exact atParam_after hσ id
  | placeholder _ | type _ | value _ _ | template _ => rfl
  | apply head args ihHead ihArgs =>
    have hargs : Term.substList τ (Term.substList σ args) = Term.substList (τ.after σ) args := by
      rw [hσ.substList, hτ.substList, (hσ.after hτ).substList, List.map_map]
      exact List.map_congr_left ihArgs
    change Term.apply (apply (apply head σ) τ) (Term.substList τ (Term.substList σ args)) = _
    rw [ihHead, hargs]
    rfl
  | pointer inner ih | expansion inner ih => rw [apply, apply, apply, ih]
  | qualified quals inner ih =>
    rw [apply, apply, ← ih]
    exact Term.subst_qualify _ quals τ
  | reference kind inner ih =>
    rw [apply, apply, ← ih]
    exact Term.subst_refer _ kind τ
  | offset base delta ih =>
    rw [apply, apply, ← ih]
    exact Term.subst_plus _ delta τ

end Substitution

/-- **Substitutions without packs act on terms:** one and then the other is the one after the
other, on a term and on a list of terms, whether these are in normal form or not. -/
theorem Substitution.subst_after {σ τ : Substitution} (hσ : σ.PackFree) (hτ : τ.PackFree) :
    (∀ id, (τ.after σ).get? id =
      ((σ.get? id).map (Binding.mapTerms (Term.subst τ))).or (τ.get? id)) ∧
    (∀ t : Term, (t.subst σ).subst τ = t.subst (τ.after σ)) ∧
    ∀ ts : List Term,
      Term.substList τ (Term.substList σ ts) = Term.substList (τ.after σ) ts := by
  refine ⟨get?_after τ σ, apply_after hσ hτ, fun ts => ?_⟩
  rw [hσ.substList, hτ.substList, (hσ.after hτ).substList, List.map_map]
  exact List.map_congr_left fun t _ => apply_after hσ hτ t

/-- Qualifiers merge and are absorbed, references collapse and offsets are computed only by the
second substitution. -/
theorem Substitution.subst_after_collapsing :
    let σ := (empty.insert 0 (.single (.qualified .const (.param 1)))).insert 2
      (.single (.reference .lvalue (.param 3)))
    let τ := (empty.insert 1 (.single (.reference .rvalue (.type "int")))).insert 3
      (.single (.value 4 "int"))
    let t : Term := .apply (.template "X") [.qualified .volatile (.param 0),
      .reference .lvalue (.param 0), .reference .rvalue (.param 2),
      .offset (.offset (.param 3) 2) 3]
    (t.subst σ).subst τ = t.subst (τ.after σ) ∧
      t.subst (τ.after σ) = .apply (.template "X") [.reference .rvalue (.type "int"),
        .reference .lvalue (.type "int"), .reference .lvalue (.value 4 "int"), .value 9 "int"] :=
  ⟨(subst_after ((packFree_empty.insert _ _).insert _ _)
    ((packFree_empty.insert _ _).insert _ _)).2.1 _, by rfl⟩

/-! ### Erasing before and after -/

theorem Substitution.apply_erase {σ : Substitution} (hσ : σ.PackFree) (t : Term) :
    (apply t σ).erase = apply t.erase (σ.mapTerms Term.erase) := by
  induction t using Term.induct with
  | param id =>
    rw [apply, Term.erase, apply, atParam, atParam, get?_mapTerms]
    rcases hget : σ.get? id with _ | (t | ts)
    · rfl
    · rfl
    · exact absurd hget (hσ id ts)
  | placeholder _ | type _ | value _ _ | template _ => rfl
  | apply head args ihHead ihArgs =>
    have hargs : Term.eraseList (Term.substList σ args) =
        Term.substList (σ.mapTerms Term.erase) (Term.eraseList args) := by
      rw [hσ.substList, (hσ.mapTerms _).substList, Term.eraseList_eq_map, Term.eraseList_eq_map,
        List.map_map, List.map_map]
      exact List.map_congr_left ihArgs
    change Term.apply (apply head σ).erase (Term.eraseList (Term.substList σ args)) = _
    rw [ihHead, hargs]
    rfl
  | pointer inner ih | expansion inner ih => rw [apply, Term.erase, Term.erase, apply, ih]
  | qualified quals inner ih => rw [apply, Term.erase_qualify, Term.erase, ih]
  | reference kind inner ih => rw [apply, Term.erase_refer, Term.erase, ih]
  | offset base delta ih =>
    rw [apply, Term.erase_plus, ih, Term.erase]
    exact (Term.subst_plus base.erase delta _).symm

/-- **Erasing is the same before a substitution without packs as afterwards,** if what is bound is
erased as well; there is no decoration left in any term that was erased, and nothing to erase. -/
theorem Substitution.erase_subst :
    (∀ σ : Substitution, σ.PackFree →
      (∀ id, (σ.mapTerms Term.erase).get? id = (σ.get? id).map (Binding.mapTerms Term.erase)) ∧
      ∀ t : Term, (t.subst σ).erase = t.erase.subst (σ.mapTerms Term.erase)) ∧
    ∀ t : Term, t.erase.isBare = true ∧ t.erase.erase = t.erase :=
  ⟨fun σ hσ => ⟨get?_mapTerms Term.erase σ, apply_erase hσ⟩, fun t =>
    ⟨t.isBare_erase, Term.erase_eq_self_iff.mpr ⟨t.isBare_erase, t.isFolded_erase⟩⟩⟩

/-- An offset can be computed only when the reference to its base is gone. -/
theorem Substitution.erase_subst_offset :
    let σ := empty.insert 0 (.single (.reference .lvalue (.value 4 "int")))
    let t : Term := .pointer (.qualified .const (.offset (.param 0) 3))
    t.subst σ = .pointer (.qualified .const (.offset (.reference .lvalue (.value 4 "int")) 3)) ∧
      (t.subst σ).erase = t.erase.subst (σ.mapTerms Term.erase) ∧
      (t.subst σ).erase = .pointer (.value 7 "int") :=
  ⟨by rfl, (erase_subst.1 _ (packFree_empty.insert _ _)).2 _, by rfl⟩

end TemplateResolution
