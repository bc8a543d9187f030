import TemplateResolution.Proofs.Substitution.PackFree

/-!
# What an application builds

An application puts terms together and looks at none of them, so what everything that
builds terms keeps holds of every instance under terms of which it holds, whatever the
pattern is (`apply_allTerms`, `applyList_allTerms`).  Being in normal form is such a
property, and being reduced is another one.

The reduced terms are those that applying the empty substitution leaves alone
(`subst_empty_iff`).
-/

namespace TemplateResolution

/-- `P` holds of every term that stands alone, and whatever builds terms keeps it. -/
structure Term.KeptByBuilding (P : Term → Prop) : Prop where
  param : ∀ id, P (.param id)
  placeholder : ∀ token, P (.placeholder token)
  type : ∀ name, P (.type name)
  value : ∀ number ty, P (.value number ty)
  template : ∀ name, P (.template name)
  apply : ∀ {head args}, P head → (∀ t ∈ args, P t) → P (.apply head args)
  pointer : ∀ {t}, P t → P (.pointer t)
  expansion : ∀ {t}, P t → P (.expansion t)
  expanded : ∀ {t}, P t → P t.expanded
  qualify : ∀ {t}, P t → ∀ quals, P (t.qualify quals)
  refer : ∀ {t}, P t → ∀ kind, P (t.refer kind)
  plus : ∀ {t}, P t → ∀ delta, P (t.plus delta)

namespace Substitution

/-- `P` holds of every bound term and of every element of a bound pack. -/
def AllTerms (P : Term → Prop) (σ : Substitution) : Prop :=
  ∀ id b, σ.get? id = some b → ∀ t ∈ b.terms, P t

variable {P : Term → Prop} {σ : Substitution}

theorem allTerms_empty : empty.AllTerms P := fun _ _ h => absurd h (Option.some_ne_none _).symm

theorem AllTerms.insert (hσ : σ.AllTerms P) (id : ParamId) {b : Binding} (hb : ∀ t ∈ b.terms, P t) :
    (σ.insert id b).AllTerms P := by
  intro j c hc
  rw [get?_insert] at hc
  split at hc
  · obtain rfl := Option.some.inj hc
    exact hb
  · exact hσ j c hc

/-! ### Instances -/

section Building

variable (hP : Term.KeptByBuilding P)

include hP

theorem AllTerms.atElement (hσ : σ.AllTerms P) (pack : ParamId) {e : Term} (he : P e) :
    (σ.atElement pack e).AllTerms P := by
  refine hσ.insert pack fun t ht => ?_
  obtain rfl := List.mem_singleton.mp ht
  exact hP.expanded he

mutual

theorem apply_allTerms : ∀ (t : Term) {σ : Substitution}, σ.AllTerms P → P (apply t σ)
  | .param id, σ, hσ => by
    rw [apply, atParam]
    split
    · rename_i u hu
      exact hσ id _ hu u (List.mem_singleton_self u)
    · exact hP.param id
  | .apply head args, _, hσ => hP.apply (apply_allTerms head hσ) (applyList_allTerms args hσ)
  | .pointer inner, _, hσ => hP.pointer (apply_allTerms inner hσ)
  | .expansion inner, _, hσ => hP.expansion (apply_allTerms inner hσ)
  | .qualified quals inner, _, hσ => hP.qualify (apply_allTerms inner hσ) quals
  | .reference kind inner, _, hσ => hP.refer (apply_allTerms inner hσ) kind
  | .offset base delta, _, hσ => hP.plus (apply_allTerms base hσ) delta
  | .placeholder token, _, _ => hP.placeholder token
  | .type name, _, _ => hP.type name
  | .value number ty, _, _ => hP.value number ty
  | .template name, _, _ => hP.template name

theorem applyList_allTerms : ∀ (ts : List Term) {σ : Substitution}, σ.AllTerms P →
    ∀ s ∈ applyList ts σ, P s
  | [], _, _, _, hs => absurd hs List.not_mem_nil
  | t :: ts, σ, hσ, s, hs => by
    have htail := applyList_allTerms ts hσ
    by_cases hexp : t.isExpansion = true
    · obtain ⟨inner, rfl⟩ := Term.exists_of_isExpansion hexp
      rw [applyList] at hs
      rcases hbound : σ.boundPack inner with _ | ⟨pack, us⟩ <;> rw [hbound] at hs
      · rcases List.mem_cons.mp hs with rfl | hs
        · exact hP.expansion (apply_allTerms inner hσ)
        · exact htail s hs
      · rcases List.mem_append.mp hs with hs | hs
        · -- an element of the pack, in the shape that it was given in
          obtain ⟨u, hu, rfl⟩ := List.mem_map.mp hs
          have hu : P u := hσ pack (.pack us) (boundPack_inv hbound).2 u hu
          have hinner := apply_allTerms inner (hσ.atElement hP pack hu)
          rw [Term.expandedLike]
          split
          · exact hP.expansion hinner
          · exact hinner
        · exact htail s hs
    · rw [Bool.not_eq_true] at hexp
      rw [applyList_cons hexp] at hs
      rcases List.mem_cons.mp hs with rfl | hs
      · exact apply_allTerms t hσ
      · exact htail s hs

end

end Building

end Substitution

namespace Term

/-! ### Normal and reduced instances -/

theorem keptByBuilding_isNormal : KeptByBuilding fun t => t.isNormal = true where
  param _ := rfl
  placeholder _ := rfl
  type _ := rfl
  value _ _ := rfl
  template _ := rfl
  apply hhead hargs := isNormal_apply.mpr ⟨hhead, hargs⟩
  pointer h := h
  expansion h := h
  expanded := isNormal_expanded
  qualify := isNormal_qualify
  refer := isNormal_refer
  plus := isNormal_plus

theorem keptByBuilding_isReduced : KeptByBuilding IsReduced where
  param _ := ⟨rfl, rfl⟩
  placeholder _ := ⟨rfl, rfl⟩
  type _ := ⟨rfl, rfl⟩
  value _ _ := ⟨rfl, rfl⟩
  template _ := ⟨rfl, rfl⟩
  apply hhead hargs := ⟨isNormal_apply.mpr ⟨hhead.normal, fun t ht => (hargs t ht).normal⟩,
    isFolded_apply.mpr ⟨hhead.folded, fun t ht => (hargs t ht).folded⟩⟩
  pointer h := ⟨h.normal, h.folded⟩
  expansion h := ⟨h.normal, h.folded⟩
  expanded := IsReduced.expanded
  qualify := IsReduced.qualify
  refer := IsReduced.refer
  plus := IsReduced.plus

theorem IsReduced.subst_empty {t : Term} (h : t.IsReduced) : t.subst .empty = t := by
  induction t using Term.induct with
  | param _ | placeholder _ | type _ | value _ _ | template _ => rfl
  | apply head args ihHead ihArgs =>
    have hhead : Substitution.apply head .empty = head := ihHead h.head
    have hargs : Substitution.applyList args .empty = args := by
      refine (Substitution.packFree_empty.substList args).trans ?_
      rw [List.map_congr_left fun t ht => ihArgs t ht (h.args t ht), List.map_id']
    rw [subst, Substitution.apply, hhead, hargs]
  | pointer inner ih => exact congrArg pointer (ih ⟨h.normal, h.folded⟩)
  | expansion inner ih => exact congrArg expansion (ih ⟨h.normal, h.folded⟩)
  | qualified quals inner ih =>
    obtain ⟨hquals, hq, hr, hnormal⟩ := isNormal_qualified.mp h.normal
    have hinner : Substitution.apply inner .empty = inner := ih ⟨hnormal, h.folded⟩
    rw [subst, Substitution.apply, hinner, qualify_eq_of_plain hq hr hquals]
  | reference kind inner ih =>
    obtain ⟨hr, -⟩ := isNormal_reference.mp h.normal
    have hinner : Substitution.apply inner .empty = inner := ih h.inner
    rw [subst, Substitution.apply, hinner]
    cases inner with
    | reference _ _ => exact Bool.noConfusion hr
    | _ => rfl
  | offset base delta ih =>
    have hfolded := h.folded
    rw [isFolded, Bool.and_eq_true, Bool.not_eq_true'] at hfolded
    have hbase : Substitution.apply base .empty = base := ih ⟨h.normal, hfolded.2⟩
    rw [subst, Substitution.apply, hbase, plus_of_not_foldsBy hfolded.1]

/-- **The reduced terms are those that are built as they are written.** -/
theorem subst_empty_iff {t : Term} : t.subst .empty = t ↔ t.IsReduced := by
  constructor
  · intro h
    rw [← h]
    exact Substitution.apply_allTerms keptByBuilding_isReduced t Substitution.allTerms_empty
  · exact IsReduced.subst_empty

end Term

end TemplateResolution
