import TemplateResolution.Proofs.Registry.Accepted
import TemplateResolution.Proofs.Specificity.Image

/-!
# Images mention no parameter

With placeholders for its parameters, a pattern is a list of terms like any other:
nothing is left of its parameters (`Grounded.occurrences_image`).  That is so if it
mentions the parameters that it declares and if its expansions are items of lists, where
they are replaced by the elements of their packs.  In any other place an expansion stays,
and so does its pack.
-/

namespace TemplateResolution

namespace Term

mutual

/-- Whether every expansion in a term is an item of a list or stands inside another one. -/
def expandsInLists : Term → Bool
  | apply head args => expandsInLists head && expandsInListsList args
  | pointer inner | qualified _ inner | reference _ inner => expandsInLists inner
  | offset base _ => expandsInLists base
  | expansion _ => false
  | param _ | placeholder _ | type _ | value _ _ | template _ => true

def expandsInListsList : List Term → Bool
  | [] => true
  | expansion _ :: ts => expandsInListsList ts
  | t :: ts => expandsInLists t && expandsInListsList ts

end

theorem expandsInListsList_cons {t : Term} (ht : t.isExpansion = false) (ts : List Term) :
    expandsInListsList (t :: ts) = (expandsInLists t && expandsInListsList ts) := by
  cases t with
  | expansion inner => exact Bool.noConfusion ht
  | _ => rw [expandsInListsList]; exact fun _ he => Term.noConfusion he

theorem expandsInLists_of_mem {ts : List Term} (h : expandsInListsList ts = true) {t : Term}
    (ht : t ∈ ts) : t.isExpansion = true ∨ t.expandsInLists = true := by
  induction ts with
  | nil => exact absurd ht List.not_mem_nil
  | cons u ts ih =>
    by_cases hexp : u.isExpansion = true
    · obtain ⟨inner, rfl⟩ := exists_of_isExpansion hexp
      rcases List.mem_cons.mp ht with rfl | ht
      · exact .inl rfl
      · exact ih h ht
    · rw [Bool.not_eq_true] at hexp
      rw [expandsInListsList_cons hexp, Bool.and_eq_true] at h
      rcases List.mem_cons.mp ht with rfl | ht
      · exact .inr h.1
      · exact ih h.2 ht

end Term

namespace Substitution

mutual

/-- Where every parameter stands for a term without parameters, none is left. -/
theorem occurrences_apply_eq_nil : ∀ (t : Term) {w : Substitution},
    (∀ id ∈ t.occurrences, ∃ u, w.get? id = some (.single u) ∧ u.occurrences = []) →
    (apply t w).occurrences = []
  | .param id, w, h => by
    obtain ⟨u, hu, hclosed⟩ := h id (List.mem_singleton_self id)
    rw [apply, atParam, hu]
    exact hclosed
  | .placeholder _, _, _ | .type _, _, _ | .value _ _, _, _ | .template _, _, _ => rfl
  | .pointer t, w, h => occurrences_apply_eq_nil t h
  | .expansion t, w, h => occurrences_apply_eq_nil t h
  | .qualified quals t, w, h => by
    rw [apply, Term.occurrences_qualify]
    exact occurrences_apply_eq_nil t h
  | .reference kind t, w, h => by
    rw [apply, Term.occurrences_refer]
    exact occurrences_apply_eq_nil t h
  | .offset t delta, w, h => by
    rw [apply, Term.occurrences_plus]
    exact occurrences_apply_eq_nil t h
  | .apply head args, w, h => by
    have hhead := occurrences_apply_eq_nil head fun id hid => h id (List.mem_append_left _ hid)
    have hargs := occurrencesList_applyList_eq_nil args fun id hid =>
      h id (List.mem_append_right _ hid)
    exact List.append_eq_nil_iff.mpr ⟨hhead, hargs⟩

theorem occurrencesList_applyList_eq_nil : ∀ (ts : List Term) {w : Substitution},
    (∀ id ∈ Term.occurrencesList ts, ∃ u, w.get? id = some (.single u) ∧ u.occurrences = []) →
    Term.occurrencesList (applyList ts w) = []
  | [], _, _ => rfl
  | t :: ts, w, h => by
    have hfirst : ∀ id ∈ t.occurrences, ∃ u, w.get? id = some (.single u) ∧ u.occurrences = [] :=
      fun id hid => h id (List.mem_append_left _ hid)
    have hrest := occurrencesList_applyList_eq_nil ts fun id hid =>
      h id (List.mem_append_right _ hid)
    by_cases hexp : t.isExpansion = true
    · obtain ⟨inner, rfl⟩ := Term.exists_of_isExpansion hexp
      -- nothing is bound to a list, so the expansion stays one
      have hnone : w.boundPack inner = none := by
        cases hbound : w.boundPack inner with
        | none => rfl
        | some found =>
          obtain ⟨pack, us⟩ := found
          obtain ⟨hmem, hus⟩ := boundPack_inv hbound
          obtain ⟨u, hu, -⟩ := hfirst pack hmem
          exact Binding.noConfusion (Option.some.inj (hu.symm.trans hus))
      rw [applyList, hnone]
      exact List.append_eq_nil_iff.mpr ⟨occurrences_apply_eq_nil inner hfirst, hrest⟩
    · rw [Bool.not_eq_true] at hexp
      rw [applyList_cons hexp]
      exact List.append_eq_nil_iff.mpr ⟨occurrences_apply_eq_nil t hfirst, hrest⟩

end

end Substitution

namespace Pattern

open PlaceholderSupply (frozen)

variable {model : TypeModel} {p : Pattern}

theorem WellFormed.isPack_unique (h : p.WellFormed model) :
    ∀ i j, p.isPack model i = true → p.isPack model j = true → i = j :=
  fun _ _ => Pattern.isPack_unique h.parameters

/-- What an expansion of the image repeats mentions no parameter. -/
theorem occurrences_frozenElement
    (hunique : ∀ i j, p.isPack model i = true → p.isPack model j = true → i = j) {inner : Term}
    (hdeclared : ∀ id ∈ inner.occurrences, id < p.parameters.length) {pack : ParamId}
    {q : Parameter} (hpack : p.isPack model pack = true) :
    (inner.subst ((Matching.structural model p.parameters).frozenElement pack q)).occurrences =
      [] := by
  refine Substitution.occurrences_apply_eq_nil inner fun id hid => ?_
  rw [Matching.frozenElement, Substitution.atElement, Substitution.get?_insert]
  by_cases heq : id = pack
  · rw [if_pos heq]
    exact ⟨_, rfl, rfl⟩
  · obtain ⟨q', hq'⟩ : ∃ q', p.parameters[id]? = some q' :=
      ⟨_, List.getElem?_eq_getElem (hdeclared id hid)⟩
    have hnot : model.isPack q' = false := by
      refine Bool.eq_false_iff.mpr fun hisPack => heq (hunique id pack ?_ hpack)
      rw [isPack, parameter?, hq', Option.any_some, hisPack]
    rw [if_neg heq]
    exact ⟨_, PlaceholderSupply.frozen_single hq' hnot, rfl⟩

mutual

theorem occurrences_subst_frozen
    (hunique : ∀ i j, p.isPack model i = true → p.isPack model j = true → i = j) : ∀ t : Term,
    p.checkUsage model t false = .ok () → t.expandsInLists = true →
    (∀ id ∈ t.occurrences, id < p.parameters.length) →
    (t.subst (frozen model p.parameters)).occurrences = []
  | .param id, husage, _, hdeclared => by
    obtain ⟨q, hq⟩ : ∃ q, p.parameters[id]? = some q :=
      ⟨_, List.getElem?_eq_getElem (hdeclared id (List.mem_singleton_self id))⟩
    have hpack : model.isPack q = false := by
      rw [checkUsage, parameter?, hq] at husage
      dsimp only at husage
      cases hpack : model.isPack q with
      | false => rfl
      | true =>
        rw [hpack] at husage
        exact Except.noConfusion rfl rfl (heq_of_eq husage)
    rw [Term.subst, Substitution.apply, Substitution.atParam,
      PlaceholderSupply.frozen_single hq hpack]
    rfl
  | .placeholder _, _, _, _ | .type _, _, _, _ | .value _ _, _, _, _ | .template _, _, _, _ => rfl
  | .expansion _, _, h, _ => Bool.noConfusion h
  | .pointer t, husage, h, hdeclared => occurrences_subst_frozen hunique t husage h hdeclared
  | .qualified quals t, husage, h, hdeclared => by
    rw [Term.subst, Substitution.apply, Term.occurrences_qualify]
    exact occurrences_subst_frozen hunique t husage h hdeclared
  | .reference kind t, husage, h, hdeclared => by
    rw [Term.subst, Substitution.apply, Term.occurrences_refer]
    exact occurrences_subst_frozen hunique t husage h hdeclared
  | .offset t delta, husage, h, hdeclared => by
    rw [Term.subst, Substitution.apply, Term.occurrences_plus]
    exact occurrences_subst_frozen hunique t husage h hdeclared
  | .apply head args, husage, h, hdeclared => by
    rw [checkUsage] at husage
    obtain ⟨⟨⟩, hhead, hargs⟩ := except_bind_eq_ok.mp husage
    obtain ⟨hhead', hargs'⟩ := (Bool.and_eq_true _ _).mp h
    refine List.append_eq_nil_iff.mpr ⟨?_, ?_⟩
    · exact occurrences_subst_frozen hunique head hhead hhead' fun id hid =>
        hdeclared id (List.mem_append_left _ hid)
    · exact occurrencesList_substList_frozen hunique args hargs hargs' fun id hid =>
        hdeclared id (List.mem_append_right _ hid)

theorem occurrencesList_substList_frozen
    (hunique : ∀ i j, p.isPack model i = true → p.isPack model j = true → i = j) : ∀ ts : List Term,
    p.checkUsageList model ts false = .ok () → Term.expandsInListsList ts = true →
    (∀ id ∈ Term.occurrencesList ts, id < p.parameters.length) →
    Term.occurrencesList (Term.substList (frozen model p.parameters) ts) = []
  | [], _, _, _ => rfl
  | t :: ts, husage, h, hdeclared => by
    rw [checkUsageList] at husage
    obtain ⟨⟨⟩, husage, husages⟩ := except_bind_eq_ok.mp husage
    have hfirst : ∀ id ∈ t.occurrences, id < p.parameters.length := fun id hid =>
      hdeclared id (List.mem_append_left _ hid)
    have hlater : ∀ id ∈ Term.occurrencesList ts, id < p.parameters.length := fun id hid =>
      hdeclared id (List.mem_append_right _ hid)
    by_cases hexp : t.isExpansion = true
    · obtain ⟨inner, rfl⟩ := Term.exists_of_isExpansion hexp
      have hany : inner.occurrences.any (p.isPack model) = true := by
        rw [checkUsage] at husage
        split at husage
        · assumption
        · exact Except.noConfusion rfl rfl (heq_of_eq husage)
      obtain ⟨pack, hpackOf⟩ : ∃ pack,
          (Matching.structural model p.parameters).packOf inner = some pack :=
        Option.isSome_iff_exists.mp (List.find?_isSome.mpr (List.any_eq_true.mp hany))
      have hpack : p.isPack model pack = true := List.find?_some hpackOf
      obtain ⟨q, hq, hisPack⟩ :=
        Matching.exists_parameter (m := Matching.structural model p.parameters) hpack
      have hexpansion : Term.substList (frozen model p.parameters) [.expansion inner] =
          [.expansion (inner.subst
            ((Matching.structural model p.parameters).frozenElement pack q))] :=
        Matching.substList_frozen hpackOf hq hisPack
      have hinner : (inner.subst
          ((Matching.structural model p.parameters).frozenElement pack q)).occurrences = [] :=
        occurrences_frozenElement hunique hfirst hpack
      rw [Term.substList_cons, hexpansion, List.singleton_append, Term.occurrencesList,
        Term.occurrences, hinner]
      exact occurrencesList_substList_frozen hunique ts husages h hlater
    · rw [Bool.not_eq_true] at hexp
      rw [Term.expandsInListsList_cons hexp, Bool.and_eq_true] at h
      have hterm := occurrences_subst_frozen hunique t husage h.1 hfirst
      have hrest := occurrencesList_substList_frozen hunique ts husages h.2 hlater
      rw [Term.substList] at hrest ⊢
      rw [Substitution.applyList_cons hexp]
      exact List.append_eq_nil_iff.mpr ⟨hterm, hrest⟩

end

/-- The pattern mentions nothing but its own parameters, and its packs are expanded in lists. -/
structure Grounded (p : Pattern) : Prop where
  placeholderFree : p.PlaceholderFree
  declared : ∀ id ∈ Term.occurrencesList p.args, id < p.parameters.length
  expansions : Term.expandsInListsList p.args = true

/-- **No parameter is left in the image of a pattern.** -/
theorem Grounded.occurrences_image (h : p.Grounded) (hp : p.WellFormed model) :
    Term.occurrencesList (p.image model) = [] :=
  occurrencesList_substList_frozen hp.isPack_unique p.args
    (checkArguments_inv hp.arguments).2 h.expansions h.declared

end Pattern

end TemplateResolution
