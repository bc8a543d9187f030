import TemplateResolution.Proofs.Specificity.Image

/-!
# What is left standing

A placeholder takes the place of a parameter that is no pack, and that of a pack where an
expansion over it is an item of a list.  Anywhere else a pack is left standing in the image.  So
an image may mention parameters, and the fewer decorations there are the fewer it mentions: an
expansion may become an item of a list when the qualifiers around it are taken off, and a pack may
then stand for its element where it was left standing before (`Substitution.Fixes`).  Hence where
nothing is left standing in an image, nothing is in the image of the pattern without decorations
(`occurrencesList_erase_eq_nil`, `occurrencesList_decayed_eq_nil`).
-/

namespace TemplateResolution

namespace Term

mutual

theorem occurrences_erase : ∀ t : Term, t.erase.occurrences = t.occurrences
  | param _ | placeholder _ | type _ | value _ _ | template _ => rfl
  | apply head args => by
    rw [erase, occurrences, occurrences, occurrences_erase head, occurrencesList_erase args]
  | pointer t | qualified _ t | reference _ t | expansion t => occurrences_erase t
  | offset t delta => by
    rw [erase, occurrences_plus, occurrences_erase t]
    rfl

theorem occurrencesList_erase : ∀ ts : List Term,
    occurrencesList (eraseList ts) = occurrencesList ts
  | [] => rfl
  | t :: ts => by
    rw [eraseList, occurrencesList, occurrencesList, occurrences_erase t, occurrencesList_erase ts]

end

theorem occurrences_decayed : ∀ t : Term, t.decayed.occurrences = t.occurrences
  | expansion inner => occurrences_decayed inner
  | qualified _ _ | param _ | placeholder _ | type _ | value _ _ | template _ | apply _ _
  | pointer _ | reference _ _ | offset _ _ => rfl

theorem occurrences_subst_decayed (w : Substitution) : ∀ t : Term,
    (t.decayed.subst w).occurrences = (t.subst w).occurrences
  | expansion inner => occurrences_subst_decayed w inner
  | qualified quals inner => (occurrences_qualify (inner.subst w) quals).symm
  | param _ | placeholder _ | type _ | value _ _ | template _ | apply _ _ | pointer _
  | reference _ _ | offset _ _ => rfl

theorem occurrencesList_append (ts us : List Term) :
    occurrencesList (ts ++ us) = occurrencesList ts ++ occurrencesList us := by
  induction ts with
  | nil => rfl
  | cons t ts ih => rw [List.cons_append, occurrencesList, occurrencesList, ih, List.append_assoc]

end Term

namespace Substitution

/-! ### Items of lists -/

/-- Nothing that is bound mentions a parameter, and every pack has one element. -/
structure Grounding (σ : Substitution) : Prop where
  singles : ∀ id t, σ.get? id = some (.single t) → t.occurrences = []
  packs : ∀ id ts, σ.get? id = some (.pack ts) → ∃ t, ts = [t] ∧ t.occurrences = []

/-- What the parameters stand for inside an expansion of `t` that is an item of a list. -/
def atItem (σ : Substitution) (t : Term) : Substitution :=
  match σ.boundPack t with
  | some (pack, element :: _) => σ.atElement pack element
  | _ => σ

variable {σ τ : Substitution}

theorem Grounding.insert (hσ : σ.Grounding) (pack : ParamId) {u : Term} (hu : u.occurrences = []) :
    (σ.insert pack (.single u)).Grounding := by
  constructor
  · intro id t hid
    rw [get?_insert] at hid
    split at hid
    · obtain rfl := Binding.single.inj (Option.some.inj hid)
      exact hu
    · exact hσ.singles id t hid
  · intro id ts hid
    rw [get?_insert] at hid
    split at hid
    · exact Binding.noConfusion (Option.some.inj hid)
    · exact hσ.packs id ts hid

/-- The substitution inside an item is the one outside, but for the pack that the item runs over. -/
theorem Grounding.atItem_cases (hσ : σ.Grounding) (t : Term) :
    (σ.boundPack t = none ∧ σ.atItem t = σ) ∨
      ∃ pack u, σ.boundPack t = some (pack, [u]) ∧ u.occurrences = [] ∧
        σ.atItem t = σ.insert pack (.single u.expanded) := by
  cases hbound : σ.boundPack t with
  | none => exact .inl ⟨rfl, by rw [atItem, hbound]⟩
  | some found =>
    obtain ⟨pack, ts⟩ := found
    obtain ⟨u, rfl, hu⟩ := hσ.packs pack ts (boundPack_inv hbound).2
    exact .inr ⟨pack, u, rfl, hu, by rw [atItem, hbound]; rfl⟩

/-- What is left standing in an expansion that is an item of a list. -/
theorem Grounding.occurrences_item (hσ : σ.Grounding) (t : Term) :
    Term.occurrencesList (Term.substList σ [.expansion t]) =
      (t.subst (σ.atItem t)).occurrences := by
  rw [Term.substList, applyList]
  rcases hσ.atItem_cases t with ⟨hbound, hat⟩ | ⟨pack, u, hbound, -, hat⟩
  · rw [hbound, hat]
    exact List.append_nil _
  · rw [hbound, hat]
    exact (List.append_nil _).trans (Term.occurrences_expandedLike u _)

theorem occurrences_item_of_plain {t : Term} (ht : t.isExpansion = false) :
    Term.occurrencesList (Term.substList σ [t]) = (t.subst σ).occurrences := by
  rw [Term.substList, applyList_cons ht]
  exact List.append_nil _

theorem occurrencesList_substList_cons (t : Term) (ts : List Term) :
    Term.occurrencesList (Term.substList σ (t :: ts)) =
      Term.occurrencesList (Term.substList σ [t]) ++
        Term.occurrencesList (Term.substList σ ts) := by
  rw [Term.substList_cons, Term.occurrencesList_append]

/-! ### Fixing packs -/

/-- `τ` binds what `σ` binds, and where it does not bind alike, it binds a pack to one term. -/
structure Fixes (σ τ : Substitution) : Prop where
  grounding : τ.Grounding
  singles : ∀ id t, σ.get? id = some (.single t) → ∃ u, τ.get? id = some (.single u)
  packs : ∀ id ts, τ.get? id = some (.pack ts) → ∃ us, σ.get? id = some (.pack us)
  bound : ∀ id ts, σ.get? id = some (.pack ts) → ∃ b, τ.get? id = some b

namespace Fixes

theorem refl (hσ : σ.Grounding) : σ.Fixes σ :=
  ⟨hσ, fun _ t h => ⟨t, h⟩, fun _ ts h => ⟨ts, h⟩, fun _ _ h => ⟨_, h⟩⟩

/-- One more parameter may be fixed on the right. -/
theorem insert_right (h : σ.Fixes τ) (pack : ParamId) {u : Term} (hu : u.occurrences = []) :
    σ.Fixes (τ.insert pack (.single u)) := by
  refine ⟨h.grounding.insert pack hu, fun id t hid => ?_, fun id ts hid => ?_, fun id ts hid => ?_⟩
  · rw [get?_insert]
    split
    · exact ⟨_, rfl⟩
    · exact h.singles id t hid
  · rw [get?_insert] at hid
    split at hid
    · exact Binding.noConfusion (Option.some.inj hid)
    · exact h.packs id ts hid
  · rw [get?_insert]
    split
    · exact ⟨_, rfl⟩
    · exact h.bound id ts hid

/-- On the left a parameter may be fixed that is fixed on the right. -/
theorem insert_left (h : σ.Fixes τ) {pack : ParamId} {v : Term}
    (hv : τ.get? pack = some (.single v)) (u : Term) :
    (σ.insert pack (.single u)).Fixes τ := by
  refine ⟨h.grounding, fun id t hid => ?_, fun id ts hid => ?_, fun id ts hid => ?_⟩
  · rw [get?_insert] at hid
    split at hid
    · rename_i heq
      exact ⟨v, heq ▸ hv⟩
    · exact h.singles id t hid
  · rw [get?_insert]
    split
    · rename_i heq
      rw [heq, hv] at hid
      exact Binding.noConfusion (Option.some.inj hid)
    · exact h.packs id ts hid
  · rw [get?_insert] at hid
    split at hid
    · exact Binding.noConfusion (Option.some.inj hid)
    · exact h.bound id ts hid

/-- Inside an item one more pack is fixed. -/
theorem atItem (h : σ.Fixes τ) (t : Term) : σ.Fixes (τ.atItem t) := by
  rcases h.grounding.atItem_cases t with ⟨-, hat⟩ | ⟨pack, u, -, hu, hat⟩
  · rw [hat]
    exact h
  · rw [hat]
    exact h.insert_right pack ((Term.occurrences_expanded u).trans hu)

/-- The pack that comes first in `σ` also comes first in `τ`, if it is a pack there. -/
theorem first_pack (h : σ.Fixes τ) {t : Term} {pack q : ParamId} {ts us vs : List Term}
    (hσ : σ.boundPack t = some (pack, ts)) (hτ : τ.boundPack t = some (q, us))
    (hpack : τ.get? pack = some (.pack vs)) : q = pack := by
  obtain ⟨ws, hq⟩ := h.packs q us (boundPack_inv hτ).2
  rw [boundPack] at hσ hτ
  generalize t.occurrences = ids at hσ hτ
  induction ids with
  | nil => exact absurd hσ (Option.some_ne_none _).symm
  | cons id ids ih =>
    rw [List.findSome?_cons] at hσ hτ
    by_cases hid : id = pack
    · subst hid
      rw [hpack] at hτ
      exact (Prod.mk.inj (Option.some.inj hτ)).1.symm
    · by_cases hid' : id = q
      · subst hid'
        rw [hq] at hσ
        exact (Prod.mk.inj (Option.some.inj hσ)).1
      · -- neither search ends at `id`
        rcases hgetσ : σ.get? id with _ | _ | _ <;> rcases hgetτ : τ.get? id with _ | _ | _ <;>
          simp only [hgetσ, hgetτ, Option.some.injEq, Prod.mk.injEq, hid, hid', false_and] at hσ hτ
        all_goals exact ih hσ hτ

/-- The pack that an item runs over in `σ` is fixed inside an item that mentions the same. -/
theorem exists_single (h : σ.Fixes τ) {t u : Term} (hocc : u.occurrences = t.occurrences)
    {pack : ParamId} {ts : List Term} (hbound : σ.boundPack t = some (pack, ts)) :
    ∃ v, (τ.atItem u).get? pack = some (.single v) := by
  obtain ⟨hmem, hget⟩ := boundPack_inv hbound
  obtain ⟨b, hb⟩ := (h.atItem u).bound pack ts hget
  cases b with
  | single v => exact ⟨v, hb⟩
  | pack vs =>
    rcases h.grounding.atItem_cases u with ⟨hnone, hat⟩ | ⟨q, v, hsome, -, hat⟩
    · -- a pack that `u` mentions would have been found
      rw [hat] at hb
      have hskip := List.findSome?_eq_none_iff.mp hnone pack (hocc ▸ hmem)
      rw [hb] at hskip
      exact absurd hskip (Option.some_ne_none _)
    · have hsame : τ.boundPack u = τ.boundPack t := by rw [boundPack, boundPack, hocc]
      rw [hat, get?_insert] at hb
      split at hb
      · exact Binding.noConfusion (Option.some.inj hb)
      · rename_i hne
        exact absurd (h.first_pack hbound (hsame ▸ hsome) hb).symm hne

/-- Inside items that mention the same, packs are fixed as outside. -/
theorem atItem_both (h : σ.Fixes τ) (hσ : σ.Grounding) {t u : Term}
    (hocc : u.occurrences = t.occurrences) : (σ.atItem t).Fixes (τ.atItem u) := by
  rcases hσ.atItem_cases t with ⟨-, hat⟩ | ⟨pack, e, hbound, -, hat⟩
  · rw [hat]
    exact h.atItem u
  · obtain ⟨v, hv⟩ := h.exists_single hocc hbound
    rw [hat]
    exact (h.atItem u).insert_left hv e.expanded

/-- A term in which nothing is left standing, however many packs are fixed, makes such an item. -/
theorem item_eq_nil (h : σ.Fixes τ) {t : Term}
    (ht : ∀ τ', σ.Fixes τ' → (t.subst τ').occurrences = []) :
    Term.occurrencesList (Term.substList τ [t]) = [] := by
  by_cases hexp : t.isExpansion = true
  · obtain ⟨inner, rfl⟩ := Term.exists_of_isExpansion hexp
    rw [h.grounding.occurrences_item]
    exact ht _ (h.atItem inner)
  · rw [Bool.not_eq_true] at hexp
    rw [occurrences_item_of_plain hexp]
    exact ht τ h

end Fixes

/-! ### Fewer decorations -/

mutual

/-- If nothing is left standing, nothing is when packs are fixed and decorations taken off. -/
theorem occurrences_erase_eq_nil : ∀ (t : Term) {σ τ : Substitution}, σ.Grounding → σ.Fixes τ →
    (t.subst σ).occurrences = [] →
    (t.subst τ).occurrences = [] ∧ (t.erase.subst τ).occurrences = []
  | .param id, σ, τ, hσ, hτ, h => by
    have hnil : (τ.atParam id).occurrences = [] := by
      rw [Term.subst, apply, atParam] at h
      rw [atParam]
      rcases hget : σ.get? id with _ | t | ts
      · rw [hget] at h
        exact absurd h (List.cons_ne_nil _ _)
      · obtain ⟨u, hu⟩ := hτ.singles id t hget
        rw [hu]
        exact hτ.grounding.singles id u hu
      · rw [hget] at h
        exact absurd h (List.cons_ne_nil _ _)
    exact ⟨hnil, hnil⟩
  | .placeholder _, _, _, _, _, _ | .type _, _, _, _, _, _ | .value _ _, _, _, _, _, _
  | .template _, _, _, _, _, _ => ⟨rfl, rfl⟩
  | .pointer t, σ, τ, hσ, hτ, h => occurrences_erase_eq_nil t hσ hτ h
  | .expansion t, σ, τ, hσ, hτ, h => occurrences_erase_eq_nil t hσ hτ h
  | .qualified quals t, σ, τ, hσ, hτ, h => by
    rw [Term.subst, apply, Term.occurrences_qualify] at h
    obtain ⟨hplain, herase⟩ := occurrences_erase_eq_nil t hσ hτ h
    rw [Term.subst, apply, Term.occurrences_qualify]
    exact ⟨hplain, herase⟩
  | .reference kind t, σ, τ, hσ, hτ, h => by
    rw [Term.subst, apply, Term.occurrences_refer] at h
    obtain ⟨hplain, herase⟩ := occurrences_erase_eq_nil t hσ hτ h
    rw [Term.subst, apply, Term.occurrences_refer]
    exact ⟨hplain, herase⟩
  | .offset t delta, σ, τ, hσ, hτ, h => by
    rw [Term.subst, apply, Term.occurrences_plus] at h
    obtain ⟨hplain, herase⟩ := occurrences_erase_eq_nil t hσ hτ h
    rw [Term.erase, Term.subst_plus, Term.subst, apply, Term.occurrences_plus,
      Term.occurrences_plus]
    exact ⟨hplain, herase⟩
  | .apply head args, σ, τ, hσ, hτ, h => by
    obtain ⟨hhead, hargs⟩ := List.append_eq_nil_iff.mp h
    obtain ⟨hhead, hhead'⟩ := occurrences_erase_eq_nil head hσ hτ hhead
    obtain ⟨hargs, hargs'⟩ := occurrencesList_erase_eq_nil args hσ hτ hargs
    exact ⟨List.append_eq_nil_iff.mpr ⟨hhead, hargs⟩, List.append_eq_nil_iff.mpr ⟨hhead', hargs'⟩⟩

theorem occurrencesList_erase_eq_nil : ∀ (ts : List Term) {σ τ : Substitution}, σ.Grounding →
    σ.Fixes τ → Term.occurrencesList (Term.substList σ ts) = [] →
    Term.occurrencesList (Term.substList τ ts) = [] ∧
      Term.occurrencesList (Term.substList τ (Term.eraseList ts)) = []
  | [], _, _, _, _, _ => ⟨rfl, rfl⟩
  | t :: ts, σ, τ, hσ, hτ, h => by
    rw [occurrencesList_substList_cons] at h
    obtain ⟨hfirst, hrest⟩ := List.append_eq_nil_iff.mp h
    obtain ⟨hrest, hrest'⟩ := occurrencesList_erase_eq_nil ts hσ hτ hrest
    rw [Term.eraseList, occurrencesList_substList_cons, occurrencesList_substList_cons t.erase,
      hrest, hrest', List.append_nil, List.append_nil]
    by_cases hexp : t.isExpansion = true
    · obtain ⟨inner, rfl⟩ := Term.exists_of_isExpansion hexp
      rw [hσ.occurrences_item] at hfirst
      have hat : (σ.atItem inner).Grounding := ((Fixes.refl hσ).atItem inner).grounding
      have hplain := hτ.atItem_both hσ (t := inner) (u := inner) rfl
      have herase := hτ.atItem_both hσ (Term.occurrences_erase inner)
      rw [Term.erase, hτ.grounding.occurrences_item, hτ.grounding.occurrences_item]
      exact ⟨(occurrences_erase_eq_nil inner hat hplain hfirst).1,
        (occurrences_erase_eq_nil inner hat herase hfirst).2⟩
    · rw [Bool.not_eq_true] at hexp
      rw [occurrences_item_of_plain hexp] at hfirst
      exact ⟨hτ.item_eq_nil fun τ' hτ' => (occurrences_erase_eq_nil t hσ hτ' hfirst).1,
        hτ.item_eq_nil fun τ' hτ' => (occurrences_erase_eq_nil t hσ hτ' hfirst).2⟩

end

/-- An expansion keeps its items, and any other item loses one layer of qualifiers at most. -/
theorem occurrencesList_decayed_eq_nil (hσ : σ.Grounding) {ts : List Term}
    (h : Term.occurrencesList (Term.substList σ ts) = []) :
    Term.occurrencesList (Term.substList σ (ts.map Term.decayed)) = [] := by
  induction ts with
  | nil => rfl
  | cons t ts ih =>
    rw [occurrencesList_substList_cons] at h
    obtain ⟨hfirst, hrest⟩ := List.append_eq_nil_iff.mp h
    rw [List.map_cons, occurrencesList_substList_cons, ih hrest, List.append_nil]
    cases t with
    | expansion inner =>
      have hat : σ.atItem inner.decayed = σ.atItem inner := by
        rw [Substitution.atItem, Substitution.atItem, boundPack, boundPack,
          Term.occurrences_decayed]
      rw [hσ.occurrences_item] at hfirst
      rw [Term.decayed, hσ.occurrences_item, hat, Term.occurrences_subst_decayed]
      exact hfirst
    | qualified quals inner =>
      rw [occurrences_item_of_plain rfl, Term.subst, apply, Term.occurrences_qualify] at hfirst
      exact (Fixes.refl hσ).item_eq_nil fun τ hτ =>
        (occurrences_erase_eq_nil inner hσ hτ hfirst).1
    | _ => exact hfirst

end Substitution

namespace PlaceholderSupply

/-- Placeholders mention no parameter, and a pack has one. -/
theorem grounding_frozen (model : TypeModel) (parameters : List Parameter) :
    (frozen model parameters).Grounding := by
  constructor
  · intro id t h
    obtain ⟨q, -, ⟨-, heq⟩ | ⟨-, heq⟩⟩ := exists_of_get?_frozen h
    · obtain rfl := Binding.single.inj heq
      rfl
    · exact Binding.noConfusion heq
  · intro id ts h
    obtain ⟨q, -, ⟨-, heq⟩ | ⟨-, heq⟩⟩ := exists_of_get?_frozen h
    · exact Binding.noConfusion heq
    · exact ⟨_, Binding.pack.inj heq, rfl⟩

end PlaceholderSupply

end TemplateResolution
