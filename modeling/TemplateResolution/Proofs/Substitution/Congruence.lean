import TemplateResolution.Proofs.Substitution.Support
import TemplateResolution.Proofs.Term.Equality

/-!
# Substitutions that agree up to names

Two substitutions agree on a parameter when both leave it unbound or bind it to
terms that are the same.  Substitutions that agree on the parameters of a term turn
it, and any term that is the same, into terms that are the same (`same_subst`): a
pack has the same number of elements in both, so an expansion becomes equally many
terms.
-/

namespace TemplateResolution

def Binding.same (leaf : String → String → Bool) : Binding → Binding → Bool
  | .single t, .single u => t.same leaf u
  | .pack ts, .pack us => Term.sameList leaf ts us
  | .single _, .pack _ | .pack _, .single _ => false

variable {leaf : String → String → Bool}

namespace Binding

theorem same_refl (hrefl : ∀ n, leaf n n = true) (b : Binding) : b.same leaf b = true := by
  cases b with
  | single t => exact Term.same_refl hrefl t
  | pack ts => exact Term.sameList_refl hrefl ts

theorem same_single_left {t : Term} {b : Binding} (h : (single t).same leaf b = true) :
    ∃ u, b = single u ∧ t.same leaf u = true := by
  cases b with
  | single u => exact ⟨u, rfl, h⟩
  | pack us => exact Bool.noConfusion h

/-- Bindings that agree in every name are equal. -/
theorem same_beq_iff {b c : Binding} : b.same (· == ·) c = true ↔ b = c := by
  cases b <;> cases c <;> simp [same, Term.same_beq_iff, Term.sameList_beq_iff]

end Binding

namespace Substitution

/-- Both substitutions leave the parameter unbound, or bind it to the same. -/
def AgreeOn (leaf : String → String → Bool) (σ τ : Substitution) (id : ParamId) : Prop :=
  Option.Rel (fun b c => b.same leaf c = true) (σ.get? id) (τ.get? id)

theorem AgreeOn.refl (hrefl : ∀ n, leaf n n = true) (σ : Substitution) (id : ParamId) :
    σ.AgreeOn leaf σ id := by
  rw [AgreeOn]
  cases σ.get? id with
  | none => exact .none
  | some b => exact .some (Binding.same_refl hrefl b)

theorem AgreeOn.insert {σ τ : Substitution} {id : ParamId} (h : σ.AgreeOn leaf τ id)
    (j : ParamId) {b c : Binding} (hbc : b.same leaf c = true) :
    (σ.insert j b).AgreeOn leaf (τ.insert j c) id := by
  rw [AgreeOn, get?_insert, get?_insert]
  split
  · exact .some hbc
  · exact h

theorem same_atParam {σ τ : Substitution} {id : ParamId} (h : σ.AgreeOn leaf τ id) :
    (σ.atParam id).same leaf (τ.atParam id) = true := by
  rw [atParam, atParam]
  rw [AgreeOn] at h
  generalize σ.get? id = b at h ⊢
  generalize τ.get? id = c at h ⊢
  cases h with
  | none => exact beq_self_eq_true id
  | @some b c hbc =>
    cases b with
    | single t =>
      obtain ⟨u, rfl, htu⟩ := Binding.same_single_left hbc
      exact htu
    | pack ts =>
      cases c with
      | single u => exact Bool.noConfusion hbc
      | pack us => exact beq_self_eq_true id

/-- An expansion runs over the same pack under both, with elements that are the same. -/
theorem boundPack_same {t : Term} {σ τ : Substitution}
    (h : ∀ id ∈ t.occurrences, σ.AgreeOn leaf τ id) :
    Option.Rel (fun p q => p.1 = q.1 ∧ Term.sameList leaf p.2 q.2 = true) (σ.boundPack t)
      (τ.boundPack t) := by
  rw [boundPack, boundPack]
  generalize t.occurrences = ids at h
  induction ids with
  | nil => exact .none
  | cons id ids ih =>
    have htail := ih fun j hj => h j (List.mem_cons_of_mem _ hj)
    have hhead := h id List.mem_cons_self
    rw [List.findSome?_cons, List.findSome?_cons]
    rw [AgreeOn] at hhead
    generalize σ.get? id = b at hhead ⊢
    generalize τ.get? id = c at hhead ⊢
    cases hhead with
    | none => exact htail
    | @some b c hbc =>
      cases b <;> cases c
      case single.single => exact htail
      case pack.pack => exact .some ⟨rfl, hbc⟩
      all_goals exact Bool.noConfusion hbc

theorem same_elements {σ τ : Substitution} {a b : Term} {pack : ParamId}
    (hstep : ∀ e e' : Term, e.same leaf e' = true →
      (apply a (σ.atElement pack e)).same leaf (apply b (τ.atElement pack e')) = true) :
    ∀ ts us : List Term, Term.sameList leaf ts us = true →
      Term.sameList leaf (ts.map fun e => e.expandedLike (apply a (σ.atElement pack e)))
        (us.map fun e => e.expandedLike (apply b (τ.atElement pack e))) = true := by
  intro ts
  induction ts with
  | nil =>
    intro us h
    cases us with
    | nil => rfl
    | cons u us => exact Bool.noConfusion h
  | cons t ts ih =>
    intro us h
    cases us with
    | nil => exact Bool.noConfusion h
    | cons u us =>
      obtain ⟨htu, htail⟩ := (Bool.and_eq_true _ _).mp h
      have hhead : (t.expandedLike (apply a (σ.atElement pack t))).same leaf
          (u.expandedLike (apply b (τ.atElement pack u))) = true := by
        rw [Term.expandedLike, Term.expandedLike, Term.isExpansion_eq_of_same htu]
        split
        · exact hstep t u htu
        · exact hstep t u htu
      exact (Bool.and_eq_true _ _).mpr ⟨hhead, ih us htail⟩

mutual

theorem same_apply : ∀ (a b : Term) {σ τ : Substitution}, a.same leaf b = true →
    (∀ id ∈ a.occurrences, σ.AgreeOn leaf τ id) → (apply a σ).same leaf (apply b τ) = true
  | .param id, b, σ, τ, h, hagree => by
    cases b <;> simp only [Term.same, Bool.false_eq_true, beq_iff_eq] at h
    subst h
    exact same_atParam (hagree id (List.mem_singleton_self id))
  | .placeholder _, b, σ, τ, h, _ | .type _, b, σ, τ, h, _ | .value _ _, b, σ, τ, h, _
  | .template _, b, σ, τ, h, _ => by
    cases b <;> simp only [Term.same, Bool.false_eq_true] at h
    simpa [apply, Term.same] using h
  | .apply head args, b, σ, τ, h, hagree => by
    cases b <;> simp only [Term.same, Bool.false_eq_true, Bool.and_eq_true] at h
    have hhead := same_apply head _ h.1 fun id hid => hagree id (List.mem_append_left _ hid)
    have hargs := same_applyList args _ h.2 fun id hid => hagree id (List.mem_append_right _ hid)
    rw [apply, apply, Term.same, hhead, hargs]
    rfl
  | .pointer inner, b, σ, τ, h, hagree | .expansion inner, b, σ, τ, h, hagree => by
    cases b <;> simp only [Term.same, Bool.false_eq_true] at h
    rw [apply, apply, Term.same]
    exact same_apply inner _ h hagree
  | .qualified quals inner, b, σ, τ, h, hagree => by
    cases b <;> simp only [Term.same, Bool.false_eq_true, Bool.and_eq_true, beq_iff_eq] at h
    obtain ⟨rfl, h⟩ := h
    exact Term.same_qualify (same_apply inner _ h hagree) quals
  | .reference kind inner, b, σ, τ, h, hagree => by
    cases b <;> simp only [Term.same, Bool.false_eq_true, Bool.and_eq_true, beq_iff_eq] at h
    obtain ⟨rfl, h⟩ := h
    exact Term.same_refer_refer (same_apply inner _ h hagree) kind
  | .offset base delta, b, σ, τ, h, hagree => by
    cases b <;> simp only [Term.same, Bool.false_eq_true, Bool.and_eq_true, beq_iff_eq] at h
    obtain ⟨rfl, h⟩ := h
    exact Term.same_plus (same_apply base _ h hagree) delta

theorem same_applyList : ∀ (as bs : List Term) {σ τ : Substitution},
    Term.sameList leaf as bs = true →
    (∀ id ∈ Term.occurrencesList as, σ.AgreeOn leaf τ id) →
    Term.sameList leaf (applyList as σ) (applyList bs τ) = true
  | [], bs, σ, τ, h, _ => by
    cases bs with
    | nil => rfl
    | cons b bs => exact Bool.noConfusion h
  | a :: as, bs, σ, τ, h, hagree => by
    cases bs with
    | nil => exact Bool.noConfusion h
    | cons b bs =>
      obtain ⟨hab, htail⟩ := (Bool.and_eq_true _ _).mp h
      have hrest := same_applyList as bs htail fun id hid => hagree id (List.mem_append_right _ hid)
      have hhead : ∀ id ∈ a.occurrences, σ.AgreeOn leaf τ id :=
        fun id hid => hagree id (List.mem_append_left _ hid)
      have hshape := Term.isExpansion_eq_of_same hab
      by_cases hexp : a.isExpansion = true
      · obtain ⟨inner, rfl⟩ := Term.exists_of_isExpansion hexp
        obtain ⟨inner', rfl⟩ := Term.exists_of_isExpansion (hshape ▸ hexp)
        have hocc : inner.occurrences = inner'.occurrences := Term.occurrences_eq_of_same _ _ hab
        have hpack := boundPack_same hhead
        have hpack' : τ.boundPack (.expansion inner) = τ.boundPack inner' := by
          rw [boundPack, boundPack, Term.occurrences, hocc]
        rw [hpack'] at hpack
        rw [applyList, applyList]
        change Option.Rel _ (σ.boundPack inner) _ at hpack
        generalize σ.boundPack inner = x at hpack ⊢
        generalize τ.boundPack inner' = y at hpack ⊢
        cases hpack with
        | none =>
          exact (Bool.and_eq_true _ _).mpr ⟨same_apply inner inner' hab hhead, hrest⟩
        | @some x y hxy =>
          obtain ⟨pack, elements⟩ := x
          obtain ⟨pack', elements'⟩ := y
          obtain ⟨rfl, helements⟩ := hxy
          refine Term.sameList_append (same_elements (fun e e' hee' => ?_) _ _ helements) hrest
          refine same_apply inner inner' hab fun id hid => ?_
          exact (hhead id hid).insert pack (Term.same_expanded_of_same hee')
      · rw [Bool.not_eq_true] at hexp
        rw [applyList_cons hexp, applyList_cons (hshape ▸ hexp)]
        exact (Bool.and_eq_true _ _).mpr ⟨same_apply a b hab hhead, hrest⟩

end

end Substitution

/-- **What is the same stays the same under substitutions that agree.** -/
theorem Term.same_subst {a b : Term} {σ τ : Substitution} (h : a.same leaf b = true)
    (hagree : ∀ id ∈ a.occurrences, σ.AgreeOn leaf τ id) :
    (a.subst σ).same leaf (b.subst τ) = true :=
  Substitution.same_apply a b h hagree

end TemplateResolution
