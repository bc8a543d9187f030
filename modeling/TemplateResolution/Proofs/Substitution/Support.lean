import TemplateResolution.Proofs.Term.Normal
import TemplateResolution.Substitution.Apply

/-!
# What an application depends on

Applying a substitution to a term reads the bindings of the parameters that the
term mentions, and no others (`apply_congr`).

A parameter that is bound to a pack is replaced inside expansions only: anywhere
else it is left standing (`mem_occurrences_apply`), so a term that no longer
mentions it did not mention it outside expansions before.
-/

namespace TemplateResolution

namespace Term

mutual

/-- What the expansions in a term repeat, at every depth. -/
def expansions : Term → List Term
  | expansion inner => inner :: expansions inner
  | apply head args => expansions head ++ expansionsList args
  | pointer inner | qualified _ inner | reference _ inner => expansions inner
  | offset base _ => expansions base
  | param _ | placeholder _ | type _ | value _ _ | template _ => []

def expansionsList : List Term → List Term
  | [] => []
  | t :: ts => expansions t ++ expansionsList ts

end

@[simp] theorem expansions_qualify (t : Term) (quals : Qualifiers) :
    (t.qualify quals).expansions = t.expansions := by
  unfold qualify
  split
  · rfl
  · split <;> rfl

@[simp] theorem expansions_unqualified (t : Term) : t.unqualified.expansions = t.expansions := by
  cases t <;> rfl

theorem isExpansion_of_expansions_eq_nil {t : Term} (h : t.expansions = []) :
    t.isExpansion = false := by
  cases t with
  | expansion inner => exact absurd h (List.cons_ne_nil _ _)
  | _ => rfl

theorem expansions_eq_nil_of_mem {t : Term} {ts : List Term} (h : expansionsList ts = [])
    (ht : t ∈ ts) : t.expansions = [] := by
  induction ts with
  | nil => exact absurd ht List.not_mem_nil
  | cons u ts ih =>
    obtain ⟨hu, hts⟩ := List.append_eq_nil_iff.mp h
    rcases List.mem_cons.mp ht with rfl | ht
    · exact hu
    · exact ih hts ht

end Term

/-- The first term of a list apart from the others. -/
theorem Term.substList_cons (σ : Substitution) (t : Term) (ts : List Term) :
    Term.substList σ (t :: ts) = Term.substList σ [t] ++ Term.substList σ ts :=
  Substitution.applyList_append σ [t] ts

namespace Substitution

/-! ### Looking up -/

/-- Changing what is bound leaves alone which parameters are bound. -/
theorem lookup_map (f : Binding → Binding) (id : ParamId) (l : List (ParamId × Binding)) :
    (l.map fun (i, b) => (i, f b)).lookup id = (l.lookup id).map f := by
  induction l with
  | nil => rfl
  | cons entry rest ih =>
    obtain ⟨i, b⟩ := entry
    rw [List.map_cons, List.lookup_cons, List.lookup_cons, ih]
    split <;> rfl

theorem lookup_filter (keep : ParamId → Bool) (id : ParamId) (l : List (ParamId × Binding)) :
    (l.filter fun entry => keep entry.1).lookup id = if keep id then l.lookup id else none := by
  induction l with
  | nil => rw [List.filter_nil, List.lookup_nil, ite_self]
  | cons entry rest ih =>
    obtain ⟨i, b⟩ := entry
    rw [List.filter_cons]
    by_cases hid : id = i
    · subst hid
      cases hkeep : keep id with
      | false => rw [if_neg Bool.false_ne_true, ih, hkeep]; rfl
      | true => rw [if_pos rfl, if_pos rfl, List.lookup_cons_self, List.lookup_cons_self]
    · have hne : (id == i) = false := beq_eq_false_iff_ne.mpr hid
      rw [List.lookup_cons, hne, ← ih]
      split
      · rw [List.lookup_cons, hne]
      · rfl

/-! ### The bindings that are read -/

theorem boundPack_congr {t : Term} {σ τ : Substitution}
    (h : ∀ id ∈ t.occurrences, σ.get? id = τ.get? id) : σ.boundPack t = τ.boundPack t := by
  rw [boundPack, boundPack]
  generalize t.occurrences = ids at h
  induction ids with
  | nil => rfl
  | cons id ids ih =>
    rw [List.findSome?_cons, List.findSome?_cons, h id List.mem_cons_self,
      ih fun i hi => h i (List.mem_cons_of_mem _ hi)]

/-- An expansion runs over a pack that it mentions. -/
theorem boundPack_inv {σ : Substitution} {t : Term} {pack : ParamId} {ts : List Term}
    (h : σ.boundPack t = some (pack, ts)) :
    pack ∈ t.occurrences ∧ σ.get? pack = some (.pack ts) := by
  obtain ⟨id, hid, heq⟩ := List.exists_of_findSome?_eq_some h
  split at heq
  · rename_i us hus
    obtain ⟨rfl, rfl⟩ := Prod.mk.inj (Option.some.inj heq)
    exact ⟨hid, hus⟩
  · exact absurd heq (Option.some_ne_none _).symm

mutual

theorem apply_congr : ∀ (t : Term) {σ τ : Substitution},
    (∀ id ∈ t.occurrences, σ.get? id = τ.get? id) → apply t σ = apply t τ
  | .param id, σ, τ, h => by
    rw [apply, apply, atParam, atParam, h id (List.mem_singleton_self id)]
  | .apply head args, σ, τ, h => by
    have hhead := apply_congr head fun id hid => h id (List.mem_append_left _ hid)
    have hargs := applyList_congr args fun id hid => h id (List.mem_append_right _ hid)
    rw [apply, apply, hhead, hargs]
  | .pointer inner, σ, τ, h => by rw [apply, apply, apply_congr inner h]
  | .qualified quals inner, σ, τ, h => by rw [apply, apply, apply_congr inner h]
  | .reference kind inner, σ, τ, h => by rw [apply, apply, apply_congr inner h]
  | .expansion inner, σ, τ, h => by rw [apply, apply, apply_congr inner h]
  | .offset base delta, σ, τ, h => by rw [apply, apply, apply_congr base h]
  | .placeholder _, _, _, _ | .type _, _, _, _ | .value _ _, _, _, _ | .template _, _, _, _ => rfl

theorem applyList_congr : ∀ (ts : List Term) {σ τ : Substitution},
    (∀ id ∈ Term.occurrencesList ts, σ.get? id = τ.get? id) → applyList ts σ = applyList ts τ
  | [], _, _, _ => rfl
  | t :: ts, σ, τ, h => by
    have htail := applyList_congr ts fun id hid => h id (List.mem_append_right _ hid)
    have hhead : ∀ id ∈ t.occurrences, σ.get? id = τ.get? id :=
      fun id hid => h id (List.mem_append_left _ hid)
    by_cases hexp : t.isExpansion = true
    · obtain ⟨inner, rfl⟩ := Term.exists_of_isExpansion hexp
      rw [applyList, applyList, htail, boundPack_congr (t := inner) hhead]
      rcases τ.boundPack inner with _ | ⟨pack, elements⟩
      · rw [apply_congr inner hhead]
      · have helement : ∀ e ∈ elements,
            e.expandedLike (apply inner (σ.atElement pack e)) =
              e.expandedLike (apply inner (τ.atElement pack e)) := by
          intro e _
          refine congrArg e.expandedLike (apply_congr inner fun id hid => ?_)
          rw [atElement, atElement, get?_insert, get?_insert, hhead id hid]
        dsimp only
        rw [List.map_congr_left helement]
    · rw [Bool.not_eq_true] at hexp
      rw [applyList_cons hexp, applyList_cons hexp, htail, apply_congr t hhead]

end

/-- A binding for a parameter that a term does not mention is not read. -/
theorem apply_insert_of_notMem {t : Term} {id : ParamId} (h : id ∉ t.occurrences)
    (σ : Substitution) (b : Binding) : apply t (σ.insert id b) = apply t σ := by
  refine apply_congr t fun j hj => ?_
  rw [get?_insert, if_neg]
  rintro rfl
  exact h hj

/-! ### Packs outside expansions -/

section Pack

variable {σ : Substitution} {pack : ParamId} {elements : List Term}

mutual

theorem mem_occurrences_apply (hpack : σ.get? pack = some (.pack elements)) :
    ∀ t : Term, (∀ inner ∈ t.expansions, pack ∉ inner.occurrences) →
      pack ∈ t.occurrences → pack ∈ (apply t σ).occurrences
  | .param id, _, hmem => by
    obtain rfl := List.mem_singleton.mp hmem
    rw [apply, atParam, hpack]
    exact List.mem_singleton_self pack
  | .apply head args, hout, hmem => by
    rw [apply, Term.occurrences, List.mem_append]
    rcases List.mem_append.mp hmem with hmem | hmem
    · exact .inl (mem_occurrences_apply hpack head
        (fun inner hinner => hout inner (List.mem_append_left _ hinner)) hmem)
    · exact .inr (mem_occurrences_applyList hpack args
        (fun inner hinner => hout inner (List.mem_append_right _ hinner)) hmem)
  | .pointer inner, hout, hmem => mem_occurrences_apply hpack inner hout hmem
  | .qualified quals inner, hout, hmem => by
    rw [apply, Term.occurrences_qualify]
    exact mem_occurrences_apply hpack inner hout hmem
  | .reference kind inner, hout, hmem => by
    rw [apply, Term.occurrences_refer]
    exact mem_occurrences_apply hpack inner hout hmem
  | .expansion inner, hout, hmem => absurd hmem (hout inner List.mem_cons_self)
  | .offset base delta, hout, hmem => by
    rw [apply, Term.occurrences_plus]
    exact mem_occurrences_apply hpack base hout hmem
  | .placeholder _, _, hmem | .type _, _, hmem | .value _ _, _, hmem | .template _, _, hmem =>
    absurd hmem List.not_mem_nil

theorem mem_occurrences_applyList (hpack : σ.get? pack = some (.pack elements)) :
    ∀ ts : List Term, (∀ inner ∈ Term.expansionsList ts, pack ∉ inner.occurrences) →
      pack ∈ Term.occurrencesList ts → pack ∈ Term.occurrencesList (applyList ts σ)
  | [], _, hmem => hmem
  | t :: ts, hout, hmem => by
    have hhead : ∀ inner ∈ t.expansions, pack ∉ inner.occurrences :=
      fun inner hinner => hout inner (List.mem_append_left _ hinner)
    have htail : ∀ inner ∈ Term.expansionsList ts, pack ∉ inner.occurrences :=
      fun inner hinner => hout inner (List.mem_append_right _ hinner)
    rcases List.mem_append.mp hmem with hmem | hmem
    · have hexp : t.isExpansion = false := by
        refine Bool.eq_false_iff.mpr fun hexp => ?_
        obtain ⟨inner, rfl⟩ := Term.exists_of_isExpansion hexp
        exact hhead inner List.mem_cons_self hmem
      rw [applyList_cons hexp, Term.occurrencesList]
      exact List.mem_append_left _ (mem_occurrences_apply hpack t hhead hmem)
    · have hrest := mem_occurrences_applyList hpack ts htail hmem
      have hsplit : applyList (t :: ts) σ = applyList [t] σ ++ applyList ts σ :=
        Term.substList_cons σ t ts
      rw [hsplit, Term.mem_occurrencesList]
      obtain ⟨u, hu, hmem⟩ := Term.mem_occurrencesList.mp hrest
      exact ⟨u, List.mem_append_right _ hu, hmem⟩

end

end Pack

end Substitution

end TemplateResolution
