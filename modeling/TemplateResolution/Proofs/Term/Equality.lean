import TemplateResolution.Proofs.Term.Normal
import TemplateResolution.Term.Equality

/-!
# Sameness of terms

As far as the type model's equality of leaf names is reflexive or transitive, so
is sameness of terms.  Terms that are the same have the same shape: they mention
the same parameters in the same places, one is an expansion when the other is, and
decorating them in the same way keeps them the same.
-/

namespace TemplateResolution.Term

variable {leaf : String → String → Bool}

/-! ### Reflexive and transitive -/

mutual

theorem same_refl (hrefl : ∀ n, leaf n n = true) : ∀ a : Term, same leaf a a = true
  | param _ | placeholder _ => by simp [same]
  | type a | template a => hrefl a
  | value _ ty => by simp [same, hrefl ty]
  | apply f as => by simp [same, same_refl hrefl f, sameList_refl hrefl as]
  | pointer a | expansion a => same_refl hrefl a
  | qualified _ a | reference _ a | offset a _ => by simp [same, same_refl hrefl a]

theorem sameList_refl (hrefl : ∀ n, leaf n n = true) : ∀ as : List Term, sameList leaf as as = true
  | [] => rfl
  | a :: as => by simp [sameList, same_refl hrefl a, sameList_refl hrefl as]

end

mutual

theorem same_trans (htrans : ∀ l m n, leaf l m = true → leaf m n = true → leaf l n = true) :
    ∀ a b c : Term, same leaf a b = true → same leaf b c = true → same leaf a c = true
  | param _, b, c, hab, hbc | placeholder _, b, c, hab, hbc => by
    cases b <;> simp only [same, Bool.false_eq_true] at hab
    cases c <;> simp only [same, Bool.false_eq_true] at hbc
    simp_all [same]
  | type a, b, c, hab, hbc | template a, b, c, hab, hbc => by
    cases b <;> simp only [same, Bool.false_eq_true] at hab
    cases c <;> simp only [same, Bool.false_eq_true] at hbc
    exact htrans _ _ _ hab hbc
  | value _ _, b, c, hab, hbc => by
    cases b <;> simp only [same, Bool.false_eq_true, Bool.and_eq_true, beq_iff_eq] at hab
    cases c <;> simp only [same, Bool.false_eq_true, Bool.and_eq_true, beq_iff_eq] at hbc
    simp [same, hab.1, hbc.1, htrans _ _ _ hab.2 hbc.2]
  | apply f as, b, c, hab, hbc => by
    cases b <;> simp only [same, Bool.false_eq_true, Bool.and_eq_true] at hab
    cases c <;> simp only [same, Bool.false_eq_true, Bool.and_eq_true] at hbc
    simp [same, same_trans htrans f _ _ hab.1 hbc.1, sameList_trans htrans as _ _ hab.2 hbc.2]
  | pointer a, b, c, hab, hbc | expansion a, b, c, hab, hbc => by
    cases b <;> simp only [same, Bool.false_eq_true] at hab
    cases c <;> simp only [same, Bool.false_eq_true] at hbc
    exact same_trans htrans a _ _ hab hbc
  | qualified _ a, b, c, hab, hbc | reference _ a, b, c, hab, hbc | offset a _, b, c, hab, hbc => by
    cases b <;> simp only [same, Bool.false_eq_true, Bool.and_eq_true, beq_iff_eq] at hab
    cases c <;> simp only [same, Bool.false_eq_true, Bool.and_eq_true, beq_iff_eq] at hbc
    simp [same, hab.1, hbc.1, same_trans htrans a _ _ hab.2 hbc.2]

theorem sameList_trans (htrans : ∀ l m n, leaf l m = true → leaf m n = true → leaf l n = true) :
    ∀ as bs cs : List Term, sameList leaf as bs = true → sameList leaf bs cs = true →
      sameList leaf as cs = true
  | [], bs, cs, hab, hbc => by
    cases bs <;> simp only [sameList, Bool.false_eq_true] at hab
    exact hbc
  | a :: as, bs, cs, hab, hbc => by
    cases bs <;> simp only [sameList, Bool.false_eq_true, Bool.and_eq_true] at hab
    cases cs <;> simp only [sameList, Bool.false_eq_true, Bool.and_eq_true] at hbc
    simp [sameList, same_trans htrans a _ _ hab.1 hbc.1, sameList_trans htrans as _ _ hab.2 hbc.2]

end

mutual

/-- Two terms that one term is the same as are the same, as far as this holds of names. -/
theorem same_euclid {leaf' : String → String → Bool}
    (heuclid : ∀ l m n, leaf l m = true → leaf l n = true → leaf' m n = true) :
    ∀ a b c : Term, same leaf a b = true → same leaf a c = true → same leaf' b c = true
  | param _, b, c, hab, hac | placeholder _, b, c, hab, hac => by
    cases b <;> simp only [same, Bool.false_eq_true] at hab
    cases c <;> simp only [same, Bool.false_eq_true] at hac
    simp_all [same]
  | type a, b, c, hab, hac | template a, b, c, hab, hac => by
    cases b <;> simp only [same, Bool.false_eq_true] at hab
    cases c <;> simp only [same, Bool.false_eq_true] at hac
    exact heuclid _ _ _ hab hac
  | value _ _, b, c, hab, hac => by
    cases b <;> simp only [same, Bool.false_eq_true, Bool.and_eq_true, beq_iff_eq] at hab
    cases c <;> simp only [same, Bool.false_eq_true, Bool.and_eq_true, beq_iff_eq] at hac
    simp [same, ← hab.1, hac.1, heuclid _ _ _ hab.2 hac.2]
  | apply f as, b, c, hab, hac => by
    cases b <;> simp only [same, Bool.false_eq_true, Bool.and_eq_true] at hab
    cases c <;> simp only [same, Bool.false_eq_true, Bool.and_eq_true] at hac
    simp [same, same_euclid heuclid f _ _ hab.1 hac.1, sameList_euclid heuclid as _ _ hab.2 hac.2]
  | pointer a, b, c, hab, hac | expansion a, b, c, hab, hac => by
    cases b <;> simp only [same, Bool.false_eq_true] at hab
    cases c <;> simp only [same, Bool.false_eq_true] at hac
    rw [same]
    exact same_euclid heuclid a _ _ hab hac
  | qualified _ a, b, c, hab, hac | reference _ a, b, c, hab, hac | offset a _, b, c, hab, hac => by
    cases b <;> simp only [same, Bool.false_eq_true, Bool.and_eq_true, beq_iff_eq] at hab
    cases c <;> simp only [same, Bool.false_eq_true, Bool.and_eq_true, beq_iff_eq] at hac
    simp [same, ← hab.1, hac.1, same_euclid heuclid a _ _ hab.2 hac.2]

theorem sameList_euclid {leaf' : String → String → Bool}
    (heuclid : ∀ l m n, leaf l m = true → leaf l n = true → leaf' m n = true) :
    ∀ as bs cs : List Term, sameList leaf as bs = true → sameList leaf as cs = true →
      sameList leaf' bs cs = true
  | [], bs, cs, hab, hac => by
    cases bs <;> simp only [sameList, Bool.false_eq_true] at hab
    cases cs <;> simp only [sameList, Bool.false_eq_true] at hac
    rfl
  | a :: as, bs, cs, hab, hac => by
    cases bs <;> simp only [sameList, Bool.false_eq_true, Bool.and_eq_true] at hab
    cases cs <;> simp only [sameList, Bool.false_eq_true, Bool.and_eq_true] at hac
    simp [sameList, same_euclid heuclid a _ _ hab.1 hac.1,
      sameList_euclid heuclid as _ _ hab.2 hac.2]

end

theorem sameList_symm (hrefl : ∀ n, leaf n n = true)
    (hsymm : ∀ m n, leaf m n = true → leaf n m = true)
    (htrans : ∀ l m n, leaf l m = true → leaf m n = true → leaf l n = true) {as bs : List Term}
    (h : sameList leaf as bs = true) : sameList leaf bs as = true := by
  have heuclid : ∀ l m n, leaf l m = true → leaf l n = true → leaf m n = true :=
    fun l m n hlm hln => htrans m l n (hsymm l m hlm) hln
  exact sameList_euclid heuclid as bs as h (sameList_refl hrefl as)

/-! ### The same shape -/

mutual

theorem occurrences_eq_of_same : ∀ a b : Term, same leaf a b = true → a.occurrences = b.occurrences
  | param _, b, h | placeholder _, b, h | type _, b, h | template _, b, h | value _ _, b, h => by
    cases b <;> simp only [same, Bool.false_eq_true, beq_iff_eq] at h
    all_goals simp_all [occurrences]
  | apply f as, b, h => by
    cases b <;> simp only [same, Bool.false_eq_true, Bool.and_eq_true] at h
    simp [occurrences, occurrences_eq_of_same f _ h.1, occurrencesList_eq_of_sameList as _ h.2]
  | pointer a, b, h | expansion a, b, h => by
    cases b <;> simp only [same, Bool.false_eq_true] at h
    simp [occurrences, occurrences_eq_of_same a _ h]
  | qualified _ a, b, h | reference _ a, b, h | offset a _, b, h => by
    cases b <;> simp only [same, Bool.false_eq_true, Bool.and_eq_true] at h
    simp [occurrences, occurrences_eq_of_same a _ h.2]

theorem occurrencesList_eq_of_sameList : ∀ as bs : List Term, sameList leaf as bs = true →
    occurrencesList as = occurrencesList bs
  | [], bs, h => by cases bs <;> simp_all [sameList]
  | a :: as, bs, h => by
    cases bs <;> simp only [sameList, Bool.false_eq_true, Bool.and_eq_true] at h
    simp [occurrencesList, occurrences_eq_of_same a _ h.1, occurrencesList_eq_of_sameList as _ h.2]

end

theorem isExpansion_eq_of_same {a b : Term} (h : same leaf a b = true) :
    a.isExpansion = b.isExpansion := by
  cases a <;> cases b <;> first | rfl | exact Bool.noConfusion h

theorem same_qualify {a b : Term} (h : same leaf a b = true) (quals : Qualifiers) :
    same leaf (a.qualify quals) (b.qualify quals) = true := by
  cases hquals : quals.isEmpty with
  | true => rwa [qualify_eq_self hquals, qualify_eq_self hquals]
  | false =>
    cases a <;> cases b <;> try exact Bool.noConfusion h
    case qualified q a r b =>
      rw [qualify_qualified hquals, qualify_qualified hquals]
      simp only [same, Bool.and_eq_true, beq_iff_eq] at h ⊢
      exact ⟨by rw [h.1], h.2⟩
    case reference k a l b => rwa [qualify_reference, qualify_reference]
    all_goals
      rw [qualify_eq_of_plain rfl rfl hquals, qualify_eq_of_plain rfl rfl hquals, same,
        beq_self_eq_true]
      exact h

/-- A reference to a term that is no reference itself. -/
theorem same_refer {a b : Term} (h : same leaf a b = true) (hb : b.isReference = false)
    (kind : RefKind) : same leaf (a.refer kind) (reference kind b) = true := by
  have hplain : same leaf (reference kind a) (reference kind b) = true := by
    rw [same, h, beq_self_eq_true]
    rfl
  cases a with
  | reference k x =>
    cases b with
    | reference l y => exact Bool.noConfusion hb
    | _ => exact Bool.noConfusion h
  | _ => exact hplain

/-- References to terms that are the same. -/
theorem same_refer_refer {a b : Term} (h : same leaf a b = true) (kind : RefKind) :
    same leaf (a.refer kind) (b.refer kind) = true := by
  cases hb : b.isReference with
  | false =>
    have hplain : b.refer kind = reference kind b := by
      cases b with
      | reference l y => exact Bool.noConfusion hb
      | _ => rfl
    rw [hplain]
    exact same_refer h hb kind
  | true =>
    cases b with
    | reference l y =>
      cases a <;> simp only [same, Bool.false_eq_true, Bool.and_eq_true, beq_iff_eq] at h
      obtain ⟨rfl, h⟩ := h
      simpa [refer, same] using h
    | _ => exact Bool.noConfusion hb

theorem isExpansion_expandedLike (t : Term) {element : Term} (h : element.isExpansion = false) :
    (t.expandedLike element).isExpansion = t.isExpansion := by
  rw [expandedLike]
  cases hexp : t.isExpansion with
  | true => rfl
  | false => exact h

/-- What is the same as an element in some shape, without the shape. -/
theorem same_expanded {a t element : Term} (h : same leaf a (t.expandedLike element) = true)
    (helement : element.isExpansion = false) : same leaf a.expanded element = true := by
  rw [expandedLike] at h
  split at h
  · cases a with
    | expansion inner => exact h
    | _ => exact Bool.noConfusion h
  · have hplain := (isExpansion_eq_of_same h).trans helement
    cases a with
    | expansion inner => exact Bool.noConfusion hplain
    | _ => exact h

theorem same_expandedLike {a b element : Term} (hshape : a.isExpansion = b.isExpansion)
    (h : same leaf element b.expanded = true) : same leaf (a.expandedLike element) b = true := by
  rw [expandedLike, hshape]
  cases b with
  | expansion inner => exact h
  | _ => exact h

theorem same_of_expanded {a t element : Term} (hshape : a.isExpansion = t.isExpansion)
    (h : same leaf a.expanded element = true) : same leaf a (t.expandedLike element) = true := by
  rw [expandedLike, ← hshape]
  cases a with
  | expansion inner => exact h
  | _ => exact h

/-- Terms that are the same repeat the same. -/
theorem same_expanded_of_same {a b : Term} (h : same leaf a b = true) :
    same leaf a.expanded b.expanded = true := by
  cases a <;> cases b <;> first | exact h | exact Bool.noConfusion h

theorem same_plus {a b : Term} (h : same leaf a b = true) (delta : Int) :
    same leaf (a.plus delta) (b.plus delta) = true := by
  cases a <;> cases b <;> try exact Bool.noConfusion h
  case value m s n t =>
    simp only [same, Bool.and_eq_true, beq_iff_eq] at h
    obtain ⟨rfl, hst⟩ := h
    rw [plus, plus]
    split <;> simp [same, hst]
  all_goals
    rw [plus, plus, same, beq_self_eq_true, Bool.true_and]
    · exact h
    all_goals exact fun _ _ he => Term.noConfusion he

theorem sameList_append {as bs as' bs' : List Term} (h : sameList leaf as bs = true)
    (h' : sameList leaf as' bs' = true) : sameList leaf (as ++ as') (bs ++ bs') = true := by
  induction as generalizing bs with
  | nil =>
    cases bs with
    | nil => exact h'
    | cons b bs => exact Bool.noConfusion h
  | cons a as ih =>
    cases bs with
    | nil => exact Bool.noConfusion h
    | cons b bs =>
      simp only [sameList, Bool.and_eq_true, List.cons_append] at h ⊢
      exact ⟨h.1, ih h.2⟩

end TemplateResolution.Term
