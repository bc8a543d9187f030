import TemplateResolution.Proofs.Term.Equality
import Mathlib.Data.List.Forall2

/-!
# Gaining qualifiers

In a call an argument may gain qualifiers on its way to a parameter, at the top or
deeper.  `gains` compares two terms up to that: the first is the second with some
qualifiers added, at any number of nodes.

A comparison that also tells whether anything was gained at all is `Related`.  It is
kept by everything that puts terms together, and by the two ways in which a pattern
takes qualifiers and references off its target.
-/

namespace TemplateResolution.Term

mutual

/-- Whether the first term is the second with qualifiers added at some nodes, where the names at
the leaves agree. -/
def gains (leaf : String → String → Bool) : Term → Term → Bool
  | qualified q a, qualified r b => q.includes r && gains leaf a b
  | qualified _ a, b => gains leaf a b
  | param a, param b => a == b
  | placeholder a, placeholder b => a == b
  | type a, type b => leaf a b
  | template a, template b => leaf a b
  | value m a, value n b => m == n && leaf a b
  | apply f as, apply g bs => gains leaf f g && gainsList leaf as bs
  | pointer a, pointer b => gains leaf a b
  | expansion a, expansion b => gains leaf a b
  | reference k a, reference l b => k == l && gains leaf a b
  | offset a m, offset b n => m == n && gains leaf a b
  | _, _ => false

def gainsList (leaf : String → String → Bool) : List Term → List Term → Bool
  | [], [] => true
  | a :: as, b :: bs => gains leaf a b && gainsList leaf as bs
  | _, _ => false

end

variable {leaf : String → String → Bool}

mutual

/-- Terms that are the same differ by no qualifier. -/
theorem gains_of_same : ∀ a b : Term, same leaf a b = true → gains leaf a b = true
  | param _, b, h | placeholder _, b, h | type _, b, h | template _, b, h | value _ _, b, h => by
    cases b <;> simp only [same, Bool.false_eq_true] at h
    exact h
  | apply f as, b, h => by
    cases b <;> simp only [same, Bool.false_eq_true, Bool.and_eq_true] at h
    simp [gains, gains_of_same f _ h.1, gainsList_of_sameList as _ h.2]
  | pointer a, b, h | expansion a, b, h => by
    cases b <;> simp only [same, Bool.false_eq_true] at h
    exact gains_of_same a _ h
  | reference _ a, b, h | offset a _, b, h => by
    cases b <;> simp only [same, Bool.false_eq_true, Bool.and_eq_true] at h
    simp [gains, h.1, gains_of_same a _ h.2]
  | qualified q a, b, h => by
    cases b <;> simp only [same, Bool.false_eq_true, Bool.and_eq_true, beq_iff_eq] at h
    obtain ⟨rfl, h⟩ := h
    simp [gains, Qualifiers.includes_refl, gains_of_same a _ h]

theorem gainsList_of_sameList : ∀ as bs : List Term, sameList leaf as bs = true →
    gainsList leaf as bs = true
  | [], bs, h => by cases bs <;> simp_all [sameList, gainsList]
  | a :: as, bs, h => by
    cases bs <;> simp only [sameList, Bool.false_eq_true, Bool.and_eq_true] at h
    simp [gainsList, gains_of_same a _ h.1, gainsList_of_sameList as _ h.2]

end

/-- Qualifiers that the second term lacks are all gained. -/
theorem gains_qualified {b : Term} (hb : b.isQualified = false) (quals : Qualifiers) (a : Term) :
    gains leaf (qualified quals a) b = gains leaf a b := by
  cases b with
  | qualified r b => exact Bool.noConfusion hb
  | _ => simp only [gains]

theorem isReference_of_gains {k : RefKind} {a b : Term}
    (h : gains leaf (reference k a) b = true) : b.isReference = true := by
  cases b with
  | reference l b => rfl
  | _ => exact Bool.noConfusion h

/-- A term that is compared with one that is no reference is none either. -/
theorem isReference_eq_false_of_gains {a b : Term} (h : gains leaf a b = true)
    (hb : b.isReference = false) : a.isReference = false := by
  cases a with
  | reference k a => exact absurd (isReference_of_gains h) (Bool.eq_false_iff.mp hb)
  | _ => rfl

/-- Without its own qualifiers at the top, a term still has all that the other one has. -/
theorem gains_unqualified {a b : Term} (h : gains leaf a b = true) (hb : b.isQualified = false) :
    gains leaf a.unqualified b = true := by
  cases a with
  | qualified q a => rwa [gains_qualified hb] at h
  | _ => exact h

/-- A pattern takes its qualifiers off the target and puts them on what it becomes. -/
theorem gains_qualify {a t : Term} (ht : t.isNormal = true) {quals : Qualifiers}
    (h : gains leaf a (t.withoutQuals quals) = true) : gains leaf (a.qualify quals) t = true := by
  cases hquals : quals.isEmpty with
  | true =>
    rw [Qualifiers.isEmpty_iff.mp hquals, withoutQuals_none ht] at h
    rwa [qualify_eq_self hquals]
  | false =>
    -- one more layer of qualifiers, or more qualifiers in the layer that is there
    have hadd : ∀ b : Term, gains leaf a b = true → b.isQualified = false →
        b.isReference = false → ∀ r, quals.includes r = true →
        gains leaf (a.qualify quals) (qualified r b) = true := by
      intro b hab hq hr r hincludes
      cases a with
      | reference k a => exact absurd (isReference_of_gains hab) (Bool.eq_false_iff.mp hr)
      | qualified s a =>
        rw [gains_qualified hq] at hab
        rw [qualify_qualified hquals, gains, hab, Bool.and_true]
        exact Qualifiers.includes_trans (Qualifiers.includes_union_right s quals) hincludes
      | _ => rw [qualify_eq_of_plain rfl rfl hquals, gains, hab, hincludes]; rfl
    cases t with
    | qualified r b =>
      obtain ⟨-, hq, hr, -⟩ := isNormal_qualified.mp ht
      change gains leaf a (b.qualify (r.without quals)) = true at h
      cases hleft : (r.without quals).isEmpty with
      | true =>
        rw [qualify_eq_self hleft] at h
        exact hadd b h hq hr r (Qualifiers.includes_of_without hleft)
      | false =>
        rw [qualify_eq_of_plain hq hr hleft] at h
        cases a with
        | qualified s a =>
          rw [gains, Bool.and_eq_true] at h
          rw [qualify_qualified hquals, gains, h.2, Bool.and_true]
          exact Qualifiers.includes_of_includes_without h.1
        | _ => exact Bool.noConfusion h
    | _ =>
      have hplain : gains leaf a _ = true := h
      cases a with
      | qualified s a =>
        rw [qualify_qualified hquals, gains_qualified rfl]
        rwa [withoutQuals, gains_qualified rfl] at h
      | reference k a =>
        rw [qualify_reference]
        exact h
      | _ =>
        rw [qualify_eq_of_plain rfl rfl hquals, gains_qualified rfl]
        exact h

/-! ### Gains that are noticed -/

/-- The first term is the second with qualifiers added, and only if `converted` holds they are not
the same. -/
structure Related (leaf : String → String → Bool) (converted : Prop) (a b : Term) : Prop where
  gains : a.gains leaf b = true
  same : a.same leaf b = true ∨ converted

namespace Related

variable {converted converted' : Prop} {a b t : Term}

theorem of_same (h : a.same leaf b = true) : Related leaf converted a b :=
  ⟨gains_of_same a b h, .inl h⟩

theorem mono (h : Related leaf converted a b) (himp : converted → converted') :
    Related leaf converted' a b :=
  ⟨h.gains, h.same.imp_right himp⟩

theorem pointer (h : Related leaf converted a b) :
    Related leaf converted (.pointer a) (.pointer b) :=
  ⟨h.gains, h.same⟩

theorem refer (h : Related leaf converted a b) (hb : b.isReference = false) (kind : RefKind) :
    Related leaf converted (a.refer kind) (.reference kind b) := by
  have ha := isReference_eq_false_of_gains h.gains hb
  have hrefer : a.refer kind = .reference kind a := by
    cases a with
    | reference k a => exact Bool.noConfusion ha
    | _ => rfl
  refine ⟨?_, h.same.imp_left fun hsame => same_refer hsame hb kind⟩
  rw [hrefer, Term.gains, h.gains, beq_self_eq_true]
  rfl

/-- The qualifiers of a pattern are put back, and some of them may be new. -/
theorem qualify (ht : t.isNormal = true) {quals : Qualifiers}
    (h : Related leaf converted a (t.withoutQuals quals))
    (hquals : t.quals.includes quals = true ∨ converted) :
    Related leaf converted (a.qualify quals) t := by
  refine ⟨gains_qualify ht h.gains, ?_⟩
  rcases hquals with hquals | hconverted
  · refine h.same.imp_left fun hsame => ?_
    rw [← qualify_withoutQuals ht hquals]
    exact same_qualify hsame quals
  · exact .inr hconverted

/-- Qualifiers at the top of the first term alone do not matter. -/
theorem unqualified (h : Related leaf converted a b) (hb : b.isQualified = false) :
    Related leaf converted a.unqualified b := by
  refine ⟨gains_unqualified h.gains hb, h.same.imp_left fun hsame => ?_⟩
  cases a with
  | qualified q a =>
    cases b with
    | qualified r b => exact Bool.noConfusion hb
    | _ => exact Bool.noConfusion hsame
  | _ => exact hsame

theorem expandedLike (hshape : a.isExpansion = b.isExpansion)
    (h : Related leaf converted t b.expanded) :
    Related leaf converted (a.expandedLike t) b := by
  refine ⟨?_, h.same.imp_left fun hsame => same_expandedLike hshape hsame⟩
  rw [Term.expandedLike, hshape]
  cases b with
  | expansion inner => exact h.gains
  | _ => exact h.gains

/-- Two lists that are related term by term. -/
theorem apply {f g : Term} {as bs : List Term} (hhead : Related leaf converted f g)
    (hargs : List.Forall₂ (Related leaf converted) as bs) :
    Related leaf converted (.apply f as) (.apply g bs) := by
  have hlists : gainsList leaf as bs = true ∧ (sameList leaf as bs = true ∨ converted) := by
    induction hargs with
    | nil => exact ⟨rfl, .inl rfl⟩
    | cons hab _ ih =>
      obtain ⟨hgains, hsame⟩ := ih
      refine ⟨by rw [gainsList, hab.gains, hgains]; rfl, ?_⟩
      rcases hab.same with hab | hconverted
      · exact hsame.imp_left fun hsame => (Bool.and_eq_true _ _).mpr ⟨hab, hsame⟩
      · exact .inr hconverted
  refine ⟨by rw [Term.gains, hhead.gains, hlists.1]; rfl, ?_⟩
  rcases hhead.same with hhead | hconverted
  · exact hlists.2.imp_left fun hsame => (Bool.and_eq_true _ _).mpr ⟨hhead, hsame⟩
  · exact .inr hconverted

end Related

end TemplateResolution.Term
