import TemplateResolution.Term.Decoration
import TemplateResolution.Term.Parameters

/-!
# Normal terms

A term is normal when its decorations are as `qualify` and `refer` build them: no
layer of qualifiers is empty or sits on another one or on a reference, and no
reference refers to a reference.  What the matcher takes apart stays normal, and
so do the two halves into which it splits the qualifiers of a target.

Decorating a term in any way leaves the parameters that it mentions.
-/

namespace TemplateResolution.Term

def isQualified : Term → Bool
  | qualified _ _ => true
  | _ => false

def isReference : Term → Bool
  | reference _ _ => true
  | _ => false

mutual

/-- Whether qualifiers and references are in normal form, at every depth. -/
def isNormal : Term → Bool
  | qualified quals inner =>
    !quals.isEmpty && !inner.isQualified && !inner.isReference && isNormal inner
  | reference _ inner => !inner.isReference && isNormal inner
  | apply head args => isNormal head && isNormalList args
  | pointer inner | expansion inner => isNormal inner
  | offset base _ => isNormal base
  | param _ | placeholder _ | type _ | value _ _ | template _ => true

def isNormalList : List Term → Bool
  | [] => true
  | t :: ts => isNormal t && isNormalList ts

end

theorem isNormalList_iff {ts : List Term} :
    isNormalList ts = true ↔ ∀ t ∈ ts, t.isNormal = true := by
  induction ts with
  | nil => simp [isNormalList]
  | cons t ts ih => simp [isNormalList, ih]

theorem isNormal_qualified {quals : Qualifiers} {inner : Term} :
    (qualified quals inner).isNormal = true ↔
      quals.isEmpty = false ∧ inner.isQualified = false ∧ inner.isReference = false ∧
        inner.isNormal = true := by
  simp only [isNormal, Bool.and_eq_true, Bool.not_eq_true', and_assoc]

theorem isNormal_reference {kind : RefKind} {inner : Term} :
    (reference kind inner).isNormal = true ↔
      inner.isReference = false ∧ inner.isNormal = true := by
  simp only [isNormal, Bool.and_eq_true, Bool.not_eq_true']

theorem isNormal_apply {head : Term} {args : List Term} :
    (apply head args).isNormal = true ↔
      head.isNormal = true ∧ ∀ t ∈ args, t.isNormal = true := by
  rw [isNormal, Bool.and_eq_true, isNormalList_iff]

theorem isNormal_unqualified {t : Term} (h : t.isNormal = true) :
    t.unqualified.isNormal = true := by
  cases t with
  | qualified quals inner => exact (isNormal_qualified.mp h).2.2.2
  | _ => exact h

theorem isNormal_expanded {t : Term} (h : t.isNormal = true) : t.expanded.isNormal = true := by
  cases t <;> exact h

theorem expanded_eq_self {t : Term} (h : t.isExpansion = false) : t.expanded = t := by
  cases t with
  | expansion inner => exact Bool.noConfusion h
  | _ => rfl

theorem expanded_expandedLike (t : Term) {element : Term} (h : element.isExpansion = false) :
    (t.expandedLike element).expanded = element := by
  rw [expandedLike]
  split
  · rfl
  · exact expanded_eq_self h

/-- Qualifiers on a term that has none and is no reference. -/
theorem qualify_eq_of_plain {t : Term} (hq : t.isQualified = false) (hr : t.isReference = false)
    {quals : Qualifiers} (hquals : quals.isEmpty = false) :
    t.qualify quals = qualified quals t := by
  unfold qualify
  rw [hquals, if_neg Bool.false_ne_true]
  cases t with
  | qualified q inner => exact Bool.noConfusion hq
  | reference kind inner => exact Bool.noConfusion hr
  | _ => rfl

theorem qualify_eq_self {quals : Qualifiers} (hquals : quals.isEmpty = true) (t : Term) :
    t.qualify quals = t := by
  rw [Qualifiers.isEmpty_iff.mp hquals, qualify_none]

theorem qualify_qualified {quals : Qualifiers} (hquals : quals.isEmpty = false)
    (existing : Qualifiers) (inner : Term) :
    (qualified existing inner).qualify quals = qualified (existing.union quals) inner := by
  unfold qualify
  rw [hquals, if_neg Bool.false_ne_true]

theorem isNormal_qualify {t : Term} (h : t.isNormal = true) (quals : Qualifiers) :
    (t.qualify quals).isNormal = true := by
  cases hquals : quals.isEmpty with
  | true => rwa [qualify_eq_self hquals]
  | false =>
    cases t with
    | qualified existing inner =>
      rw [qualify_qualified hquals]
      refine isNormal_qualified.mpr ⟨?_, (isNormal_qualified.mp h).2⟩
      rw [Qualifiers.isEmpty_union, hquals, Bool.and_false]
    | reference kind inner => rwa [qualify_reference]
    | _ =>
      rw [qualify_eq_of_plain rfl rfl hquals]
      exact isNormal_qualified.mpr ⟨hquals, rfl, rfl, h⟩

/-- Qualifiers added one after the other are added together. -/
theorem qualify_qualify (t : Term) (q r : Qualifiers) :
    (t.qualify q).qualify r = t.qualify (q.union r) := by
  cases hq : q.isEmpty with
  | true => rw [qualify_eq_self hq, Qualifiers.isEmpty_iff.mp hq, Qualifiers.none_union]
  | false =>
    have hne : (q.union r).isEmpty = false := by
      rw [Qualifiers.isEmpty_union, hq, Bool.false_and]
    cases hr : r.isEmpty with
    | true => rw [qualify_eq_self hr, Qualifiers.isEmpty_iff.mp hr, Qualifiers.union_none]
    | false =>
      cases t with
      | qualified existing inner =>
        rw [qualify_qualified hq, qualify_qualified hr, qualify_qualified hne,
          Qualifiers.union_assoc]
      | reference kind inner => rw [qualify_reference, qualify_reference, qualify_reference]
      | _ => rw [qualify_eq_of_plain rfl rfl hq, qualify_qualified hr,
          qualify_eq_of_plain rfl rfl hne]

/-- A normal term is put together again from its two parts. -/
theorem qualify_quals {t : Term} (h : t.isNormal = true) : t.unqualified.qualify t.quals = t := by
  cases t with
  | qualified quals inner =>
    obtain ⟨hquals, hq, hr, -⟩ := isNormal_qualified.mp h
    exact qualify_eq_of_plain hq hr hquals
  | _ => rfl

/-! ### The target of a qualified pattern -/

/-- What is left of a target when some of its qualifiers are taken away. -/
def withoutQuals (t : Term) (quals : Qualifiers) : Term :=
  t.unqualified.qualify (t.quals.without quals)

theorem isNormal_withoutQuals {t : Term} (h : t.isNormal = true) (quals : Qualifiers) :
    (t.withoutQuals quals).isNormal = true :=
  isNormal_qualify (isNormal_unqualified h) _

/-- The qualifiers that were taken away, put back. -/
theorem qualify_withoutQuals {t : Term} (h : t.isNormal = true) {quals : Qualifiers}
    (hquals : t.quals.includes quals = true) : (t.withoutQuals quals).qualify quals = t := by
  rw [withoutQuals, qualify_qualify, Qualifiers.union_comm, Qualifiers.union_without hquals,
    qualify_quals h]

theorem withoutQuals_none {t : Term} (h : t.isNormal = true) : t.withoutQuals .none = t := by
  rw [withoutQuals, Qualifiers.without_none, qualify_quals h]

/-- A normal term has no qualifiers under those at its top. -/
theorem splitQualifiers_withoutQuals {t : Term} (h : t.isNormal = true) (quals : Qualifiers) :
    (t.withoutQuals quals).quals = t.quals.without quals ∧
      (t.withoutQuals quals).unqualified = t.unqualified := by
  cases t with
  | qualified existing inner =>
    obtain ⟨-, hq, hr, -⟩ := isNormal_qualified.mp h
    change (inner.qualify (existing.without quals)).quals = existing.without quals ∧
      (inner.qualify (existing.without quals)).unqualified = inner
    cases hleft : (existing.without quals).isEmpty with
    | true =>
      rw [qualify_eq_self hleft, Qualifiers.isEmpty_iff.mp hleft]
      cases inner with
      | qualified q inner => exact Bool.noConfusion hq
      | _ => exact ⟨rfl, rfl⟩
    | false =>
      rw [qualify_eq_of_plain hq hr hleft]
      exact ⟨rfl, rfl⟩
  | _ => exact ⟨rfl, rfl⟩

/-- Qualifiers taken away one after the other are taken away together. -/
theorem withoutQuals_withoutQuals {t : Term} (h : t.isNormal = true) (q r : Qualifiers) :
    (t.withoutQuals q).withoutQuals r = t.withoutQuals (q.union r) := by
  obtain ⟨hquals, hunqualified⟩ := splitQualifiers_withoutQuals h q
  rw [withoutQuals, hquals, hunqualified, Qualifiers.without_without, ← withoutQuals]

/-- What has qualifiers is no reference, with or without them. -/
theorem isReference_withoutQuals {t : Term} (h : t.isNormal = true) {quals : Qualifiers}
    (hquals : quals.isEmpty = false) (hincludes : t.quals.includes quals = true) :
    (t.withoutQuals quals).isReference = false := by
  cases t with
  | qualified existing inner =>
    obtain ⟨-, -, hr, -⟩ := isNormal_qualified.mp h
    change (inner.qualify (existing.without quals)).isReference = false
    cases hleft : (existing.without quals).isEmpty with
    | true => rwa [qualify_eq_self hleft]
    | false =>
      cases inner with
      | qualified q inner => rw [qualify_qualified hleft]; rfl
      | reference kind inner => exact Bool.noConfusion hr
      | _ => rw [qualify_eq_of_plain rfl rfl hleft]; rfl
  | _ =>
    rw [Qualifiers.eq_none_of_includes hincludes] at hquals
    exact Bool.noConfusion hquals

theorem isNormal_refer {t : Term} (h : t.isNormal = true) (kind : RefKind) :
    (t.refer kind).isNormal = true := by
  cases t with
  | reference k inner => exact h
  | _ => exact isNormal_reference.mpr ⟨rfl, h⟩

theorem isNormal_plus {t : Term} (h : t.isNormal = true) (delta : Int) :
    (t.plus delta).isNormal = true := by
  cases t with
  | value number ty =>
    rw [plus]
    split <;> rfl
  | _ => exact h

/-! ### Under the decorations at the top -/

theorem isNormal_referee {t : Term} (h : t.isNormal = true) : t.referee.isNormal = true := by
  cases t with
  | reference kind inner => exact (isNormal_reference.mp h).2
  | _ => exact h

theorem isReference_referee {t : Term} (h : t.isNormal = true) : t.referee.isReference = false := by
  cases t with
  | reference kind inner => exact (isNormal_reference.mp h).1
  | _ => rfl

theorem isQualified_unqualified {t : Term} (h : t.isNormal = true) :
    t.unqualified.isQualified = false := by
  cases t with
  | qualified quals inner => exact (isNormal_qualified.mp h).2.1
  | _ => rfl

theorem referee_refer {t : Term} (h : t.isReference = false) (kind : RefKind) :
    (t.refer kind).referee = t := by
  cases t with
  | reference k inner => exact Bool.noConfusion h
  | _ => rfl

theorem unqualified_qualify (t : Term) (quals : Qualifiers) :
    (t.qualify quals).unqualified = t.unqualified := by
  cases hquals : quals.isEmpty with
  | true => rw [qualify_eq_self hquals]
  | false =>
    cases t with
    | qualified existing inner => rw [qualify_qualified hquals]; rfl
    | reference kind inner => rw [qualify_reference]
    | _ => rw [qualify_eq_of_plain rfl rfl hquals]; rfl

/-! ### Parameters under decorations -/

@[simp] theorem occurrences_qualify (t : Term) (quals : Qualifiers) :
    (t.qualify quals).occurrences = t.occurrences := by
  unfold qualify
  split
  · rfl
  · split <;> rfl

@[simp] theorem occurrences_refer (t : Term) (kind : RefKind) :
    (t.refer kind).occurrences = t.occurrences := by
  cases t <;> rfl

@[simp] theorem occurrences_plus (t : Term) (delta : Int) :
    (t.plus delta).occurrences = t.occurrences := by
  unfold plus
  split
  · split <;> rfl
  · rfl

@[simp] theorem occurrences_unqualified (t : Term) : t.unqualified.occurrences = t.occurrences := by
  cases t <;> rfl

@[simp] theorem occurrences_referee (t : Term) : t.referee.occurrences = t.occurrences := by
  cases t <;> rfl

@[simp] theorem occurrences_expandedLike (t element : Term) :
    (t.expandedLike element).occurrences = element.occurrences := by
  rw [expandedLike]
  split <;> rfl

@[simp] theorem occurrences_expanded (t : Term) : t.expanded.occurrences = t.occurrences := by
  cases t <;> rfl

end TemplateResolution.Term
