import TemplateResolution.Proofs.Placeholder.Thaw
import TemplateResolution.TypeModel.Basic
import Mathlib.Data.List.Forall2

/-!
# Terms that fit

A term with placeholders describes the terms that come out of it when the
placeholders are replaced.  `s.Fits leaf w t` says that `t` is one of them, with `w`
for what the placeholders stand for.  It follows the shape of `s`, as a match does:
qualifiers that `s` has must be among those of `t`, and whatever else `t` has there
belongs to what is inside; an expansion stands for one term for each element of its
pack.

What fits is the same as the realized term (`same_of_fits`), and a parameter that
takes the term with placeholders takes every term that fits (`accepts_of_fits`).
-/

namespace TemplateResolution

/-- Whether the term can be an argument of the kind, whatever the type of a constant is. -/
def ParamKind.admits : ParamKind → Term → Bool
  | .type, t => t.isTypeLike
  | .value, .value _ _ => true
  | .value, .offset _ _ => true
  | .value, .placeholder token => token.kind = .value
  | .nested, .template _ => true
  | .nested, .placeholder token => token.kind = .nested
  | .value, _ => false
  | .nested, _ => false

namespace TypeModel

/-- Whether a constant has the type that the parameter declares. -/
def typeAgrees (m : TypeModel) (p : Parameter) (t : Term) : Bool :=
  match m.argumentKind p, t with
  | .value, .value _ type => p.valueType.all fun declared => m.sameLeaf declared type
  | _, _ => true

variable {model : TypeModel} {q : Parameter} {t : Term}

/-- A parameter takes what is of its kind and, if it is a constant, of its type. -/
theorem accepts_eq (model : TypeModel) (q : Parameter) (t : Term) :
    model.accepts q t = ((model.argumentKind q).admits t && model.typeAgrees q t) := by
  unfold accepts typeAgrees
  cases model.argumentKind q <;> cases t <;> simp [ParamKind.admits]

theorem admits_of_accepts (h : model.accepts q t = true) :
    (model.argumentKind q).admits t = true := by
  rw [accepts_eq] at h
  exact ((Bool.and_eq_true _ _).mp h).1

/-- Without a declared type, the kind is all that matters. -/
theorem accepts_of_admits (htype : model.argumentKind q = .value → q.valueType = none)
    (h : (model.argumentKind q).admits t = true) : model.accepts q t = true := by
  rw [accepts_eq, h, Bool.true_and]
  unfold typeAgrees
  cases hkind : model.argumentKind q with
  | value =>
    rw [htype hkind]
    cases t <;> rfl
  | _ => rfl

end TypeModel

namespace Term

mutual

/-- The term `t` comes out of `s` when placeholders stand for what `w` binds to their numbers. -/
def Fits (leaf : String → String → Bool) : Term → Substitution → Term → Prop
  | placeholder token, w, t =>
    token.kind.admits t = true ∧ ∃ u, w.get? token.id = some (.single u) ∧ u.same leaf t = true
  | apply head args, w, t =>
    ∃ head' args', t = apply head' args' ∧ Fits leaf head w head' ∧ FitsList leaf args w args'
  | pointer s, w, t => ∃ t', t = pointer t' ∧ Fits leaf s w t'
  | reference kind s, w, t => ∃ t', t = reference kind t' ∧ Fits leaf s w t'
  | qualified quals s, w, t =>
    t.quals.includes quals = true ∧ Fits leaf s w (t.withoutQuals quals)
  | offset base delta, w, t => ((offset base delta).realize w).same leaf t = true
  | type name, _, t => (type name).same leaf t = true
  | value number ty, _, t => (value number ty).same leaf t = true
  | template name, _, t => (template name).same leaf t = true
  | param _, _, _ | expansion _, _, _ => False

/-- The same for lists, in which an expansion stands for one term for each element of its pack. -/
def FitsList (leaf : String → String → Bool) : List Term → Substitution → List Term → Prop
  | [], _, ts => ts = []
  | expansion s :: ss, w, ts =>
    ∃ pack es block rest, ts = block ++ rest ∧ w.boundPack s.thaw = some (pack, es) ∧
      List.Forall₂ (fun e t => e.isExpansion = t.isExpansion ∧
        Fits leaf s (w.atElement pack e) t.expanded) es block ∧ FitsList leaf ss w rest
  | s :: ss, w, ts => ∃ t rest, ts = t :: rest ∧ Fits leaf s w t ∧ FitsList leaf ss w rest

end

variable {leaf : String → String → Bool} {w : Substitution} {s t : Term}

theorem fitsList_cons (hs : s.isExpansion = false) {ss ts : List Term} :
    FitsList leaf (s :: ss) w ts ↔
      ∃ t rest, ts = t :: rest ∧ s.Fits leaf w t ∧ FitsList leaf ss w rest := by
  cases s with
  | expansion inner => exact Bool.noConfusion hs
  | _ => rw [FitsList]; exact fun _ he => Term.noConfusion he

/-! ### Shapes of terms that fit -/

theorem isTypeLike_of_quals (h : t.quals.isEmpty = false) : t.isTypeLike = true := by
  cases t with
  | qualified quals inner => rfl
  | _ => exact Bool.noConfusion h

theorem isEmpty_of_includes {q r : Qualifiers} (h : q.includes r = true)
    (hr : r.isEmpty = false) : q.isEmpty = false := by
  revert q r
  rintro ⟨_ | _, _ | _⟩ ⟨_ | _, _ | _⟩ <;> decide

theorem admits_plus (t : Term) (delta : Int) : ParamKind.value.admits (t.plus delta) = true := by
  cases t with
  | value number ty =>
    rw [plus]
    split <;> rfl
  | _ => rfl

/-- An offset is a constant, whatever it is of. -/
theorem eq_value_of_admits_plus {kind : ParamKind} {t : Term} {delta : Int}
    (h : kind.admits (t.plus delta) = true) : kind = .value := by
  cases kind with
  | value => rfl
  | _ =>
    cases t with
    | value number ty =>
      rw [plus] at h
      split at h <;> exact Bool.noConfusion h
    | _ => exact Bool.noConfusion h

theorem eq_of_admits_placeholder {kind : ParamKind} {token : Placeholder}
    (h : kind.admits (placeholder token) = true) : kind = token.kind := by
  cases kind <;> exact (of_decide_eq_true h).symm

theorem admits_eq_of_same {t u : Term} (h : t.same leaf u = true) (kind : ParamKind) :
    kind.admits t = kind.admits u := by
  cases t <;> cases u <;> simp only [same, Bool.false_eq_true, beq_iff_eq] at h
  all_goals first
    | rw [h]
    | (cases kind <;> rfl)

theorem isExpansion_of_admits {kind : ParamKind} (h : kind.admits t = true) :
    t.isExpansion = false := by
  cases t with
  | expansion inner => cases kind <;> exact Bool.noConfusion h
  | _ => rfl

theorem isExpansion_plus (t : Term) (delta : Int) : (t.plus delta).isExpansion = false :=
  isExpansion_of_admits (admits_plus t delta)

/-- What fits is an argument of every kind of which the term with placeholders is one. -/
theorem admits_of_fits (hs : s.isNormal = true) (h : s.Fits leaf w t) {kind : ParamKind}
    (hkind : kind.admits s = true) : kind.admits t = true := by
  cases s with
  | param id => exact h.elim
  | expansion inner => exact h.elim
  | placeholder token =>
    rw [eq_of_admits_placeholder hkind]
    exact h.1
  | type name => rwa [admits_eq_of_same h] at hkind
  | value number ty => rwa [admits_eq_of_same h] at hkind
  | template name => rwa [admits_eq_of_same h] at hkind
  | apply head args =>
    obtain ⟨head', args', rfl, -, -⟩ := h
    cases kind <;> exact hkind
  | pointer inner =>
    obtain ⟨t', rfl, -⟩ := h
    cases kind <;> exact hkind
  | reference k inner =>
    obtain ⟨t', rfl, -⟩ := h
    cases kind <;> exact hkind
  | qualified quals inner =>
    cases kind with
    | type =>
      have hquals := (isNormal_qualified.mp hs).1
      exact isTypeLike_of_quals (isEmpty_of_includes h.1 hquals)
    | _ => exact Bool.noConfusion hkind
  | offset base delta =>
    cases kind with
    | value =>
      rw [← admits_eq_of_same (show ((base.realize w).plus delta).same leaf t = true from h)]
      exact admits_plus _ delta
    | _ => exact Bool.noConfusion hkind

theorem isExpansion_of_fits (hs : s.isNormal = true) (h : s.Fits leaf w t) :
    t.isExpansion = false := by
  cases s with
  | param id => exact h.elim
  | expansion inner => exact h.elim
  | placeholder token => exact isExpansion_of_admits h.1
  | type name => exact (isExpansion_eq_of_same h).symm
  | value number ty => exact (isExpansion_eq_of_same h).symm
  | template name => exact (isExpansion_eq_of_same h).symm
  | apply head args =>
    obtain ⟨head', args', rfl, -, -⟩ := h
    rfl
  | pointer inner =>
    obtain ⟨t', rfl, -⟩ := h
    rfl
  | reference k inner =>
    obtain ⟨t', rfl, -⟩ := h
    rfl
  | qualified quals inner =>
    have htype : ParamKind.type.admits (qualified quals inner) = true := rfl
    exact isExpansion_of_admits (admits_of_fits hs h htype)
  | offset base delta =>
    have hsame : ((base.realize w).plus delta).same leaf t = true := h
    rw [← isExpansion_eq_of_same hsame, isExpansion_plus]

/-- A parameter that takes a term with placeholders takes what fits it. -/
theorem accepts_of_fits {model : TypeModel} {q : Parameter}
    (htype : model.argumentKind q = .value → q.valueType = none) (hs : s.isNormal = true)
    (h : s.Fits leaf w t) (haccepts : model.accepts q s = true) : model.accepts q t = true :=
  model.accepts_of_admits htype (admits_of_fits hs h (model.admits_of_accepts haccepts))

/-! ### Decorations -/

/-- Qualifiers put on the term with placeholders are taken from what fits. -/
theorem fits_qualify (ht : t.isNormal = true) {quals : Qualifiers}
    (hquals : t.quals.includes quals = true) (h : s.Fits leaf w (t.withoutQuals quals)) :
    (s.qualify quals).Fits leaf w t := by
  cases hempty : quals.isEmpty with
  | true =>
    rw [Qualifiers.isEmpty_iff.mp hempty, withoutQuals_none ht] at h
    rwa [qualify_eq_self hempty]
  | false =>
    cases s with
    | qualified existing inner =>
      obtain ⟨hincludes, hinner⟩ := h
      rw [(splitQualifiers_withoutQuals ht quals).1] at hincludes
      rw [withoutQuals_withoutQuals ht, Qualifiers.union_comm] at hinner
      rw [qualify_qualified hempty]
      exact ⟨Qualifiers.includes_union hquals hincludes, hinner⟩
    | reference kind inner =>
      obtain ⟨t', heq, -⟩ := h
      have hnot := isReference_withoutQuals ht hempty hquals
      rw [heq] at hnot
      exact Bool.noConfusion hnot
    | param id => exact h.elim
    | expansion inner => exact h.elim
    | _ =>
      rw [qualify_eq_of_plain rfl rfl hempty]
      exact ⟨hquals, h⟩

/-- Qualifiers of the term with placeholders are taken from it and from what fits alike. -/
theorem fits_withoutQuals (hs : s.isNormal = true) (ht : t.isNormal = true) (h : s.Fits leaf w t)
    {quals : Qualifiers} (hquals : s.quals.includes quals = true) :
    t.quals.includes quals = true ∧ (s.withoutQuals quals).Fits leaf w (t.withoutQuals quals) := by
  cases s with
  | qualified existing inner =>
    obtain ⟨hincludes, hinner⟩ := h
    have hexisting : existing.includes quals = true := hquals
    have htquals := Qualifiers.includes_trans hincludes hexisting
    refine ⟨htquals, ?_⟩
    change (inner.qualify (existing.without quals)).Fits leaf w (t.withoutQuals quals)
    refine fits_qualify (isNormal_withoutQuals ht quals) ?_ ?_
    · rw [(splitQualifiers_withoutQuals ht quals).1]
      exact Qualifiers.includes_without hincludes
    · rwa [withoutQuals_withoutQuals ht, Qualifiers.union_without hexisting]
  | _ =>
    obtain rfl := Qualifiers.eq_none_of_includes hquals
    rw [withoutQuals_none hs, withoutQuals_none ht]
    refine ⟨?_, h⟩
    rcases t.quals with ⟨_ | _, _ | _⟩ <;> rfl

theorem fits_refer (ht : t.isReference = false) (h : s.Fits leaf w t) (kind : RefKind) :
    (s.refer kind).Fits leaf w (reference kind t) := by
  cases s with
  | reference k inner =>
    obtain ⟨t', rfl, -⟩ := h
    exact Bool.noConfusion ht
  | _ => exact ⟨t, rfl, h⟩

theorem fits_plus {delta : Int} (h : ((s.plus delta).realize w).same leaf t = true) :
    (s.plus delta).Fits leaf w t := by
  cases s with
  | value number ty =>
    rw [plus] at h ⊢
    split at h
    · rename_i hfits
      rw [if_pos hfits]
      exact h
    · rename_i hfits
      rw [if_neg hfits]
      exact h
  | _ => exact h

/-! ### What fits is the realized term -/

mutual

/-- **What fits is the same as the realized term.** -/
theorem same_of_fits : ∀ (s t : Term) (w : Substitution), t.isNormal = true → s.Fits leaf w t →
    (s.realize w).same leaf t = true
  | placeholder token, t, w, _, h => by
    obtain ⟨u, hu, hsame⟩ := h.2
    rwa [realize, thaw, subst, Substitution.apply, Substitution.atParam, hu]
  | type _, _, _, _, h | value _ _, _, _, _, h | template _, _, _, _, h
  | offset _ _, _, _, _, h => h
  | param _, _, _, _, h | expansion _, _, _, _, h => h.elim
  | apply head args, t, w, ht, h => by
    obtain ⟨head', args', rfl, hhead, hargs⟩ := h
    obtain ⟨htHead, htArgs⟩ := (Bool.and_eq_true _ _).mp ht
    have hargs' := sameList_of_fits args args' w htArgs hargs
    refine (Bool.and_eq_true _ _).mpr ⟨same_of_fits head head' w htHead hhead, ?_⟩
    rw [thawList_eq_map]
    exact hargs'
  | pointer s, t, w, ht, h => by
    obtain ⟨t', rfl, h⟩ := h
    exact same_of_fits s t' w ht h
  | reference kind s, t, w, ht, h => by
    obtain ⟨t', rfl, h⟩ := h
    obtain ⟨hr, ht'⟩ := isNormal_reference.mp ht
    exact same_refer (same_of_fits s t' w ht' h) hr kind
  | qualified quals s, t, w, ht, h => by
    have hinner := same_of_fits s _ w (isNormal_withoutQuals ht quals) h.2
    have hqualify := same_qualify hinner quals
    rwa [qualify_withoutQuals ht h.1] at hqualify

theorem sameList_of_fits : ∀ (ss ts : List Term) (w : Substitution), isNormalList ts = true →
    FitsList leaf ss w ts → sameList leaf (substList w (ss.map thaw)) ts = true
  | [], ts, w, _, h => by
    obtain rfl : ts = [] := h
    rfl
  | s :: ss, ts, w, hts, h => by
    by_cases hexp : s.isExpansion = true
    · obtain ⟨inner, rfl⟩ := exists_of_isExpansion hexp
      obtain ⟨pack, es, block, rest, rfl, hpack, hblock, hrest⟩ := h
      have hts' := isNormalList_iff.mp hts
      have htail := sameList_of_fits ss rest w
        (isNormalList_iff.mpr fun t ht => hts' t (List.mem_append_right _ ht)) hrest
      have hnormal : ∀ t ∈ block, t.expanded.isNormal = true :=
        fun t ht => isNormal_expanded (hts' t (List.mem_append_left _ ht))
      have hhead : sameList leaf
          (es.map fun e => e.expandedLike (inner.realize (w.atElement pack e))) block = true := by
        clear hts hts' hpack
        induction hblock with
        | nil => rfl
        | @cons e t es block het _ ih =>
          have hfirst := same_of_fits inner t.expanded (w.atElement pack e)
            (hnormal t List.mem_cons_self) het.2
          refine (Bool.and_eq_true _ _).mpr ⟨same_expandedLike het.1 hfirst, ?_⟩
          exact ih fun u hu => hnormal u (List.mem_cons_of_mem _ hu)
      rw [List.map_cons, thaw, substList, Substitution.applyList, hpack]
      exact sameList_append hhead htail
    · rw [Bool.not_eq_true] at hexp
      obtain ⟨t, rest, rfl, ht, hrest⟩ := (fitsList_cons hexp).mp h
      obtain ⟨htnormal, hrestnormal⟩ := (Bool.and_eq_true _ _).mp hts
      have hthaw : s.thaw.isExpansion = false := by rwa [isExpansion_thaw]
      rw [List.map_cons, substList, Substitution.applyList_cons hthaw]
      exact (Bool.and_eq_true _ _).mpr ⟨same_of_fits s t w htnormal ht,
        sameList_of_fits ss rest w hrestnormal hrest⟩

end

end Term

end TemplateResolution
