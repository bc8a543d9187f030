import TemplateResolution.Proofs.Term.Normal

/-!
# Reduced terms

A term is reduced when its decorations are in normal form and no offset of a constant in
it could be computed.  What `qualify`, `refer` and `plus` make of reduced terms is reduced,
and so are the parts into which a match takes a target.

Erasing takes off every qualifier and every reference (`isBare_erase`) and computes the
offsets whose bases turn out to be constants (`isFolded_erase`).  Its fixed points are the
terms on which nothing of either kind is left to do (`erase_eq_self_iff`).
-/

namespace TemplateResolution.Term

/-- Whether the constant at distance `delta` from `base` can be computed. -/
def foldsBy (base : Term) (delta : Int) : Bool :=
  match base with
  | value number _ => decide (FitsConstant (number + delta))
  | _ => false

mutual

/-- Whether every offset of a constant leaves the range of constants, at every depth. -/
def isFolded : Term → Bool
  | offset base delta => !base.foldsBy delta && isFolded base
  | apply head args => isFolded head && isFoldedList args
  | pointer inner | expansion inner | qualified _ inner | reference _ inner => isFolded inner
  | param _ | placeholder _ | type _ | value _ _ | template _ => true

def isFoldedList : List Term → Bool
  | [] => true
  | t :: ts => isFolded t && isFoldedList ts

end

/-- A term in which nothing is left to do. -/
structure IsReduced (t : Term) : Prop where
  normal : t.isNormal = true
  folded : t.isFolded = true

instance (t : Term) : Decidable t.IsReduced :=
  decidable_of_iff (t.isNormal = true ∧ t.isFolded = true)
    ⟨fun h => ⟨h.1, h.2⟩, fun h => ⟨h.normal, h.folded⟩⟩

theorem isFoldedList_iff {ts : List Term} :
    isFoldedList ts = true ↔ ∀ t ∈ ts, t.isFolded = true := by
  induction ts with
  | nil => simp [isFoldedList]
  | cons t ts ih => simp [isFoldedList, ih]

theorem isFolded_apply {head : Term} {args : List Term} :
    (apply head args).isFolded = true ↔
      head.isFolded = true ∧ ∀ t ∈ args, t.isFolded = true := by
  rw [isFolded, Bool.and_eq_true, isFoldedList_iff]

/-! ### Building folded terms -/

theorem plus_of_not_foldsBy {base : Term} {delta : Int} (h : base.foldsBy delta = false) :
    base.plus delta = offset base delta := by
  cases base with
  | value number ty => rw [plus, if_neg (of_decide_eq_false h)]
  | _ => rfl

theorem isFolded_plus {t : Term} (h : t.isFolded = true) (delta : Int) :
    (t.plus delta).isFolded = true := by
  cases hfolds : t.foldsBy delta with
  | false =>
    rw [plus_of_not_foldsBy hfolds, isFolded, hfolds, h]
    rfl
  | true =>
    cases t with
    | value number ty =>
      rw [plus, if_pos (of_decide_eq_true hfolds)]
      rfl
    | _ => exact Bool.noConfusion hfolds

@[simp] theorem isFolded_qualify (t : Term) (quals : Qualifiers) :
    (t.qualify quals).isFolded = t.isFolded := by
  unfold qualify
  split
  · rfl
  · split <;> rfl

@[simp] theorem isFolded_refer (t : Term) (kind : RefKind) :
    (t.refer kind).isFolded = t.isFolded := by
  cases t <;> rfl

@[simp] theorem isFolded_unqualified (t : Term) : t.unqualified.isFolded = t.isFolded := by
  cases t <;> rfl

@[simp] theorem isFolded_expanded (t : Term) : t.expanded.isFolded = t.isFolded := by
  cases t <;> rfl

/-! ### Reduced terms, built and taken apart -/

namespace IsReduced

variable {t : Term}

theorem qualify (h : t.IsReduced) (quals : Qualifiers) : (t.qualify quals).IsReduced :=
  ⟨isNormal_qualify h.normal quals, by rw [isFolded_qualify, h.folded]⟩

theorem refer (h : t.IsReduced) (kind : RefKind) : (t.refer kind).IsReduced :=
  ⟨isNormal_refer h.normal kind, by rw [isFolded_refer, h.folded]⟩

theorem plus (h : t.IsReduced) (delta : Int) : (t.plus delta).IsReduced :=
  ⟨isNormal_plus h.normal delta, isFolded_plus h.folded delta⟩

theorem expanded (h : t.IsReduced) : t.expanded.IsReduced :=
  ⟨isNormal_expanded h.normal, by rw [isFolded_expanded, h.folded]⟩

theorem unqualified (h : t.IsReduced) : t.unqualified.IsReduced :=
  ⟨isNormal_unqualified h.normal, by rw [isFolded_unqualified, h.folded]⟩

theorem inner {kind : RefKind} (h : (reference kind t).IsReduced) : t.IsReduced :=
  ⟨(isNormal_reference.mp h.normal).2, h.folded⟩

theorem head {args : List Term} (h : (apply t args).IsReduced) : t.IsReduced :=
  ⟨(isNormal_apply.mp h.normal).1, (isFolded_apply.mp h.folded).1⟩

theorem args {args : List Term} (h : (apply t args).IsReduced) : ∀ u ∈ args, u.IsReduced :=
  fun u hu => ⟨(isNormal_apply.mp h.normal).2 u hu, (isFolded_apply.mp h.folded).2 u hu⟩

end IsReduced

/-! ### Erasing -/

mutual

/-- Whether there is no qualifier and no reference in the term, at any depth. -/
def isBare : Term → Bool
  | qualified _ _ | reference _ _ => false
  | apply head args => isBare head && isBareList args
  | pointer inner | expansion inner => isBare inner
  | offset base _ => isBare base
  | param _ | placeholder _ | type _ | value _ _ | template _ => true

def isBareList : List Term → Bool
  | [] => true
  | t :: ts => isBare t && isBareList ts

end

theorem isBare_plus (t : Term) (delta : Int) : (t.plus delta).isBare = t.isBare := by
  unfold plus
  split
  · split <;> rfl
  · rfl

theorem erase_qualify (t : Term) (quals : Qualifiers) : (t.qualify quals).erase = t.erase := by
  unfold qualify
  split
  · rfl
  · split <;> rfl

theorem erase_refer (t : Term) (kind : RefKind) : (t.refer kind).erase = t.erase := by
  cases t <;> rfl

/-- An offset is computed at the latest when its base has become a constant. -/
theorem erase_plus (t : Term) (delta : Int) : (t.plus delta).erase = t.erase.plus delta := by
  cases t with
  | value number ty =>
    cases hfolds : (value number ty).foldsBy delta with
    | false => rw [plus_of_not_foldsBy hfolds]; rfl
    | true => rw [erase, plus, if_pos (of_decide_eq_true hfolds)]; rfl
  | _ => rfl

mutual

theorem isBare_erase : ∀ t : Term, t.erase.isBare = true
  | qualified _ inner | reference _ inner => isBare_erase inner
  | pointer inner | expansion inner => isBare_erase inner
  | apply head args => (Bool.and_eq_true _ _).mpr ⟨isBare_erase head, isBareList_eraseList args⟩
  | offset base delta => by rw [erase, isBare_plus, isBare_erase base]
  | param _ | placeholder _ | type _ | value _ _ | template _ => rfl

theorem isBareList_eraseList : ∀ ts : List Term, isBareList (eraseList ts) = true
  | [] => rfl
  | t :: ts => (Bool.and_eq_true _ _).mpr ⟨isBare_erase t, isBareList_eraseList ts⟩

end

mutual

theorem isFolded_erase : ∀ t : Term, t.erase.isFolded = true
  | qualified _ inner | reference _ inner => isFolded_erase inner
  | pointer inner | expansion inner => isFolded_erase inner
  | apply head args =>
    (Bool.and_eq_true _ _).mpr ⟨isFolded_erase head, isFoldedList_eraseList args⟩
  | offset base delta => isFolded_plus (isFolded_erase base) delta
  | param _ | placeholder _ | type _ | value _ _ | template _ => rfl

theorem isFoldedList_eraseList : ∀ ts : List Term, isFoldedList (eraseList ts) = true
  | [] => rfl
  | t :: ts => (Bool.and_eq_true _ _).mpr ⟨isFolded_erase t, isFoldedList_eraseList ts⟩

end

mutual

/-- Without decorations there is nothing that could be out of normal form. -/
theorem isNormal_of_isBare : ∀ {t : Term}, t.isBare = true → t.isNormal = true
  | qualified _ _, h | reference _ _, h => Bool.noConfusion h
  | pointer inner, h | expansion inner, h => isNormal_of_isBare (t := inner) h
  | apply _ _, h => by
    obtain ⟨hhead, hargs⟩ := (Bool.and_eq_true _ _).mp h
    exact (Bool.and_eq_true _ _).mpr ⟨isNormal_of_isBare hhead, isNormalList_of_isBareList hargs⟩
  | offset base _, h => isNormal_of_isBare (t := base) h
  | param _, _ | placeholder _, _ | type _, _ | value _ _, _ | template _, _ => rfl

theorem isNormalList_of_isBareList : ∀ {ts : List Term}, isBareList ts = true →
    isNormalList ts = true
  | [], _ => rfl
  | _ :: _, h => by
    obtain ⟨ht, hts⟩ := (Bool.and_eq_true _ _).mp h
    exact (Bool.and_eq_true _ _).mpr ⟨isNormal_of_isBare ht, isNormalList_of_isBareList hts⟩

end

/-- **Erasing reduces,** whatever the term was. -/
theorem isReduced_erase (t : Term) : t.erase.IsReduced :=
  ⟨isNormal_of_isBare (isBare_erase t), isFolded_erase t⟩

mutual

theorem erase_of_isBare : ∀ {t : Term}, t.isBare = true → t.isFolded = true → t.erase = t
  | qualified _ _, hbare, _ | reference _ _, hbare, _ => Bool.noConfusion hbare
  | pointer inner, hbare, hfolded | expansion inner, hbare, hfolded => by
    rw [erase, erase_of_isBare (t := inner) hbare hfolded]
  | apply _ _, hbare, hfolded => by
    obtain ⟨hbhead, hbargs⟩ := (Bool.and_eq_true _ _).mp hbare
    obtain ⟨hfhead, hfargs⟩ := (Bool.and_eq_true _ _).mp hfolded
    rw [erase, erase_of_isBare hbhead hfhead, eraseList_of_isBareList hbargs hfargs]
  | offset base delta, hbare, hfolded => by
    rw [isFolded, Bool.and_eq_true, Bool.not_eq_true'] at hfolded
    rw [erase, erase_of_isBare (t := base) hbare hfolded.2, plus_of_not_foldsBy hfolded.1]
  | param _, _, _ | placeholder _, _, _ | type _, _, _ | value _ _, _, _ | template _, _, _ => rfl

theorem eraseList_of_isBareList : ∀ {ts : List Term}, isBareList ts = true →
    isFoldedList ts = true → eraseList ts = ts
  | [], _, _ => rfl
  | _ :: _, hbare, hfolded => by
    obtain ⟨hbt, hbts⟩ := (Bool.and_eq_true _ _).mp hbare
    obtain ⟨hft, hfts⟩ := (Bool.and_eq_true _ _).mp hfolded
    rw [eraseList, erase_of_isBare hbt hft, eraseList_of_isBareList hbts hfts]

end

/-- **Erasing leaves alone what is bare and folded,** and nothing else. -/
theorem erase_eq_self_iff {t : Term} : t.erase = t ↔ t.isBare = true ∧ t.isFolded = true := by
  constructor
  · intro h
    rw [← h]
    exact ⟨isBare_erase t, isFolded_erase t⟩
  · exact fun h => erase_of_isBare h.1 h.2

end TemplateResolution.Term
