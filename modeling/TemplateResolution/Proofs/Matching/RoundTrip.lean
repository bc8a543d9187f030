import TemplateResolution.Pattern.Basic
import TemplateResolution.Proofs.Matching.Arguments
import TemplateResolution.Registry.WellFormed
import TemplateResolution.TypeModel.Alias

/-!
# Every instance of a pattern is matched

A substitution that gives every parameter arguments of its kind turns the argument
list of a pattern into an instance of it.  Matched with the pattern, the instance
gives the substitution back (`match?_subst`): the pattern finds in its own instance
what was put there, clue by clue (`read_subst`).

This takes that packs stand where their elements can be told apart (`placesPacks`),
that what an offset mentions is found elsewhere, and that no argument has decorations
at its top, which could merge with those of the pattern.
-/

namespace TemplateResolution

namespace Term

mutual

/-- Whether packs occur inside expansions and outside offsets only, and every expansion is the last
of a list, mentions a pack and holds no other expansion; `inside` tells whether the term stands
inside one. -/
def placesPacks (isPack : ParamId → Bool) (inside : Bool) : Term → Bool
  | param id => inside || !isPack id
  | offset base _ => base.occurrences.all fun id => !isPack id
  | apply head args => placesPacks isPack inside head && placesPacksList isPack inside args
  | pointer inner | qualified _ inner | reference _ inner => placesPacks isPack inside inner
  | expansion _ => false
  | placeholder _ | type _ | value _ _ | template _ => true

def placesPacksList (isPack : ParamId → Bool) (inside : Bool) : List Term → Bool
  | [] => true
  | [expansion inner] =>
    !inside && inner.occurrences.any isPack && placesPacks isPack true inner
  | t :: ts => placesPacks isPack inside t && placesPacksList isPack inside ts

end

mutual

/-- The occurrences outside every offset and every expansion. -/
def outerOccurrences : Term → List ParamId
  | param id => [id]
  | apply head args => outerOccurrences head ++ outerOccurrencesList args
  | pointer inner | qualified _ inner | reference _ inner => outerOccurrences inner
  | expansion _ | offset _ _ | placeholder _ | type _ | value _ _ | template _ => []

def outerOccurrencesList : List Term → List ParamId
  | [] => []
  | t :: ts => outerOccurrences t ++ outerOccurrencesList ts

end

/-- Neither qualified nor a reference. -/
structure IsPlain (t : Term) : Prop where
  unqualified : t.isQualified = false
  unreferenced : t.isReference = false

instance (t : Term) : Decidable t.IsPlain :=
  decidable_of_iff (t.isQualified = false ∧ t.isReference = false)
    ⟨fun h => ⟨h.1, h.2⟩, fun h => ⟨h.1, h.2⟩⟩

variable {isPack : ParamId → Bool} {inside : Bool}

theorem placesPacksList_expansion {inner : Term} {ts : List Term}
    (h : placesPacksList isPack inside (expansion inner :: ts) = true) :
    ts = [] ∧ inside = false ∧ inner.occurrences.any isPack = true ∧
      placesPacks isPack true inner = true := by
  cases ts with
  | nil =>
    simp only [placesPacksList, Bool.and_eq_true, Bool.not_eq_true'] at h
    exact ⟨rfl, h.1.1, h.1.2, h.2⟩
  | cons t ts => simp [placesPacksList, placesPacks] at h

theorem placesPacksList_cons {t : Term} (ht : t.isExpansion = false) (ts : List Term) :
    placesPacksList isPack inside (t :: ts) =
      (placesPacks isPack inside t && placesPacksList isPack inside ts) := by
  cases t with
  | expansion inner => exact Bool.noConfusion ht
  | _ => simp [placesPacksList]

mutual

/-- Inside an expansion a pack occurs where it can be deduced. -/
theorem mem_outerOccurrences : ∀ t : Term, placesPacks isPack true t = true →
    ∀ id ∈ t.occurrences, isPack id = true → id ∈ t.outerOccurrences
  | param _, _, id, hid, _ => hid
  | placeholder _, _, id, hid, _ | type _, _, id, hid, _ | value _ _, _, id, hid, _
  | template _, _, id, hid, _ => absurd hid List.not_mem_nil
  | pointer inner, h, id, hid, hpack | qualified _ inner, h, id, hid, hpack
  | reference _ inner, h, id, hid, hpack => mem_outerOccurrences inner h id hid hpack
  | expansion _, h, _, _, _ => Bool.noConfusion h
  | offset base _, h, id, hid, hpack => by
    have hno := List.all_eq_true.mp h id hid
    rw [hpack] at hno
    exact Bool.noConfusion hno
  | apply head args, h, id, hid, hpack => by
    obtain ⟨hhead, hargs⟩ := (Bool.and_eq_true _ _).mp h
    rw [outerOccurrences, List.mem_append]
    rcases List.mem_append.mp hid with hid | hid
    · exact .inl (mem_outerOccurrences head hhead id hid hpack)
    · exact .inr (mem_outerOccurrencesList args hargs id hid hpack)

theorem mem_outerOccurrencesList : ∀ ts : List Term, placesPacksList isPack true ts = true →
    ∀ id ∈ occurrencesList ts, isPack id = true → id ∈ outerOccurrencesList ts
  | [], _, _, hid, _ => hid
  | t :: ts, h, id, hid, hpack => by
    by_cases hexp : t.isExpansion = true
    · obtain ⟨inner, rfl⟩ := exists_of_isExpansion hexp
      exact Bool.noConfusion (placesPacksList_expansion h).2.1
    · rw [Bool.not_eq_true] at hexp
      rw [placesPacksList_cons hexp, Bool.and_eq_true] at h
      rw [outerOccurrencesList, List.mem_append]
      rcases List.mem_append.mp hid with hid | hid
      · exact .inl (mem_outerOccurrences t h.1 id hid hpack)
      · exact .inr (mem_outerOccurrencesList ts h.2 id hid hpack)

end

/-! ### Decorations of an instance -/

section Decorations

variable {w : Substitution}

theorem isPlain_atParam (id : ParamId) (h : ∀ u, w.get? id = some (.single u) → u.IsPlain) :
    (w.atParam id).IsPlain := by
  rw [Substitution.atParam]
  split
  · rename_i u hu
    exact h u hu
  · exact ⟨rfl, rfl⟩

theorem isPlain_plus (t : Term) (delta : Int) : (t.plus delta).IsPlain := by
  cases t with
  | value number ty =>
    rw [plus]
    split <;> exact ⟨rfl, rfl⟩
  | _ => exact ⟨rfl, rfl⟩

/-- What is plain stays plain under plain arguments. -/
theorem IsPlain.subst {t : Term} (ht : t.IsPlain)
    (h : ∀ id ∈ t.occurrences, ∀ u, w.get? id = some (.single u) → u.IsPlain) :
    (t.subst w).IsPlain := by
  obtain ⟨hq, hr⟩ := ht
  cases t with
  | param id => exact isPlain_atParam id (h id (List.mem_singleton_self id))
  | qualified quals inner => exact Bool.noConfusion hq
  | reference kind inner => exact Bool.noConfusion hr
  | offset base delta => exact isPlain_plus _ delta
  | _ => exact ⟨rfl, rfl⟩

/-- The qualifiers of a normal term stay apart from its plain arguments. -/
theorem subst_qualified {quals : Qualifiers} {inner : Term}
    (hnormal : (qualified quals inner).isNormal = true)
    (h : ∀ id ∈ inner.occurrences, ∀ u, w.get? id = some (.single u) → u.IsPlain) :
    (qualified quals inner).subst w = qualified quals (inner.subst w) := by
  obtain ⟨hquals, hq, hr, -⟩ := isNormal_qualified.mp hnormal
  have hplain := IsPlain.subst ⟨hq, hr⟩ h
  exact qualify_eq_of_plain hplain.unqualified hplain.unreferenced hquals

theorem subst_reference {kind : RefKind} {inner : Term}
    (hnormal : (reference kind inner).isNormal = true)
    (h : ∀ id ∈ inner.occurrences, ∀ u, w.get? id = some (.single u) → u.IsPlain) :
    (reference kind inner).subst w = reference kind (inner.subst w) := by
  obtain ⟨hr, hinner⟩ := isNormal_reference.mp hnormal
  have hsubst : (inner.subst w).isReference = false := by
    by_cases hq : inner.isQualified = true
    · cases inner with
      | qualified quals inner => rw [subst_qualified hinner h]; rfl
      | _ => exact Bool.noConfusion hq
    · rw [Bool.not_eq_true] at hq
      exact (IsPlain.subst ⟨hq, hr⟩ h).unreferenced
  change (inner.subst w).refer kind = _
  cases hinner' : inner.subst w with
  | reference k t => rw [hinner'] at hsubst; exact Bool.noConfusion hsubst
  | _ => rfl

theorem withoutQuals_qualified (quals : Qualifiers) (t : Term) :
    (qualified quals t).withoutQuals quals = t := by
  rw [withoutQuals]
  change t.qualify (quals.without quals) = t
  rw [Qualifiers.without_self, qualify_none]

end Decorations

end Term

namespace Substitution

/-- The pack that an expansion mentions, if no other parameter in it is bound to a list. -/
theorem boundPack_eq_some {σ : Substitution} {t : Term} {pack : ParamId} {ts : List Term}
    (hmem : pack ∈ t.occurrences) (hts : σ.get? pack = some (.pack ts))
    (hother : ∀ id ∈ t.occurrences, id ≠ pack → ∀ us, σ.get? id ≠ some (.pack us)) :
    σ.boundPack t = some (pack, ts) := by
  rw [boundPack]
  generalize t.occurrences = ids at hmem hother
  induction ids with
  | nil => exact absurd hmem List.not_mem_nil
  | cons id ids ih =>
    rw [List.findSome?_cons]
    by_cases hid : id = pack
    · rw [hid, hts]
    · have htail : pack ∈ ids := (List.mem_cons.mp hmem).resolve_left fun h => hid h.symm
      have hrest := ih htail fun j hj => hother j (List.mem_cons_of_mem _ hj)
      cases hget : σ.get? id with
      | none => exact hrest
      | some b =>
        cases b with
        | single u => exact hrest
        | pack us => exact absurd hget (hother id List.mem_cons_self hid us)

end Substitution

namespace Matching

/-- The substitution gives every parameter arguments of its kind, without decorations at the top. -/
structure Assigns (m : Matching) (σ : Substitution) : Prop where
  single : ∀ id q, m.parameters[id]? = some q → m.model.isPack q = false →
    ∃ t, σ.get? id = some (.single t) ∧ m.model.accepts q t = true ∧ t.IsPlain
  pack : ∀ id q, m.parameters[id]? = some q → m.model.isPack q = true →
    ∃ ts, σ.get? id = some (.pack ts) ∧ ∀ t ∈ ts, m.model.accepts q t = true ∧ t.IsPlain

/-- The substitution gives every parameter arguments of its kind; one argument of a pack may stand
for any number of them. -/
structure Fills (m : Matching) (σ : Substitution) : Prop where
  single : ∀ id q, m.parameters[id]? = some q → m.model.isPack q = false →
    ∃ t, σ.get? id = some (.single t) ∧ m.model.accepts q t = true ∧ t.IsPlain
  pack : ∀ id q, m.parameters[id]? = some q → m.model.isPack q = true →
    ∃ ts, σ.get? id = some (.pack ts) ∧
      ∀ t ∈ ts, m.model.accepts q t.expanded = true ∧ t.expanded.IsPlain

theorem Assigns.fills {m : Matching} {σ : Substitution} (h : m.Assigns σ) : m.Fills σ := by
  refine ⟨h.single, fun id q hq hpack => ?_⟩
  obtain ⟨ts, hts, hall⟩ := h.pack id q hq hpack
  refine ⟨ts, hts, fun t ht => ?_⟩
  rw [Term.expanded_eq_self (Deduction.isExpansion_of_accepts (hall t ht).1)]
  exact hall t ht

/-- What the parameters in `ids` stand for: plain arguments, except that a pack stands for none
outside expansions. -/
structure Supplies (m : Matching) (inside : Bool) (w : Substitution) (ids : List ParamId) :
    Prop where
  plain : ∀ id ∈ ids, ∀ u, w.get? id = some (.single u) → u.IsPlain
  bound : ∀ id ∈ ids, (inside || !m.isPack id) = true →
    ∃ u, w.get? id = some (.single u) ∧ m.parameters[id]?.any (m.model.accepts · u) = true

/-- What a pattern reads in its own instance.  `w` tells what the parameters stand for at its place;
of the parameters, those in `outer` are bound there, and of those in `ids` the packs. -/
structure Decodes (m : Matching) (σ w : Substitution) (inside : Bool) (outer ids : List ParamId)
    (xs : List Finding) : Prop where
  clues : ∀ c, .clue c ∈ xs → c.Holds m (· == ·) σ w
  elements : ∀ pack found, .elements pack found ∈ xs →
    inside = false ∧ (Finding.elements pack found).Holds m (· == ·) σ
  outer : ∀ id ∈ outer, ∃ t, .clue (.bind id t) ∈ xs
  packs : inside = false → ∀ id ∈ ids, m.isPack id = true → ∃ found, .elements id found ∈ xs

variable {m : Matching} {σ w : Substitution} {inside : Bool}

theorem Supplies.mono {ids ids' : List ParamId} (h : m.Supplies inside w ids)
    (hsub : ∀ id ∈ ids', id ∈ ids) : m.Supplies inside w ids' :=
  ⟨fun id hid => h.plain id (hsub id hid), fun id hid => h.bound id (hsub id hid)⟩

namespace Decodes

theorem nil : m.Decodes σ w inside [] [] [] :=
  ⟨fun _ h => absurd h List.not_mem_nil, fun _ _ h => absurd h List.not_mem_nil,
    fun _ h => absurd h List.not_mem_nil, fun _ _ h => absurd h List.not_mem_nil⟩

theorem append {outer outer' ids ids' : List ParamId} {xs ys : List Finding}
    (h : m.Decodes σ w inside outer ids xs) (h' : m.Decodes σ w inside outer' ids' ys) :
    m.Decodes σ w inside (outer ++ outer') (ids ++ ids') (xs ++ ys) := by
  constructor
  · intro c hc
    exact (List.mem_append.mp hc).elim (h.clues c) (h'.clues c)
  · intro pack found hf
    exact (List.mem_append.mp hf).elim (h.elements pack found) (h'.elements pack found)
  · intro id hid
    rcases List.mem_append.mp hid with hid | hid
    · obtain ⟨t, ht⟩ := h.outer id hid
      exact ⟨t, List.mem_append_left _ ht⟩
    · obtain ⟨t, ht⟩ := h'.outer id hid
      exact ⟨t, List.mem_append_right _ ht⟩
  · intro hin id hid hpack
    rcases List.mem_append.mp hid with hid | hid
    · obtain ⟨found, hf⟩ := h.packs hin id hid hpack
      exact ⟨found, List.mem_append_left _ hf⟩
    · obtain ⟨found, hf⟩ := h'.packs hin id hid hpack
      exact ⟨found, List.mem_append_right _ hf⟩

/-- Inside an expansion there are clues only. -/
theorem exists_clues {outer ids : List ParamId} {xs : List Finding}
    (h : m.Decodes σ w true outer ids xs) : ∃ cs : List Clue, xs = cs.map .clue := by
  have helements := h.elements
  clear h
  induction xs with
  | nil => exact ⟨[], rfl⟩
  | cons f xs ih =>
    obtain ⟨cs, rfl⟩ := ih fun pack found hf => helements pack found (List.mem_cons_of_mem _ hf)
    cases f with
    | clue c => exact ⟨c :: cs, rfl⟩
    | elements pack found => exact Bool.noConfusion (helements pack found List.mem_cons_self).1

end Decodes

/-! ### A pattern reads its own instance -/

/-- An expansion reads the elements of its pack, if each of them is read. -/
theorem foundIn_subst {inner : Term} {pack : ParamId} {k : Nat} {ts : List Term}
    (hplain : ∀ e ∈ ts, (inner.subst (σ.atElement pack e)).isExpansion = false)
    (hread : ∀ e ∈ ts, ∃ cs : List Clue,
      m.read inner (inner.subst (σ.atElement pack e)) k = some (cs.map .clue) ∧
        (∃ t, .bind pack t ∈ cs) ∧ ∀ c ∈ cs, c.Holds m (· == ·) σ (σ.atElement pack e)) :
    ∃ found,
      List.Forall₂ (m.FoundIn inner k)
        (ts.map fun e => e.expandedLike (inner.subst (σ.atElement pack e))) found ∧
      List.Forall₂ (Finding.HoldsAt m (· == ·) σ pack) ts found := by
  induction ts with
  | nil => exact ⟨[], .nil, .nil⟩
  | cons e ts ih =>
    obtain ⟨hshape, hplain'⟩ := List.forall_mem_cons.mp hplain
    obtain ⟨⟨cs, hcs, hbound, hclues⟩, hread'⟩ := List.forall_mem_cons.mp hread
    obtain ⟨found, hfound, hholds⟩ := ih hplain' hread'
    refine ⟨(e.expandedLike (inner.subst (σ.atElement pack e)), cs) :: found,
      .cons ⟨rfl, ?_⟩ hfound,
      .cons ⟨(Term.isExpansion_expandedLike e hshape).symm, hbound, hclues⟩ hholds⟩
    rwa [Term.expanded_expandedLike e hshape]

/-- An instance of what is no expansion is none. -/
theorem isExpansion_subst {t : Term} (hnormal : t.isNormal = true) (ht : t.isExpansion = false)
    (hsupplies : m.Supplies true w t.occurrences) : (t.subst w).isExpansion = false := by
  cases t with
  | param id =>
    obtain ⟨u, hu, haccepts⟩ := hsupplies.bound id (List.mem_singleton_self id) rfl
    obtain ⟨q, -, hq⟩ := (Option.any_eq_true _ _).mp haccepts
    rw [Term.subst, Substitution.apply, Substitution.atParam, hu]
    exact Deduction.isExpansion_of_accepts hq
  | qualified quals inner => rw [Term.subst_qualified hnormal hsupplies.plain]; rfl
  | reference kind inner => rw [Term.subst_reference hnormal hsupplies.plain]; rfl
  | offset base delta =>
    change ((base.subst w).plus delta).isExpansion = false
    cases base.subst w with
    | value number ty =>
      rw [Term.plus]
      split <;> rfl
    | _ => rfl
  | expansion inner => exact Bool.noConfusion ht
  | _ => rfl

section Instance

variable (hunique : ∀ i j, m.isPack i = true → m.isPack j = true → i = j) (hσ : m.Fills σ)

include hσ hunique in
/-- Beside the pack, every parameter stands for one argument. -/
theorem exists_single {id pack : ParamId} (hid : id < m.parameters.length)
    (hpack : m.isPack pack = true) (hne : id ≠ pack) :
    ∃ u, σ.get? id = some (.single u) ∧ m.parameters[id]?.any (m.model.accepts · u) = true ∧
      u.IsPlain := by
  obtain ⟨q, hq⟩ : ∃ q, m.parameters[id]? = some q := ⟨_, List.getElem?_eq_getElem hid⟩
  have hother : m.model.isPack q = false := by
    refine Bool.eq_false_iff.mpr fun htrue => hne (hunique id pack ?_ hpack)
    rw [isPack, hq]
    exact htrue
  obtain ⟨u, hu, hacc, hplain⟩ := hσ.single id q hq hother
  exact ⟨u, hu, by rw [hq]; exact hacc, hplain⟩

include hσ hunique in
/-- Under each element of the pack, an expansion has what it mentions. -/
theorem supplies_atElement {inner : Term} (hdeclared : ∀ id ∈ inner.occurrences,
    id < m.parameters.length) {pack : ParamId} (hpack : m.isPack pack = true) {ts : List Term}
    (hts : σ.get? pack = some (.pack ts)) {e : Term} (he : e ∈ ts) :
    m.Supplies true (σ.atElement pack e) inner.occurrences := by
  obtain ⟨p, hp, hisPack⟩ := (Option.any_eq_true _ _).mp hpack
  obtain ⟨us, hus, hall⟩ := hσ.pack pack p hp hisPack
  obtain rfl : ts = us := Binding.pack.inj (Option.some.inj (hts.symm.trans hus))
  obtain ⟨haccepts, hplain⟩ := hall e he
  have helement : ∀ id ∈ inner.occurrences, ∃ u, (σ.atElement pack e).get? id = some (.single u) ∧
      m.parameters[id]?.any (m.model.accepts · u) = true ∧ u.IsPlain := by
    intro id hid
    rw [Substitution.atElement, Substitution.get?_insert]
    by_cases heq : id = pack
    · rw [if_pos heq, heq, hp]
      exact ⟨e.expanded, rfl, haccepts, hplain⟩
    · rw [if_neg heq]
      exact exists_single hunique hσ (hdeclared id hid) hpack heq
  constructor
  · intro id hid u hu
    obtain ⟨u', hu', -, hplain'⟩ := helement id hid
    rw [hu'] at hu
    exact Binding.single.inj (Option.some.inj hu) ▸ hplain'
  · intro id hid _
    obtain ⟨u, hu, hacc, -⟩ := helement id hid
    exact ⟨u, hu, hacc⟩

include hσ hunique in
theorem boundPack_inner {inner : Term} (hdeclared : ∀ id ∈ inner.occurrences,
    id < m.parameters.length) {pack : ParamId} (hpack : m.isPack pack = true)
    (hmem : pack ∈ inner.occurrences) {ts : List Term} (hts : σ.get? pack = some (.pack ts)) :
    σ.boundPack inner = some (pack, ts) := by
  refine Substitution.boundPack_eq_some hmem hts fun id hid hne us hus => ?_
  obtain ⟨u, hu, -, -⟩ := exists_single hunique hσ (hdeclared id hid) hpack hne
  rw [hu] at hus
  exact Binding.noConfusion (Option.some.inj hus)

mutual

/-- **A pattern reads its own instance,** and what it reads holds. -/
theorem read_subst (hmode : m.mode = .structural) (hrefl : ∀ n, m.model.sameLeaf n n = true)
    (hunique : ∀ i j, m.isPack i = true → m.isPack j = true → i = j) (hσ : m.Fills σ) :
    ∀ (p : Term) (inside : Bool) (w : Substitution) (k : Nat), p.isNormal = true →
    p.placesPacks m.isPack inside = true → (∀ id ∈ p.occurrences, id < m.parameters.length) →
    m.Supplies inside w p.occurrences → (∀ id, m.isPack id = false → w.get? id = σ.get? id) →
    (inside = false → w = σ) →
    ∃ xs, m.read p (p.subst w) k = some xs ∧
      m.Decodes σ w inside p.outerOccurrences p.occurrences xs
  | .param id, inside, w, k, hnormal, hplaces, hdeclared, hw, hagree, hview => by
    have hmem : id ∈ (Term.param id).occurrences := List.mem_singleton_self id
    obtain ⟨u, hu, haccepts⟩ := hw.bound id hmem hplaces
    have hsubst : (Term.param id).subst w = u := by
      rw [Term.subst, Substitution.apply, Substitution.atParam, hu]
    refine ⟨[.clue (.bind id u)], by rw [hsubst, read], ?_, ?_, ?_, ?_⟩
    · intro c hc
      obtain rfl := Finding.clue.inj (List.mem_singleton.mp hc)
      exact ⟨haccepts, u, hu, Term.same_refl (fun n => beq_self_eq_true n) u⟩
    · intro pack found hf
      exact Finding.noConfusion (List.mem_singleton.mp hf)
    · intro j hj
      obtain rfl := List.mem_singleton.mp hj
      exact ⟨u, List.mem_singleton_self _⟩
    · intro hin j hj hpack
      obtain rfl := List.mem_singleton.mp hj
      rw [Term.placesPacks, hin, hpack] at hplaces
      exact Bool.noConfusion hplaces
  | .offset base delta, inside, w, k, hnormal, hplaces, hdeclared, hw, hagree, hview => by
    have hno : ∀ id ∈ base.occurrences, m.isPack id = false := by
      intro id hid
      have hnot := List.all_eq_true.mp hplaces id hid
      rwa [Bool.not_eq_true'] at hnot
    have hsubst : (Term.offset base delta).subst w = (Term.offset base delta).subst σ :=
      Substitution.apply_congr _ fun id hid => hagree id (hno id hid)
    refine ⟨[.clue (.defer (.offset base delta) ((Term.offset base delta).subst w))],
      by rw [read], ?_, ?_, ?_, ?_⟩
    · intro c hc
      obtain rfl := Finding.clue.inj (List.mem_singleton.mp hc)
      exact (Term.same_beq_iff _ _).mpr hsubst.symm
    · intro pack found hf
      exact Finding.noConfusion (List.mem_singleton.mp hf)
    · exact fun _ hj => absurd hj List.not_mem_nil
    · intro hin j hj hpack
      rw [hno j hj] at hpack
      exact Bool.noConfusion hpack
  | .placeholder _, inside, w, k, _, _, _, _, _, _ =>
    ⟨[], by simp [Term.subst, Substitution.apply, read], .nil⟩
  | .type _, inside, w, k, _, _, _, _, _, _ | .template _, inside, w, k, _, _, _, _, _, _
  | .value _ _, inside, w, k, _, _, _, _, _, _ =>
    ⟨[], by simp [Term.subst, Substitution.apply, read, hrefl], .nil⟩
  | .expansion _, inside, w, k, _, hplaces, _, _, _, _ => Bool.noConfusion hplaces
  | .pointer inner, inside, w, k, hnormal, hplaces, hdeclared, hw, hagree, hview =>
    read_subst hmode hrefl hunique hσ inner inside w k hnormal hplaces hdeclared hw hagree hview
  | .qualified quals inner, inside, w, k, hnormal, hplaces, hdeclared, hw, hagree, hview => by
    obtain ⟨xs, hxs, hdecodes⟩ := read_subst hmode hrefl hunique hσ inner inside w k
      (Term.isNormal_qualified.mp hnormal).2.2.2 hplaces hdeclared hw hagree hview
    refine ⟨xs, ?_, hdecodes⟩
    rw [Term.subst_qualified hnormal hw.plain, read_qualified hmode, Term.withoutQuals_qualified,
      hxs]
    exact if_pos (Qualifiers.includes_refl quals)
  | .reference kind inner, inside, w, k, hnormal, hplaces, hdeclared, hw, hagree, hview => by
    obtain ⟨xs, hxs, hdecodes⟩ := read_subst hmode hrefl hunique hσ inner inside w k
      (Term.isNormal_reference.mp hnormal).2 hplaces hdeclared hw hagree hview
    refine ⟨xs, ?_, hdecodes⟩
    rw [Term.subst_reference hnormal hw.plain, read, if_pos rfl, hxs]
  | .apply head args, inside, w, k, hnormal, hplaces, hdeclared, hw, hagree, hview => by
    obtain ⟨hhead, hargs⟩ := (Bool.and_eq_true _ _).mp hnormal
    obtain ⟨hphead, hpargs⟩ := (Bool.and_eq_true _ _).mp hplaces
    obtain ⟨xs, hxs, hdecodes⟩ := read_subst hmode hrefl hunique hσ head inside w k hhead hphead
      (fun id hid => hdeclared id (List.mem_append_left _ hid))
      (hw.mono fun id hid => List.mem_append_left _ hid) hagree hview
    obtain ⟨ys, hys, hdecodes'⟩ := readList_subst hmode hrefl hunique hσ args inside w k hargs
      hpargs (fun id hid => hdeclared id (List.mem_append_right _ hid))
      (hw.mono fun id hid => List.mem_append_right _ hid) hagree hview
    refine ⟨xs ++ ys, ?_, hdecodes.append hdecodes'⟩
    have hsubst : (Term.apply head args).subst w =
        .apply (head.subst w) (Term.substList w args) := rfl
    rw [hsubst, read]
    exact Finding.join_eq_some.mpr ⟨xs, ys, hxs, hys, rfl⟩

theorem readList_subst (hmode : m.mode = .structural) (hrefl : ∀ n, m.model.sameLeaf n n = true)
    (hunique : ∀ i j, m.isPack i = true → m.isPack j = true → i = j) (hσ : m.Fills σ) :
    ∀ (ps : List Term) (inside : Bool) (w : Substitution) (k : Nat),
    Term.isNormalList ps = true → Term.placesPacksList m.isPack inside ps = true →
    (∀ id ∈ Term.occurrencesList ps, id < m.parameters.length) →
    m.Supplies inside w (Term.occurrencesList ps) →
    (∀ id, m.isPack id = false → w.get? id = σ.get? id) → (inside = false → w = σ) →
    ∃ xs, m.readList ps (Term.substList w ps) k = some xs ∧
      m.Decodes σ w inside (Term.outerOccurrencesList ps) (Term.occurrencesList ps) xs
  | [], inside, w, k, _, _, _, _, _, _ => ⟨[], rfl, .nil⟩
  | p :: ps, inside, w, k, hnormal, hplaces, hdeclared, hw, hagree, hview => by
    obtain ⟨hpnormal, hpsnormal⟩ := (Bool.and_eq_true _ _).mp hnormal
    have hpdeclared : ∀ id ∈ p.occurrences, id < m.parameters.length :=
      fun id hid => hdeclared id (List.mem_append_left _ hid)
    by_cases hexp : p.isExpansion = true
    · obtain ⟨inner, rfl⟩ := Term.exists_of_isExpansion hexp
      obtain ⟨rfl, rfl, hany, hinner⟩ := Term.placesPacksList_expansion hplaces
      obtain rfl := (hview rfl).symm
      obtain ⟨pack, hmem, hpack⟩ := List.any_eq_true.mp hany
      obtain ⟨q, hq, hisPack⟩ := (Option.any_eq_true _ _).mp hpack
      obtain ⟨ts, hts, hall⟩ := hσ.pack pack q hq hisPack
      have hpackOf : m.packOf inner = some pack := by
        obtain ⟨found, hfound⟩ := Option.isSome_iff_exists.mp
          (List.find?_isSome.mpr ⟨pack, hmem, hpack⟩ : (inner.occurrences.find? m.isPack).isSome)
        rw [packOf, hfound, hunique found pack (List.find?_some hfound) hpack]
      have hsupplies : ∀ e ∈ ts, m.Supplies true (σ.atElement pack e) inner.occurrences :=
        fun e he => supplies_atElement hunique hσ hpdeclared hpack hts he
      have hshape : inner.isExpansion = false := by
        cases inner with
        | expansion t => exact Bool.noConfusion hinner
        | _ => rfl
      have hread : ∀ e ∈ ts, ∃ cs : List Clue,
          m.read inner (inner.subst (σ.atElement pack e)) k = some (cs.map .clue) ∧
            (∃ t, .bind pack t ∈ cs) ∧
            ∀ c ∈ cs, c.Holds m (· == ·) σ (σ.atElement pack e) := by
        intro e he
        have hagree' : ∀ id, m.isPack id = false → (σ.atElement pack e).get? id = σ.get? id := by
          intro id hid
          rw [Substitution.atElement, Substitution.get?_insert, if_neg]
          rintro rfl
          rw [hpack] at hid
          exact Bool.noConfusion hid
        obtain ⟨xs, hxs, hdecodes⟩ := read_subst hmode hrefl hunique hσ inner true
          (σ.atElement pack e) k hpnormal hinner hpdeclared (hsupplies e he) hagree'
          (fun h => Bool.noConfusion h)
        obtain ⟨cs, rfl⟩ := hdecodes.exists_clues
        refine ⟨cs, hxs, ?_, fun c hc => hdecodes.clues c (List.mem_map_of_mem hc)⟩
        obtain ⟨t, ht⟩ := hdecodes.outer pack (Term.mem_outerOccurrences inner hinner pack hmem
          hpack)
        obtain ⟨c, hc, heq⟩ := List.mem_map.mp ht
        exact ⟨t, Finding.clue.inj heq ▸ hc⟩
      have hplain : ∀ e ∈ ts, (inner.subst (σ.atElement pack e)).isExpansion = false :=
        fun e he => isExpansion_subst hpnormal hshape (hsupplies e he)
      obtain ⟨found, hfound, hholds⟩ := foundIn_subst hplain hread
      have hbound : σ.boundPack inner = some (pack, ts) :=
        boundPack_inner hunique hσ hpdeclared hpack hmem hts
      have hsubst : Term.substList σ [.expansion inner] =
          ts.map fun e => e.expandedLike (inner.subst (σ.atElement pack e)) := by
        rw [Term.substList, Substitution.applyList, hbound]
        exact List.append_nil _
      refine ⟨[.elements pack found], ?_, ?_, ?_, ?_, ?_⟩
      · rw [hsubst, readList_expansion_eq_some]
        exact ⟨pack, found, [], hpackOf, hfound, rfl, rfl⟩
      · intro c hc
        exact Finding.noConfusion (List.mem_singleton.mp hc)
      · intro pack' found' hf
        obtain ⟨rfl, rfl⟩ := Finding.elements.inj (List.mem_singleton.mp hf)
        exact ⟨rfl, ts, hts, hholds⟩
      · exact fun _ hid => absurd hid List.not_mem_nil
      · intro _ id _ hid
        obtain rfl := hunique id pack hid hpack
        exact ⟨found, List.mem_singleton_self _⟩
    · rw [Bool.not_eq_true] at hexp
      rw [Term.placesPacksList_cons hexp] at hplaces
      obtain ⟨hp, hps⟩ := (Bool.and_eq_true _ _).mp hplaces
      obtain ⟨xs, hxs, hdecodes⟩ := read_subst hmode hrefl hunique hσ p inside w k hpnormal hp
        hpdeclared (hw.mono fun id hid => List.mem_append_left _ hid) hagree hview
      obtain ⟨ys, hys, hdecodes'⟩ := readList_subst hmode hrefl hunique hσ ps inside w k hpsnormal
        hps (fun id hid => hdeclared id (List.mem_append_right _ hid))
        (hw.mono fun id hid => List.mem_append_right _ hid) hagree hview
      refine ⟨xs ++ ys, ?_, hdecodes.append hdecodes'⟩
      have hsubst : Term.substList w (p :: ps) = p.subst w :: Term.substList w ps :=
        Substitution.applyList_cons hexp ps w
      rw [hsubst, readList_cons m hexp]
      exact Finding.join_eq_some.mpr ⟨xs, ys, hxs, hys, rfl⟩

end

include hσ hunique in
/-- **A list of terms is read in its instance,** and the substitution has what is found there. -/
theorem exists_reading_subst (hmode : m.mode = .structural)
    (hrefl : ∀ n, m.model.sameLeaf n n = true) {ps : List Term}
    (hnormal : Term.isNormalList ps = true)
    (hplaces : Term.placesPacksList m.isPack false ps = true)
    (hdeclared : ∀ id ∈ Term.occurrencesList ps, id < m.parameters.length) :
    (∀ id t, σ.get? id = some (.single t) → m.isPack id = false) ∧
      ∃ xs, m.readList ps (Term.substList σ ps) 0 = some xs ∧
        m.Decodes σ σ false (Term.outerOccurrencesList ps) (Term.occurrencesList ps) xs ∧
        ∀ f ∈ xs, f.Holds m (· == ·) σ := by
  have hsingles : ∀ id t, σ.get? id = some (.single t) → m.isPack id = false := by
    intro id t ht
    refine Bool.eq_false_iff.mpr fun hpack => ?_
    obtain ⟨q, hq, hisPack⟩ := (Option.any_eq_true _ _).mp hpack
    obtain ⟨ts, hts, -⟩ := hσ.pack id q hq hisPack
    exact Binding.noConfusion (Option.some.inj (ht.symm.trans hts))
  have hsupplies : m.Supplies false σ (Term.occurrencesList ps) := by
    have hsome : ∀ id ∈ Term.occurrencesList ps, ∃ q, m.parameters[id]? = some q :=
      fun id hid => ⟨_, List.getElem?_eq_getElem (hdeclared id hid)⟩
    constructor
    · intro id hid u hu
      obtain ⟨q, hq⟩ := hsome id hid
      have hpack := hsingles id u hu
      rw [isPack, hq, Option.any_some] at hpack
      obtain ⟨t, ht, -, hplain⟩ := hσ.single id q hq hpack
      exact Binding.single.inj (Option.some.inj (hu.symm.trans ht)) ▸ hplain
    · intro id hid hpack
      obtain ⟨q, hq⟩ := hsome id hid
      rw [Bool.false_or, Bool.not_eq_true', isPack, hq, Option.any_some] at hpack
      obtain ⟨t, ht, hacc, -⟩ := hσ.single id q hq hpack
      exact ⟨t, ht, by rw [hq]; exact hacc⟩
  obtain ⟨xs, hxs, hdecodes⟩ := readList_subst hmode hrefl hunique hσ ps false σ 0 hnormal hplaces
    hdeclared hsupplies (fun _ _ => rfl) fun _ => rfl
  refine ⟨hsingles, xs, hxs, hdecodes, fun f hf => ?_⟩
  cases f with
  | clue c => exact hdecodes.clues c hf
  | elements pack found => exact (hdecodes.elements pack found hf).2

end Instance

/-- What a match finds, where its reading holds to the letter, is what the substitution has. -/
theorem run_of_holds_self {model : TypeModel} (hrefl : ∀ n, model.sameLeaf n n = true)
    {parameters : List Parameter} {slots : List Slot} {targets : List Term} {xs : List Finding}
    (hread : (structural model parameters).readList (slots.map (·.term)) targets 0 = some xs)
    {σ : Substitution}
    (hsingles : ∀ id t, σ.get? id = some (.single t) →
      (structural model parameters).isPack id = false)
    (hholds : ∀ f ∈ xs, f.Holds (structural model parameters) (· == ·) σ)
    (hbinds : ∀ f ∈ xs, ∀ p t, .defer p t ∈ f.clues → ∀ id ∈ p.occurrences,
      (σ.get? id).isSome = true → ∃ g ∈ xs, g.Binds id) :
    ∃ τ, run model .structural parameters slots .empty targets = some τ ∧
      (∀ id b, τ.get? id = some b → σ.get? id = some b) ∧
      ∀ id, (τ.get? id).isSome = true ↔ ∃ f ∈ xs, f.Binds id := by
  have heuclid : ∀ k l n : String, (k == l) = true → (k == n) = true →
      model.sameLeaf l n = true := by
    intro k l n hkl hkn
    rw [← eq_of_beq hkl, ← eq_of_beq hkn]
    exact hrefl k
  obtain ⟨τ, hτ, hagrees, hbound⟩ := run_of_holds (fun n => beq_self_eq_true n) heuclid hread
    hsingles hholds hbinds
  refine ⟨τ, hτ, fun id b hb => ?_, hbound⟩
  obtain ⟨c, hc, hcb⟩ := hagrees id b hb
  rw [hc, Binding.same_beq_iff.mp hcb]

/-- What is found for every parameter of a list, and just what a substitution has for it, is what a
match of the list finds. -/
theorem run_of_holds_beq {model : TypeModel} (hrefl : ∀ n, model.sameLeaf n n = true)
    {parameters : List Parameter} {slots : List Slot} {targets : List Term} {xs : List Finding}
    (hread : (structural model parameters).readList (slots.map (·.term)) targets 0 = some xs)
    {σ : Substitution}
    (hsingles : ∀ id t, σ.get? id = some (.single t) →
      (structural model parameters).isPack id = false)
    (hholds : ∀ f ∈ xs, f.Holds (structural model parameters) (· == ·) σ)
    (hbinds : ∀ id ∈ Term.occurrencesList (slots.map (·.term)), ∃ f ∈ xs, f.Binds id) :
    ∃ τ, run model .structural parameters slots .empty targets = some τ ∧
      ∀ id ∈ Term.occurrencesList (slots.map (·.term)), τ.get? id = σ.get? id := by
  obtain ⟨τ, hτ, hget, hbound⟩ := run_of_holds_self hrefl hread hsingles hholds
    fun f hf q t hdefer id hid _ =>
      hbinds id ((within_readList _ _ _ xs hread f hf).clues _ hdefer id hid)
  refine ⟨τ, hτ, fun id hid => ?_⟩
  obtain ⟨b, hb⟩ := Option.isSome_iff_exists.mp ((hbound id).mpr (hbinds id hid))
  rw [hb, hget id b hb]

end Matching

namespace Pattern

/-- **Every instance of a pattern is matched and gives its substitution back.**  Packs may have any
number of elements. -/
theorem match?_subst {model : TypeModel} (hrefl : ∀ n, model.sameLeaf n n = true) {p : Pattern}
    (hunique : ∀ i j, p.isPack model i = true → p.isPack model j = true → i = j)
    (hnormal : ∀ t ∈ p.args, t.isNormal = true)
    (hdeclared : ∀ id ∈ Term.occurrencesList p.args, id < p.parameters.length)
    (hplaces : Term.placesPacksList (p.isPack model) false p.args = true)
    (hdeducible : ∀ id ∈ Term.occurrencesList p.args, p.isPack model id = false →
      id ∈ Term.outerOccurrencesList p.args)
    {σ : Substitution} (hσ : (Matching.structural model p.parameters).Assigns σ) :
    ∃ τ, p.match? model .structural .empty (Term.substList σ p.args) = some τ ∧
      ∀ id ∈ Term.occurrencesList p.args, τ.get? id = σ.get? id := by
  let m := Matching.structural model p.parameters
  obtain ⟨hsingles, xs, hxs, hdecodes, hholds⟩ := Matching.exists_reading_subst (m := m) hunique
    hσ.fills rfl hrefl (Term.isNormalList_iff.mpr hnormal) hplaces hdeclared
  have hbinds : ∀ id ∈ Term.occurrencesList p.args, ∃ f ∈ xs, f.Binds id := by
    intro id hid
    cases hpack : m.isPack id with
    | true =>
      obtain ⟨found, hfound⟩ := hdecodes.packs rfl id hid hpack
      exact ⟨_, hfound, .inl ⟨found, rfl⟩⟩
    | false =>
      obtain ⟨t, ht⟩ := hdecodes.outer id (hdeducible id hid hpack)
      exact ⟨_, ht, .inr ⟨t, List.mem_singleton_self _⟩⟩
  exact Matching.run_of_holds_beq hrefl hxs hsingles hholds hbinds

/-- `X<const T, A<N, N+1>, P<T, Ts*>...>` with `T = int`, `N = 3` and `Ts = char, bool`. -/
theorem match?_subst_pointers :
    let model := AliasTable.empty.model
    let p := Pattern.overload "X"
      [{ name := "T", kind := .type }, { name := "N", kind := .value },
        { name := "Ts", kind := .type, pack := true }]
      [⟨.qualified .const (.param 0), none⟩,
        ⟨.apply (.template "A") [.param 1, .offset (.param 1) 1], none⟩,
        ⟨.expansion (.apply (.template "P") [.param 0, .pointer (.param 2)]), none⟩]
    let σ := ((Substitution.empty.insert 0 (.single (.type "int"))).insert 1
      (.single (.value 3 "int"))).insert 2 (.pack [.type "char", .type "bool"])
    (∀ n, model.sameLeaf n n = true) ∧
      (∀ i j, p.isPack model i = true → p.isPack model j = true → i = j) ∧
      (∀ t ∈ p.args, t.isNormal = true) ∧
      (∀ id ∈ Term.occurrencesList p.args, id < p.parameters.length) ∧
      Term.placesPacksList (p.isPack model) false p.args = true ∧
      (∀ id ∈ Term.occurrencesList p.args, p.isPack model id = false →
        id ∈ Term.outerOccurrencesList p.args) ∧
      (Matching.structural model p.parameters).Assigns σ ∧
      ∃ τ, p.match? model .structural .empty
          [.qualified .const (.type "int"),
            .apply (.template "A") [.value 3 "int", .value 4 "int"],
            .apply (.template "P") [.type "int", .pointer (.type "char")],
            .apply (.template "P") [.type "int", .pointer (.type "bool")]] = some τ ∧
        ∀ id ∈ Term.occurrencesList p.args, τ.get? id = σ.get? id := by
  intro model p σ
  have hrefl : ∀ n, model.sameLeaf n n = true := AliasTable.empty.sameLeaf_refl
  have hpack : ∀ i, p.isPack model i = true → i = 2 := by
    intro i hi
    match i with
    | 0 => exact Bool.noConfusion hi
    | 1 => exact Bool.noConfusion hi
    | 2 => rfl
    | _ + 3 => exact Bool.noConfusion hi
  have hunique : ∀ i j, p.isPack model i = true → p.isPack model j = true → i = j :=
    fun i j hi hj => (hpack i hi).trans (hpack j hj).symm
  have hnormal : ∀ t ∈ p.args, t.isNormal = true := by decide
  have hdeclared : ∀ id ∈ Term.occurrencesList p.args, id < p.parameters.length := by decide
  have hplaces : Term.placesPacksList (p.isPack model) false p.args = true := rfl
  have hdeducible : ∀ id ∈ Term.occurrencesList p.args, p.isPack model id = false →
      id ∈ Term.outerOccurrencesList p.args := by decide
  have hσ : (Matching.structural model p.parameters).Assigns σ := by
    constructor
    · intro id q hq hpack
      match id with
      | 0 =>
        obtain rfl := Option.some.inj hq
        exact ⟨_, rfl, rfl, ⟨rfl, rfl⟩⟩
      | 1 =>
        obtain rfl := Option.some.inj hq
        exact ⟨_, rfl, rfl, ⟨rfl, rfl⟩⟩
      | 2 =>
        obtain rfl := Option.some.inj hq
        exact Bool.noConfusion hpack
      | _ + 3 => exact absurd hq (Option.some_ne_none q).symm
    · intro id q hq hpack
      match id with
      | 0 | 1 =>
        obtain rfl := Option.some.inj hq
        exact Bool.noConfusion hpack
      | 2 =>
        obtain rfl := Option.some.inj hq
        exact ⟨_, rfl, by decide⟩
      | _ + 3 => exact absurd hq (Option.some_ne_none q).symm
  exact ⟨hrefl, hunique, hnormal, hdeclared, hplaces, hdeducible, hσ,
    match?_subst hrefl hunique hnormal hdeclared hplaces hdeducible hσ⟩

end Pattern

end TemplateResolution
