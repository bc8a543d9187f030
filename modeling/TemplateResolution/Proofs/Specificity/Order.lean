import TemplateResolution.Proofs.Specificity.Closed
import TemplateResolution.Proofs.Specificity.Reversal
import TemplateResolution.Proofs.Specificity.Subset

/-!
# Comparisons in a class-like family make an order

`b` covers `a` when it takes the image of `a`.  For patterns of a regular shape this
is transitive (`Covers.trans`): the image of a pattern is a list of arguments like any
other, so what takes the image of `b` takes the image of `a` if `b` does.  The shape
matters, since a pack of `b` has one placeholder for all its elements; an expansion in
`c` that mentions nothing but its pack cannot tie anything to that placeholder.

The rule for packs does not spoil the order, since a pattern without an expansion in
its argument list takes no list that has one (`isVariadic_of_covers`).  So what a
comparison says is a strict order of regular patterns (`aMoreSpecific_iff`,
`Precedes.trans`).
-/

namespace TemplateResolution

namespace Term

mutual

/-- Whether every expansion in a term is an item of a list, holds no other expansion and mentions
packs only. -/
def expandsPacks (isPack : ParamId → Bool) : Term → Bool
  | apply head args => expandsPacks isPack head && expandsPacksList isPack args
  | pointer inner | qualified _ inner | reference _ inner => expandsPacks isPack inner
  | offset base _ => expandsPacks isPack base
  | expansion _ => false
  | param _ | placeholder _ | type _ | value _ _ | template _ => true

def expandsPacksList (isPack : ParamId → Bool) : List Term → Bool
  | [] => true
  | expansion inner :: ts =>
    inner.expansions.isEmpty && inner.occurrences.all isPack && expandsPacksList isPack ts
  | t :: ts => expandsPacks isPack t && expandsPacksList isPack ts

end

variable {isPack : ParamId → Bool}

theorem expandsPacksList_cons {t : Term} (ht : t.isExpansion = false) (ts : List Term) :
    expandsPacksList isPack (t :: ts) = (expandsPacks isPack t && expandsPacksList isPack ts) := by
  cases t with
  | expansion inner => exact Bool.noConfusion ht
  | _ => rw [expandsPacksList]; exact fun _ he => Term.noConfusion he

mutual

/-- What an expansion mentions is a pack. -/
theorem isPack_of_mem_expansions : ∀ t : Term, expandsPacks isPack t = true →
    ∀ inner ∈ t.expansions, ∀ id ∈ inner.occurrences, isPack id = true
  | param _, _, inner, hinner | placeholder _, _, inner, hinner | type _, _, inner, hinner
  | value _ _, _, inner, hinner | template _, _, inner, hinner => absurd hinner List.not_mem_nil
  | expansion _, h, _, _ => Bool.noConfusion h
  | pointer t, h, inner, hinner | qualified _ t, h, inner, hinner
  | reference _ t, h, inner, hinner | offset t _, h, inner, hinner =>
    isPack_of_mem_expansions t h inner hinner
  | apply head args, h, inner, hinner => by
    obtain ⟨hhead, hargs⟩ := (Bool.and_eq_true _ _).mp h
    rcases List.mem_append.mp hinner with hinner | hinner
    · exact isPack_of_mem_expansions head hhead inner hinner
    · exact isPack_of_mem_expansionsList args hargs inner hinner

theorem isPack_of_mem_expansionsList : ∀ ts : List Term, expandsPacksList isPack ts = true →
    ∀ inner ∈ expansionsList ts, ∀ id ∈ inner.occurrences, isPack id = true
  | [], _, _, hinner => absurd hinner List.not_mem_nil
  | t :: ts, h, inner, hinner => by
    by_cases hexp : t.isExpansion = true
    · obtain ⟨s, rfl⟩ := exists_of_isExpansion hexp
      simp only [expandsPacksList, Bool.and_eq_true, List.isEmpty_iff] at h
      obtain ⟨⟨hnone, hall⟩, hrest⟩ := h
      rcases List.mem_append.mp hinner with hinner | hinner
      · rw [expansions, hnone] at hinner
        obtain rfl := List.mem_singleton.mp hinner
        exact List.all_eq_true.mp hall
      · exact isPack_of_mem_expansionsList ts hrest inner hinner
    · rw [Bool.not_eq_true] at hexp
      rw [expandsPacksList_cons hexp, Bool.and_eq_true] at h
      rcases List.mem_append.mp hinner with hinner | hinner
      · exact isPack_of_mem_expansions t h.1 inner hinner
      · exact isPack_of_mem_expansionsList ts h.2 inner hinner

end

mutual

theorem expandsInLists_of_expandsPacks : ∀ t : Term, expandsPacks isPack t = true →
    t.expandsInLists = true
  | param _, _ | placeholder _, _ | type _, _ | value _ _, _ | template _, _ => rfl
  | expansion _, h => Bool.noConfusion h
  | pointer t, h | qualified _ t, h | reference _ t, h | offset t _, h =>
    expandsInLists_of_expandsPacks t h
  | apply head args, h => by
    obtain ⟨hhead, hargs⟩ := (Bool.and_eq_true _ _).mp h
    exact (Bool.and_eq_true _ _).mpr ⟨expandsInLists_of_expandsPacks head hhead,
      expandsInListsList_of_expandsPacksList args hargs⟩

theorem expandsInListsList_of_expandsPacksList : ∀ ts : List Term,
    expandsPacksList isPack ts = true → expandsInListsList ts = true
  | [], _ => rfl
  | t :: ts, h => by
    by_cases hexp : t.isExpansion = true
    · obtain ⟨inner, rfl⟩ := exists_of_isExpansion hexp
      simp only [expandsPacksList, Bool.and_eq_true] at h
      exact expandsInListsList_of_expandsPacksList ts h.2
    · rw [Bool.not_eq_true] at hexp
      rw [expandsPacksList_cons hexp, Bool.and_eq_true] at h
      rw [expandsInListsList_cons hexp, expandsInLists_of_expandsPacks t h.1,
        expandsInListsList_of_expandsPacksList ts h.2]
      rfl

end

end Term

namespace Matching

variable {m : Matching}

/-- Nothing but an expansion takes an expansion. -/
theorem not_read_expansion (hmode : m.mode = .structural) {leaf : String → String → Bool}
    {σ w : Substitution} {t : Term} {k : Nat} : ∀ (p : Term) {xs : List Finding},
    p.offsets = [] → m.read p (.expansion t) k = some xs →
    ¬ ∀ f ∈ xs, f.HoldsFrom m leaf σ w false
  | .param id, xs, _, h, hholds => by
    obtain rfl := Option.some.inj h
    obtain ⟨haccepts, -⟩ := hholds _ (List.mem_singleton_self _)
    obtain ⟨q, -, hq⟩ := (Option.any_eq_true _ _).mp haccepts
    exact Bool.noConfusion (Term.isExpansion_of_admits (m.model.admits_of_accepts hq))
  | .offset base delta, _, hoffsets, _, _ => absurd hoffsets (List.cons_ne_nil _ _)
  | .qualified quals inner, xs, hoffsets, h, hholds => by
    rw [read_qualified hmode] at h
    split at h
    · exact not_read_expansion hmode inner hoffsets h hholds
    · exact absurd h (Option.some_ne_none xs).symm
  | .placeholder _, _, _, h, _ | .type _, _, _, h, _ | .value _ _, _, _, h, _
  | .template _, _, _, h, _ | .apply _ _, _, _, h, _ | .pointer _, _, _, h, _
  | .expansion _, _, _, h, _ | .reference _ _, _, _, h, _ => by simp [read] at h

/-- A list without expansions takes no list with one. -/
theorem isExpansion_of_readList (hmode : m.mode = .structural) {leaf : String → String → Bool}
    {σ w : Substitution} {k : Nat} : ∀ (ps ts : List Term) {xs : List Finding},
    (∀ p ∈ ps, p.isExpansion = false) → Term.offsetsList ps = [] →
    m.readList ps ts k = some xs → (∀ f ∈ xs, f.HoldsFrom m leaf σ w false) →
    ∀ t ∈ ts, t.isExpansion = false
  | [], ts, xs, _, _, h, _ => by
    cases ts with
    | nil => exact fun t ht => absurd ht List.not_mem_nil
    | cons t ts => exact absurd h (Option.some_ne_none xs).symm
  | p :: ps, ts, xs, hps, hoffsets, h, hholds => by
    obtain ⟨hp, hps⟩ := List.forall_mem_cons.mp hps
    obtain ⟨hoffset, hoffsets⟩ := List.append_eq_nil_iff.mp hoffsets
    obtain ⟨t, ts, ys, zs, rfl, hys, hzs, rfl⟩ := (readList_cons_eq_some hp).mp h
    obtain ⟨hhead, htail⟩ := Finding.holdsFrom_join hholds
    refine List.forall_mem_cons.mpr ⟨?_, isExpansion_of_readList hmode ps ts hps hoffsets hzs htail⟩
    cases hexp : t.isExpansion with
    | false => rfl
    | true =>
      obtain ⟨inner, rfl⟩ := Term.exists_of_isExpansion hexp
      exact absurd hhead (not_read_expansion hmode p hoffset hys)

end Matching

namespace Pattern

/-- The shape of patterns that comparisons put into an order. -/
structure Regular (model : TypeModel) (p : Pattern) : Prop where
  placeholderFree : p.PlaceholderFree
  offsets : Term.offsetsList p.args = []
  declared : ∀ id ∈ Term.occurrencesList p.args, id < p.parameters.length
  defaults : ∀ slot ∈ p.slots, slot.default = none
  types : ∀ q ∈ p.parameters, model.argumentKind q = .value → q.valueType = none
  expansions : Term.expandsPacksList (p.isPack model) p.args = true

instance (model : TypeModel) (p : Pattern) : Decidable (p.Regular model) :=
  decidable_of_iff (p.PlaceholderFree ∧ Term.offsetsList p.args = [] ∧
      (∀ id ∈ Term.occurrencesList p.args, id < p.parameters.length) ∧
      (∀ slot ∈ p.slots, slot.default = none) ∧
      (∀ q ∈ p.parameters, model.argumentKind q = .value → q.valueType = none) ∧
      Term.expandsPacksList (p.isPack model) p.args = true)
    ⟨fun ⟨hfree, hoffsets, hdeclared, hdefaults, htypes, hexpansions⟩ =>
        ⟨hfree, hoffsets, hdeclared, hdefaults, htypes, hexpansions⟩,
      fun h => ⟨h.placeholderFree, h.offsets, h.declared, h.defaults, h.types, h.expansions⟩⟩

/-- `b` takes the image of `a`. -/
def Covers (model : TypeModel) (b a : Pattern) : Prop :=
  (b.match? model .structural .empty (a.image model)).isSome = true

variable {model : TypeModel} {a b c p : Pattern}

open PlaceholderSupply (frozen)

theorem Regular.grounded (hp : p.Regular model) : p.Grounded where
  placeholderFree := hp.placeholderFree
  declared := hp.declared
  expansions := Term.expandsInListsList_of_expandsPacksList p.args hp.expansions

/-- The image of a regular pattern is a list of arguments. -/
theorem Regular.isArgument_image (hp : p.Regular model) (hwf : p.WellFormed model) :
    ∀ s ∈ p.image model, s.IsArgument := by
  have hnil := hp.grounded.occurrences_image hwf
  intro s hs
  refine ⟨isNormal_image model p s hs, List.eq_nil_iff_forall_not_mem.mpr fun id hid => ?_⟩
  have hmem : id ∈ Term.occurrencesList (p.image model) := Term.mem_occurrencesList.mpr ⟨s, hs, hid⟩
  rw [hnil] at hmem
  exact List.not_mem_nil hmem

/-! ### Covering is transitive -/

section Order

variable (hrefl : ∀ n, model.sameLeaf n n = true)
  (hsymm : ∀ k l, model.sameLeaf k l = true → model.sameLeaf l k = true)
  (htrans : ∀ k l n, model.sameLeaf k l = true → model.sameLeaf l n = true →
    model.sameLeaf k n = true)

include hrefl hsymm htrans in
/-- **What covers a pattern covers what that pattern covers.** -/
theorem Covers.trans (ha : a.Regular model) (hawf : a.WellFormed model) (hb : b.Regular model)
    (hbwf : b.WellFormed model) (hc : c.Regular model) (hcb : c.Covers model b)
    (hba : b.Covers model a) : c.Covers model a := by
  obtain ⟨τ, hτ⟩ := Option.isSome_iff_exists.mp hcb
  obtain ⟨-, -, -, hsuits, -⟩ := Matching.exists_reading hrefl htrans hc.defaults hτ
  refine takes_of_image hrefl hsymm htrans hb.placeholderFree hc.placeholderFree hb.defaults
    hc.defaults hc.types (fun _ _ => isPack_unique hbwf.parameters) (.inl ⟨hb.offsets, hc.offsets⟩)
    hτ ?_ (ha.isArgument_image hawf) hba
  -- an expansion mentions packs only, and none of them is bound to a single term
  intro inner hinner id hid u hu
  have hpack := Term.isPack_of_mem_expansionsList c.args hc.expansions inner hinner id hid
  have hsingle : c.isPack model id = false := (hsuits.singles id u hu).1
  rw [hpack] at hsingle
  exact Bool.noConfusion hsingle

/-! ### Packs -/

/-- An expansion stays an expansion in the image. -/
theorem exists_expansion_image (ha : a.isVariadic = true) :
    ∃ s ∈ a.image model, s.isExpansion = true := by
  obtain ⟨slot, hslot, hexp⟩ := List.any_eq_true.mp ha
  have hmem : slot.term ∈ a.args := List.mem_map_of_mem hslot
  have hall : ∀ ts : List Term, slot.term ∈ ts →
      ∃ s ∈ Term.substList (frozen model a.parameters) ts, s.isExpansion = true := by
    intro ts
    induction ts with
    | nil => exact fun h => absurd h List.not_mem_nil
    | cons t ts ih =>
      intro h
      rw [Term.substList_cons]
      rcases List.mem_cons.mp h with rfl | h
      · obtain ⟨inner, hinner⟩ := Term.exists_of_isExpansion hexp
        rw [hinner, Term.substList, Substitution.applyList]
        rcases hbound : (frozen model a.parameters).boundPack inner with _ | ⟨pack, us⟩
        · exact ⟨_, List.mem_append_left _ List.mem_cons_self, rfl⟩
        · obtain ⟨-, hget⟩ := Substitution.boundPack_inv hbound
          obtain ⟨q, -, ⟨-, heq⟩ | ⟨-, heq⟩⟩ := PlaceholderSupply.exists_of_get?_frozen hget
          · exact Binding.noConfusion heq
          · obtain rfl := Binding.pack.inj heq
            exact ⟨_, List.mem_append_left _ List.mem_cons_self, rfl⟩
      · obtain ⟨s, hs, hexp⟩ := ih h
        exact ⟨s, List.mem_append_right _ hs, hexp⟩
  exact hall a.args hmem

include hrefl htrans in
/-- **A pattern without an expansion covers none with one.** -/
theorem isVariadic_of_covers (hb : b.Regular model) (hba : b.Covers model a)
    (ha : a.isVariadic = true) : b.isVariadic = true := by
  obtain ⟨τ, hτ⟩ := Option.isSome_iff_exists.mp hba
  obtain ⟨xs, hxs, hholds, -, -⟩ := Matching.exists_reading hrefl htrans hb.defaults hτ
  cases hvariadic : b.isVariadic with
  | true => rfl
  | false =>
    have hargs : ∀ t ∈ b.args, t.isExpansion = false := by
      intro t ht
      obtain ⟨slot, hslot, rfl⟩ := List.mem_map.mp ht
      exact Bool.eq_false_iff.mpr (List.any_eq_false.mp hvariadic slot hslot)
    obtain ⟨s, hs, hexp⟩ : ∃ s ∈ a.image model, s.isExpansion = true := exists_expansion_image ha
    have hnone := Matching.isExpansion_of_readList rfl b.args (a.image model) hargs hb.offsets hxs
      (fun f hf => (hholds f hf).holdsFrom) s hs
    rw [hexp] at hnone
    exact Bool.noConfusion hnone

/-! ### The order -/

/-- `a` comes before `b`: `b` covers it and is not covered by it, or `b` alone has an expansion in
its argument list and packs break ties. -/
def Precedes (model : TypeModel) (rules : OrderingRules) (a b : Pattern) : Prop :=
  (b.Covers model a ∧ ¬ a.Covers model b) ∨
    (rules.packTieBreak = true ∧ a.isVariadic = false ∧ b.isVariadic = true)

theorem Precedes.irrefl {rules : OrderingRules} : ¬ a.Precedes model rules a := by
  rintro (⟨hcovers, hnot⟩ | ⟨-, hplain, hvariadic⟩)
  · exact hnot hcovers
  · rw [hplain] at hvariadic
    exact Bool.noConfusion hvariadic

include hrefl hsymm htrans in
/-- **The order of regular patterns is transitive.** -/
theorem Precedes.trans {rules : OrderingRules} (ha : a.Regular model) (hawf : a.WellFormed model)
    (hb : b.Regular model) (hbwf : b.WellFormed model) (hc : c.Regular model)
    (hcwf : c.WellFormed model) (hab : a.Precedes model rules b) (hbc : b.Precedes model rules c) :
    a.Precedes model rules c := by
  rcases hab with ⟨hba, hnot⟩ | ⟨hrule, hplain, hvariadic⟩
  · rcases hbc with ⟨hcb, -⟩ | ⟨hrule, hplain, hvariadic⟩
    · refine .inl ⟨hcb.trans hrefl hsymm htrans ha hawf hb hbwf hc hba, fun hac => hnot ?_⟩
      exact hac.trans hrefl hsymm htrans hb hbwf hc hcwf ha hcb
    · refine .inr ⟨hrule, Bool.eq_false_iff.mpr fun ha' => ?_, hvariadic⟩
      rw [isVariadic_of_covers hrefl htrans hb hba ha'] at hplain
      exact Bool.noConfusion hplain
  · rcases hbc with ⟨hcb, -⟩ | ⟨-, hplain', -⟩
    · exact .inr ⟨hrule, hplain, isVariadic_of_covers hrefl htrans hc hcb hvariadic⟩
    · rw [hplain'] at hvariadic
      exact Bool.noConfusion hvariadic

omit hrefl hsymm htrans in
/-- What a comparison in a class-like family weighs. -/
theorem weigh_aMoreSpecific_iff {rules : OrderingRules} {aSide bSide : Side}
    {aFromB bFromA : Bool} :
    ((Comparator.mk model rules .classLike).weigh a b aSide bSide .neutral aFromB
        bFromA).specificity = .aMoreSpecific ↔
      (aFromB = true ∧ bFromA = false) ∨
        (aFromB = bFromA ∧ rules.packTieBreak = true ∧ a.isVariadic = false ∧
          b.isVariadic = true) := by
  cases aFromB <;> cases bFromA <;> cases hrule : rules.packTieBreak <;>
    cases hva : a.isVariadic <;> cases hvb : b.isVariadic <;>
    simp [Comparator.weigh, Comparator.breakTie, hrule, hva, hvb]

include hrefl htrans in
/-- **In a class-like family a comparison ranks `a` above `b` exactly if `a` comes before `b`.** -/
theorem aMoreSpecific_iff {rules : OrderingRules} (ha : a.Regular model) (hb : b.Regular model)
    (site : Option UseSite) (supply : PlaceholderSupply) :
    (((Comparator.mk model rules .classLike).compareAt a b site).run supply).1.specificity =
        .aMoreSpecific ↔ a.Precedes model rules b := by
  have hplain : a.isVariadic = false → b.isVariadic = true → ¬ a.Covers model b := by
    intro hplain hvariadic hcovers
    rw [isVariadic_of_covers hrefl htrans ha hcovers hvariadic] at hplain
    exact Bool.noConfusion hplain
  have hweigh : (((Comparator.mk model rules .classLike).compareAt a b site).run supply).1 =
      (Comparator.mk model rules .classLike).weigh a b (.ofPattern a) (.ofPattern b) .neutral
        (b.match? model .structural .empty (a.image model)).isSome
        (a.match? model .structural .empty (b.image model)).isSome :=
    Comparator.compareAt_run_fst _ ha.placeholderFree hb.placeholderFree site supply
  rw [hweigh, weigh_aMoreSpecific_iff, Precedes]
  constructor
  · rintro (⟨hba, hab⟩ | ⟨-, htie⟩)
    · exact .inl ⟨hba, Bool.eq_false_iff.mp hab⟩
    · exact .inr htie
  · rintro (⟨hba, hab⟩ | ⟨hrule, hva, hvb⟩)
    · exact .inl ⟨hba, Bool.eq_false_iff.mpr hab⟩
    · -- either `b` covers `a` and the deduction decides, or neither covers the other
      have hab : (a.match? model .structural .empty (b.image model)).isSome = false :=
        Bool.eq_false_iff.mpr (hplain hva hvb)
      rw [hab]
      cases (b.match? model .structural .empty (a.image model)).isSome with
      | true => exact .inl ⟨rfl, rfl⟩
      | false => exact .inr ⟨rfl, hrule, hva, hvb⟩

include hrefl htrans in
theorem bMoreSpecific_iff {rules : OrderingRules} (ha : a.Regular model) (hb : b.Regular model)
    (site : Option UseSite) (supply : PlaceholderSupply) :
    (((Comparator.mk model rules .classLike).compareAt a b site).run supply).1.specificity =
        .bMoreSpecific ↔ b.Precedes model rules a := by
  rw [← aMoreSpecific_iff hrefl htrans hb ha (site.map UseSite.swap) supply,
    Comparator.compareAt_run_fst _ ha.placeholderFree hb.placeholderFree,
    Comparator.compareAt_run_fst _ hb.placeholderFree ha.placeholderFree, Comparator.outcome_swap]
  simp only [Comparison.reversed]
  cases ((Comparator.mk model rules .classLike).outcome a b site).specificity <;>
    simp [Specificity.reversed]

end Order

end Pattern

end TemplateResolution
