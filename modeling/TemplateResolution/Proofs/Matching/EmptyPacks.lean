import TemplateResolution.Proofs.Matching.RoundTrip
import TemplateResolution.Proofs.Specificity.Closed

/-!
# Instances without elements

A pattern whose parameters are all packs has an instance in which every pack is empty: its
expansions vanish, and no parameter is left (`occurrencesList_substList_emptied`).

The pattern reads this instance.  An expansion that is read finds no elements, and that binds its
pack.  But what stands under an offset is not read: it is put aside, to be compared with its target
after all others, under what is bound by then.  So a pack whose expansions stand under offsets only
is not bound, and what was put aside still mentions it, while the target does not.  The instance is
matched if some expansion is read or no parameter is mentioned at all (`match?_emptied`), and only
then (`match?_emptied_inv`).
-/

namespace TemplateResolution

namespace Term

mutual

/-- Whether an expansion stands outside every offset, where it is read. -/
def hasReadExpansion : Term → Bool
  | expansion _ => true
  | apply head args => hasReadExpansion head || hasReadExpansionList args
  | pointer inner | qualified _ inner | reference _ inner => hasReadExpansion inner
  | offset _ _ | param _ | placeholder _ | type _ | value _ _ | template _ => false

def hasReadExpansionList : List Term → Bool
  | [] => false
  | t :: ts => hasReadExpansion t || hasReadExpansionList ts

end

end Term

namespace Pattern

variable {model : TypeModel} {p : Pattern}

/-- The parameters of `ids` are packs of `p`, and `σ` leaves each of them without elements. -/
structure Empties (model : TypeModel) (p : Pattern) (σ : Substitution) (ids : List ParamId) :
    Prop where
  isPack : ∀ id ∈ ids, p.isPack model id = true
  bound : ∀ id ∈ ids, σ.get? id = some (.pack [])

variable {σ : Substitution}

namespace Empties

variable {ids ids' : List ParamId}

theorem left (h : p.Empties model σ (ids ++ ids')) : p.Empties model σ ids :=
  ⟨fun id hid => h.isPack id (List.mem_append_left _ hid),
    fun id hid => h.bound id (List.mem_append_left _ hid)⟩

theorem right (h : p.Empties model σ (ids ++ ids')) : p.Empties model σ ids' :=
  ⟨fun id hid => h.isPack id (List.mem_append_right _ hid),
    fun id hid => h.bound id (List.mem_append_right _ hid)⟩

/-- Nothing is bound to a decorated term, since nothing is bound to a single term. -/
theorem plain (h : p.Empties model σ ids) :
    ∀ id ∈ ids, ∀ u, σ.get? id = some (.single u) → u.IsPlain := by
  intro id hid u hu
  exact Binding.noConfusion (Option.some.inj (hu.symm.trans (h.bound id hid)))

end Empties

/-- Outside expansions there is no parameter. -/
theorem not_checkUsage_param {id : ParamId} (hpack : p.isPack model id = true) :
    p.checkUsage model (.param id) false ≠ .ok () := by
  obtain ⟨q, hq, hisPack⟩ := (Option.any_eq_true _ _).mp hpack
  intro h
  rw [checkUsage, hq] at h
  simp only [hisPack] at h
  exact Except.noConfusion rfl rfl (heq_of_eq h)

/-- An expansion vanishes. -/
theorem Empties.substList_expansion {inner : Term} (h : p.Empties model σ inner.occurrences)
    (hany : inner.occurrences.any (p.isPack model) = true) (ts : List Term) :
    Term.substList σ (.expansion inner :: ts) = Term.substList σ ts := by
  obtain ⟨id, hid, -⟩ := List.any_eq_true.mp hany
  cases hbound : σ.boundPack inner with
  | none =>
    have hnone := List.findSome?_eq_none_iff.mp hbound id hid
    rw [h.bound id hid] at hnone
    exact absurd hnone (Option.some_ne_none _)
  | some found =>
    obtain ⟨pack, elements⟩ := found
    obtain ⟨hmem, hpack⟩ := Substitution.boundPack_inv hbound
    obtain rfl : elements = [] :=
      Binding.pack.inj (Option.some.inj (hpack.symm.trans (h.bound pack hmem)))
    rw [Term.substList, Substitution.applyList, hbound]
    rfl

/-! ### Where expansions stand -/

/-- The term is normal, its packs are expanded, and its expansions are the last items of lists. -/
structure Arranges (model : TypeModel) (p : Pattern) (t : Term) : Prop where
  normal : t.isNormal = true
  usage : p.checkUsage model t false = .ok ()
  lists : t.expandsInLists = true
  placed : misplacesExpansion t = false

structure ArrangesList (model : TypeModel) (p : Pattern) (ts : List Term) : Prop where
  normal : Term.isNormalList ts = true
  usage : p.checkUsageList model ts false = .ok ()
  lists : Term.expandsInListsList ts = true
  last : hasInnerExpansion ts = false
  placed : misplacesExpansionList ts = false

theorem Arranges.apply {head : Term} {args : List Term} (h : p.Arranges model (.apply head args)) :
    p.Arranges model head ∧ p.ArrangesList model args := by
  obtain ⟨hnormal, husage, hlists, hplaced⟩ := h
  obtain ⟨hnormal, hnormals⟩ := (Bool.and_eq_true _ _).mp hnormal
  obtain ⟨hlists, hlistss⟩ := (Bool.and_eq_true _ _).mp hlists
  rw [checkUsage] at husage
  obtain ⟨⟨⟩, husage, husages⟩ := except_bind_eq_ok.mp husage
  rw [misplacesExpansion, Bool.or_eq_false_iff, Bool.or_eq_false_iff] at hplaced
  exact ⟨⟨hnormal, husage, hlists, hplaced.1.1⟩,
    ⟨hnormals, husages, hlistss, hplaced.1.2, hplaced.2⟩⟩

theorem Arranges.qualified {quals : Qualifiers} {inner : Term}
    (h : p.Arranges model (.qualified quals inner)) : p.Arranges model inner :=
  ⟨(Term.isNormal_qualified.mp h.normal).2.2.2, h.usage, h.lists, h.placed⟩

theorem Arranges.reference {kind : RefKind} {inner : Term}
    (h : p.Arranges model (.reference kind inner)) : p.Arranges model inner :=
  ⟨(Term.isNormal_reference.mp h.normal).2, h.usage, h.lists, h.placed⟩

theorem ArrangesList.cons {t : Term} {ts : List Term} (h : p.ArrangesList model (t :: ts))
    (ht : t.isExpansion = false) : p.Arranges model t ∧ p.ArrangesList model ts := by
  obtain ⟨hnormal, husage, hlists, hlast, hplaced⟩ := h
  obtain ⟨hnormal, hnormals⟩ := (Bool.and_eq_true _ _).mp hnormal
  rw [Term.expandsInListsList_cons ht, Bool.and_eq_true] at hlists
  rw [checkUsageList] at husage
  obtain ⟨⟨⟩, husage, husages⟩ := except_bind_eq_ok.mp husage
  rw [misplacesExpansionList, Bool.or_eq_false_iff] at hplaced
  refine ⟨⟨hnormal, husage, hlists.1, hplaced.1⟩, ⟨hnormals, husages, hlists.2, ?_, hplaced.2⟩⟩
  cases ts with
  | nil => rfl
  | cons u ts =>
    rw [hasInnerExpansion, List.dropLast_cons_cons, List.any_cons, Bool.or_eq_false_iff] at hlast
    exact hlast.2

/-- Nothing stands behind an expansion, and it mentions a pack. -/
theorem ArrangesList.expansion {inner : Term} {ts : List Term}
    (h : p.ArrangesList model (.expansion inner :: ts)) :
    ts = [] ∧ inner.occurrences.any (p.isPack model) = true := by
  have husage := h.usage
  rw [checkUsageList] at husage
  obtain ⟨⟨⟩, husage, -⟩ := except_bind_eq_ok.mp husage
  rw [checkUsage] at husage
  constructor
  · cases ts with
    | nil => rfl
    | cons u ts => exact Bool.noConfusion h.last
  · split at husage
    · assumption
    · exact Except.noConfusion rfl rfl (heq_of_eq husage)

/-- What registration checks of an argument list arranges it. -/
theorem WellFormed.arrangesList (h : p.WellFormed model)
    (hnormal : ∀ t ∈ p.args, t.isNormal = true)
    (hlists : Term.expandsInListsList p.args = true) : p.ArrangesList model p.args := by
  obtain ⟨hlast, husage⟩ := checkArguments_inv h.arguments
  refine ⟨Term.isNormalList_iff.mpr hnormal, husage, hlists, hlast, ?_⟩
  have harguments := h.arguments
  rw [checkArguments, hlast, if_neg Bool.false_ne_true] at harguments
  obtain ⟨-, -, hplaced⟩ := except_bind_eq_ok.mp harguments
  split at hplaced
  · exact Except.noConfusion rfl rfl (heq_of_eq hplaced)
  · rename_i hnot
    exact Bool.eq_false_iff.mpr hnot

/-! ### No parameter is left -/

mutual

/-- A parameter stands inside expansions only, and these vanish. -/
theorem occurrences_subst_emptied : ∀ t : Term, p.Arranges model t →
    p.Empties model σ t.occurrences → (t.subst σ).occurrences = []
  | .param id, h, hσ =>
    absurd h.usage (not_checkUsage_param (hσ.isPack id (List.mem_singleton_self id)))
  | .placeholder _, _, _ | .type _, _, _ | .value _ _, _, _ | .template _, _, _ => rfl
  | .expansion _, h, _ => Bool.noConfusion h.lists
  | .pointer t, h, hσ => occurrences_subst_emptied t ⟨h.normal, h.usage, h.lists, h.placed⟩ hσ
  | .qualified quals t, h, hσ => by
    rw [Term.subst, Substitution.apply, Term.occurrences_qualify]
    exact occurrences_subst_emptied t h.qualified hσ
  | .reference kind t, h, hσ => by
    rw [Term.subst, Substitution.apply, Term.occurrences_refer]
    exact occurrences_subst_emptied t h.reference hσ
  | .offset t delta, h, hσ => by
    rw [Term.subst, Substitution.apply, Term.occurrences_plus]
    exact occurrences_subst_emptied t ⟨h.normal, h.usage, h.lists, h.placed⟩ hσ
  | .apply head args, h, hσ => by
    obtain ⟨hhead, hargs⟩ := h.apply
    exact List.append_eq_nil_iff.mpr ⟨occurrences_subst_emptied head hhead hσ.left,
      occurrencesList_substList_emptied args hargs hσ.right⟩

theorem occurrencesList_substList_emptied : ∀ ts : List Term, p.ArrangesList model ts →
    p.Empties model σ (Term.occurrencesList ts) →
    Term.occurrencesList (Term.substList σ ts) = []
  | [], _, _ => rfl
  | t :: ts, h, hσ => by
    by_cases hexp : t.isExpansion = true
    · obtain ⟨inner, rfl⟩ := Term.exists_of_isExpansion hexp
      obtain ⟨rfl, hany⟩ := h.expansion
      have hinner : p.Empties model σ inner.occurrences := hσ.left
      rw [hinner.substList_expansion hany]
      rfl
    · rw [Bool.not_eq_true] at hexp
      obtain ⟨hterm, hrest⟩ := h.cons hexp
      have hterm := occurrences_subst_emptied t hterm hσ.left
      have hrest := occurrencesList_substList_emptied ts hrest hσ.right
      rw [Term.substList] at hrest ⊢
      rw [Substitution.applyList_cons hexp]
      exact List.append_eq_nil_iff.mpr ⟨hterm, hrest⟩

end

end Pattern

/-! ### What is read -/

namespace Matching

/-- What a pattern reads in its instance without elements: expansions that found nothing, and
offsets put aside.  `found` tells whether it has an expansion to read, and `ids` are its
parameters. -/
structure ReadsEmptied (σ : Substitution) (found : Bool) (ids : List ParamId)
    (xs : List Finding) : Prop where
  clues : ∀ c, .clue c ∈ xs → ∃ t, c = .defer t (t.subst σ)
  elements : ∀ pack targets, .elements pack targets ∈ xs → targets = [] ∧
    σ.get? pack = some (.pack [])
  found_iff : found = true ↔ ∃ pack targets, .elements pack targets ∈ xs
  deferred : found = false → ∀ id ∈ ids, ∃ t u, .clue (.defer t u) ∈ xs ∧ id ∈ t.occurrences ∧
    u.occurrences = []

namespace ReadsEmptied

variable {σ : Substitution} {found found' : Bool} {ids ids' : List ParamId} {xs ys : List Finding}

theorem nil : ReadsEmptied σ false [] [] :=
  ⟨fun _ h => absurd h List.not_mem_nil, fun _ _ h => absurd h List.not_mem_nil,
    ⟨fun h => Bool.noConfusion h, fun ⟨_, _, h⟩ => absurd h List.not_mem_nil⟩,
    fun _ _ h => absurd h List.not_mem_nil⟩

theorem append (h : ReadsEmptied σ found ids xs) (h' : ReadsEmptied σ found' ids' ys) :
    ReadsEmptied σ (found || found') (ids ++ ids') (xs ++ ys) := by
  constructor
  · exact fun c hc => (List.mem_append.mp hc).elim (h.clues c) (h'.clues c)
  · exact fun pack targets hf =>
      (List.mem_append.mp hf).elim (h.elements pack targets) (h'.elements pack targets)
  · simp only [Bool.or_eq_true, h.found_iff, h'.found_iff, List.mem_append, exists_or]
  · intro hfound id hid
    obtain ⟨hfound, hfound'⟩ := Bool.or_eq_false_iff.mp hfound
    rcases List.mem_append.mp hid with hid | hid
    · obtain ⟨t, u, hmem, hdeferred⟩ := h.deferred hfound id hid
      exact ⟨t, u, List.mem_append_left _ hmem, hdeferred⟩
    · obtain ⟨t, u, hmem, hdeferred⟩ := h'.deferred hfound' id hid
      exact ⟨t, u, List.mem_append_right _ hmem, hdeferred⟩

theorem defer {t : Term} (hclosed : (t.subst σ).occurrences = []) :
    ReadsEmptied σ false t.occurrences [.clue (.defer t (t.subst σ))] := by
  constructor
  · exact fun c hc => ⟨t, Finding.clue.inj (List.mem_singleton.mp hc)⟩
  · exact fun _ _ hf => Finding.noConfusion (List.mem_singleton.mp hf)
  · exact ⟨fun h => Bool.noConfusion h,
      fun ⟨_, _, hf⟩ => Finding.noConfusion (List.mem_singleton.mp hf)⟩
  · exact fun _ id hid => ⟨t, _, List.mem_singleton_self _, hid, hclosed⟩

theorem expansion {pack : ParamId} (hpack : σ.get? pack = some (.pack [])) (ids : List ParamId) :
    ReadsEmptied σ true ids [.elements pack []] := by
  constructor
  · exact fun c hc => Finding.noConfusion (List.mem_singleton.mp hc)
  · intro pack' targets hf
    obtain ⟨rfl, rfl⟩ := Finding.elements.inj (List.mem_singleton.mp hf)
    exact ⟨rfl, hpack⟩
  · exact ⟨fun _ => ⟨pack, [], List.mem_singleton_self _⟩, fun _ => rfl⟩
  · exact fun h => Bool.noConfusion h

/-- What is read holds. -/
theorem holds (h : ReadsEmptied σ found ids xs) {m : Matching} :
    ∀ f ∈ xs, f.Holds m (· == ·) σ := by
  intro f hf
  cases f with
  | clue c =>
    obtain ⟨t, rfl⟩ := h.clues c hf
    exact Term.same_refl (fun n => beq_self_eq_true n) _
  | elements pack targets =>
    obtain ⟨rfl, hpack⟩ := h.elements pack targets hf
    exact ⟨[], hpack, .nil⟩

end ReadsEmptied

variable {model : TypeModel} {p : Pattern} {σ : Substitution}

mutual

/-- **A pattern reads its instance without elements.** -/
theorem read_subst_emptied (hrefl : ∀ n, model.sameLeaf n n = true) : ∀ (t : Term) (k : Nat),
    p.Arranges model t → p.Empties model σ t.occurrences →
    ∃ xs, (structural model p.parameters).read t (t.subst σ) k = some xs ∧
      ReadsEmptied σ t.hasReadExpansion t.occurrences xs
  | .param id, k, h, hσ =>
    absurd h.usage (Pattern.not_checkUsage_param (hσ.isPack id (List.mem_singleton_self id)))
  | .offset base delta, k, h, hσ =>
    -- whatever expansions it has are not read
    ⟨_, rfl, .defer (Pattern.occurrences_subst_emptied (.offset base delta) h hσ)⟩
  | .placeholder _, k, _, _ => ⟨[], by simp [Term.subst, Substitution.apply, read], .nil⟩
  | .type _, k, _, _ | .template _, k, _, _ | .value _ _, k, _, _ =>
    ⟨[], by simp [Term.subst, Substitution.apply, read, structural, hrefl], .nil⟩
  | .expansion _, k, h, _ => Bool.noConfusion h.lists
  | .pointer inner, k, h, hσ =>
    read_subst_emptied hrefl inner k ⟨h.normal, h.usage, h.lists, h.placed⟩ hσ
  | .qualified quals inner, k, h, hσ => by
    obtain ⟨xs, hxs, hreads⟩ := read_subst_emptied hrefl inner k h.qualified hσ
    refine ⟨xs, ?_, hreads⟩
    rw [Term.subst_qualified h.normal hσ.plain, read_qualified rfl, Term.withoutQuals_qualified,
      hxs]
    exact if_pos (Qualifiers.includes_refl quals)
  | .reference kind inner, k, h, hσ => by
    obtain ⟨xs, hxs, hreads⟩ := read_subst_emptied hrefl inner k h.reference hσ
    refine ⟨xs, ?_, hreads⟩
    rw [Term.subst_reference h.normal hσ.plain, read, if_pos rfl, hxs]
  | .apply head args, k, h, hσ => by
    obtain ⟨hhead, hargs⟩ := h.apply
    obtain ⟨xs, hxs, hreads⟩ := read_subst_emptied hrefl head k hhead hσ.left
    obtain ⟨ys, hys, hreads'⟩ := readList_subst_emptied hrefl args k hargs hσ.right
    refine ⟨xs ++ ys, ?_, hreads.append hreads'⟩
    have hsubst : (Term.apply head args).subst σ =
        .apply (head.subst σ) (Term.substList σ args) := rfl
    rw [hsubst, read]
    exact Finding.join_eq_some.mpr ⟨xs, ys, hxs, hys, rfl⟩

theorem readList_subst_emptied (hrefl : ∀ n, model.sameLeaf n n = true) :
    ∀ (ts : List Term) (k : Nat), p.ArrangesList model ts →
    p.Empties model σ (Term.occurrencesList ts) →
    ∃ xs, (structural model p.parameters).readList ts (Term.substList σ ts) k = some xs ∧
      ReadsEmptied σ (Term.hasReadExpansionList ts) (Term.occurrencesList ts) xs
  | [], k, _, _ => ⟨[], rfl, .nil⟩
  | t :: ts, k, h, hσ => by
    by_cases hexp : t.isExpansion = true
    · obtain ⟨inner, rfl⟩ := Term.exists_of_isExpansion hexp
      obtain ⟨rfl, hany⟩ := h.expansion
      obtain ⟨pack, hpackOf⟩ : ∃ pack,
          (structural model p.parameters).packOf inner = some pack :=
        Option.isSome_iff_exists.mp (List.find?_isSome.mpr (List.any_eq_true.mp hany))
      have hinner : p.Empties model σ inner.occurrences := hσ.left
      have hbound : σ.get? pack = some (.pack []) :=
        hinner.bound pack (List.mem_of_find?_eq_some hpackOf)
      refine ⟨[.elements pack []], ?_, .expansion hbound _⟩
      rw [hinner.substList_expansion hany]
      exact readList_expansion_eq_some.mpr ⟨pack, [], [], hpackOf, .nil, rfl, rfl⟩
    · rw [Bool.not_eq_true] at hexp
      obtain ⟨hterm, hrest⟩ := h.cons hexp
      obtain ⟨xs, hxs, hreads⟩ := read_subst_emptied hrefl t k hterm hσ.left
      obtain ⟨ys, hys, hreads'⟩ := readList_subst_emptied hrefl ts k hrest hσ.right
      refine ⟨xs ++ ys, ?_, hreads.append hreads'⟩
      have hsubst : Term.substList σ (t :: ts) = t.subst σ :: Term.substList σ ts :=
        Substitution.applyList_cons hexp ts σ
      rw [hsubst, readList_cons _ hexp]
      exact Finding.join_eq_some.mpr ⟨xs, ys, hxs, hys, rfl⟩

end

end Matching

/-! ### What is matched -/

namespace Pattern

variable {model : TypeModel} {p : Pattern} {σ : Substitution}

/-- **Without elements, an instance is matched if an expansion is read** or there is nothing to
bind.  Only packs are bound by the match, to no elements. -/
theorem match?_emptied (hrefl : ∀ n, model.sameLeaf n n = true) (hp : p.WellFormed model)
    (harranges : p.ArrangesList model p.args)
    (hσ : p.Empties model σ (Term.occurrencesList p.args))
    (hempty : ∀ id b, σ.get? id = some b → b = .pack [])
    (hfound : Term.hasReadExpansionList p.args = true ∨ Term.occurrencesList p.args = []) :
    ∃ τ, p.match? model .structural .empty (Term.substList σ p.args) = some τ ∧
      ∀ id b, τ.get? id = some b → b = .pack [] := by
  let m := Matching.structural model p.parameters
  obtain ⟨xs, hxs, hreads⟩ := Matching.readList_subst_emptied hrefl p.args 0 harranges hσ
  have hwithin := Matching.within_readList p.args _ 0 xs hxs
  have hsingles : ∀ id t, σ.get? id = some (.single t) → m.isPack id = false :=
    fun id t ht => Binding.noConfusion (hempty id _ ht)
  have hbinds : ∀ f ∈ xs, ∀ t u, .defer t u ∈ f.clues → ∀ id ∈ t.occurrences,
      (σ.get? id).isSome = true → ∃ g ∈ xs, g.Binds id := by
    intro f hf t u hdefer id hid _
    have hmem : id ∈ Term.occurrencesList p.args := (hwithin f hf).clues _ hdefer id hid
    rcases hfound with hfound | hnone
    · obtain ⟨pack, targets, hpack⟩ := hreads.found_iff.mp hfound
      obtain rfl := hp.isPack_unique id pack (hσ.isPack id hmem) (hwithin _ hpack).packs
      exact ⟨_, hpack, .inl ⟨targets, rfl⟩⟩
    · rw [hnone] at hmem
      exact absurd hmem List.not_mem_nil
  obtain ⟨τ, hτ, hget, -⟩ := Matching.run_of_holds_self hrefl hxs hsingles hreads.holds hbinds
  exact ⟨τ, hτ, fun id b hb => hempty id b (hget id b hb)⟩

/-- **And only then:** what is put aside mentions a pack that is not bound, and its target none. -/
theorem match?_emptied_inv (hrefl : ∀ n, model.sameLeaf n n = true)
    (htrans : ∀ k l n, model.sameLeaf k l = true → model.sameLeaf l n = true →
      model.sameLeaf k n = true)
    (harranges : p.ArrangesList model p.args)
    (hσ : p.Empties model σ (Term.occurrencesList p.args)) {τ : Substitution}
    (hτ : p.match? model .structural .empty (Term.substList σ p.args) = some τ) :
    Term.hasReadExpansionList p.args = true ∨ Term.occurrencesList p.args = [] := by
  obtain ⟨xs, hxs, hreads⟩ := Matching.readList_subst_emptied hrefl p.args 0 harranges hσ
  obtain ⟨ys, -, hys, -, -, hholds, -, hbinds⟩ := Matching.run_sound hrefl htrans hτ
  obtain rfl : xs = ys := Option.some.inj
    ((Matching.readSlots_of_readList rfl p.slots 0 _ xs hxs).symm.trans hys)
  cases hfound : Term.hasReadExpansionList p.args with
  | true => exact .inl rfl
  | false =>
    refine .inr (List.eq_nil_iff_forall_not_mem.mpr fun id hid => ?_)
    -- nothing is bound
    have hnone : ∀ j, τ.get? j = none := by
      intro j
      rw [← Option.not_isSome_iff_eq_none, hbinds j]
      rintro ⟨f, hf, hbind⟩
      cases f with
      | elements pack targets =>
        have htrue := hreads.found_iff.mpr ⟨pack, targets, hf⟩
        rw [hfound] at htrue
        exact Bool.noConfusion htrue
      | clue c =>
        obtain ⟨t, rfl⟩ := hreads.clues c hf
        simp [Finding.Binds, Finding.clues] at hbind
    obtain ⟨t, u, hmem, hid, hclosed⟩ := hreads.deferred hfound id hid
    have hsame : (t.subst τ).same model.sameLeaf u = true := hholds _ hmem
    have hnil : (t.subst τ).occurrences = [] :=
      (Term.occurrences_eq_of_same _ _ hsame).trans hclosed
    have hfree : τ.PackFree := by
      intro j ts hts
      rw [hnone j] at hts
      exact Option.some_ne_none _ hts.symm
    obtain ⟨v, hv⟩ := hfree.exists_single hnil id hid
    rw [hnone id] at hv
    exact Option.some_ne_none _ hv.symm

end Pattern

end TemplateResolution
