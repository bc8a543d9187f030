import TemplateResolution.Matching.Deduction
import TemplateResolution.Proofs.Substitution.Support
import TemplateResolution.Proofs.Term.Equality

/-!
# Completions of a deduction

What a match has found is judged from its end.  A substitution completes a
deduction when it keeps all bindings found so far and makes the deferred terms
agree (`Completes`); inside an expansion that goes together with an element for
the pack in progress, which stands for the pack there (`Deduction.view`).

A step of the matcher explains a fact when every completion of the new state
completes the old one and has that fact in view (`Explains`).  Explanations
compose (`Explains.trans`), so each step of the matcher is looked at by itself:
this module does it for binding, deferring and expanding.
-/

namespace TemplateResolution

namespace Term

/-- A term as a match expects it for a target: normal, and without parameters. -/
structure IsArgument (t : Term) : Prop where
  normal : t.isNormal = true
  closed : t.occurrences = []

theorem IsArgument.expanded {t : Term} (h : t.IsArgument) : t.expanded.IsArgument :=
  ⟨isNormal_expanded h.normal, by rw [occurrences_expanded, h.closed]⟩

theorem IsArgument.referee {t : Term} (h : t.IsArgument) : t.referee.IsArgument :=
  ⟨isNormal_referee h.normal, by rw [occurrences_referee, h.closed]⟩

theorem IsArgument.unqualified {t : Term} (h : t.IsArgument) : t.unqualified.IsArgument :=
  ⟨isNormal_unqualified h.normal, by rw [occurrences_unqualified, h.closed]⟩

theorem IsArgument.withoutQuals {t : Term} (h : t.IsArgument) (quals : Qualifiers) :
    (t.withoutQuals quals).IsArgument := by
  refine ⟨isNormal_withoutQuals h.normal quals, ?_⟩
  rw [Term.withoutQuals, occurrences_qualify, occurrences_unqualified, h.closed]

theorem IsArgument.head {head : Term} {args : List Term} (h : (apply head args).IsArgument) :
    head.IsArgument :=
  ⟨(isNormal_apply.mp h.normal).1, (List.append_eq_nil_iff.mp h.closed).1⟩

theorem IsArgument.args {head : Term} {args : List Term} (h : (apply head args).IsArgument) :
    ∀ t ∈ args, t.IsArgument := by
  have hclosed : occurrencesList args = [] := (List.append_eq_nil_iff.mp h.closed).2
  intro t ht
  refine ⟨(isNormal_apply.mp h.normal).2 t ht, List.eq_nil_iff_forall_not_mem.mpr ?_⟩
  intro id hid
  have hmem : id ∈ occurrencesList args := mem_occurrencesList.mpr ⟨t, ht, hid⟩
  rw [hclosed] at hmem
  exact List.not_mem_nil hmem

end Term

/-- Only parameters that are packs are bound to packs. -/
def Matching.Kinded (m : Matching) (σ : Substitution) : Prop :=
  ∀ id ts, σ.get? id = some (.pack ts) → m.isPack id = true

namespace Deduction

/-- The pack in progress. -/
def pack? (d : Deduction) : Option ParamId := d.element.map (·.1)

/-- The element found for the pack in progress is not an expansion. -/
def Plain (d : Deduction) : Prop :=
  ∀ pack t, d.element = some (pack, some t) → t.isExpansion = false

/-- What stands for the parameters at this point: the pack in progress stands for its element. -/
def view (d : Deduction) (σ : Substitution) (e : Term) : Substitution :=
  match d.pack? with
  | none => σ
  | some pack => σ.insert pack (.single e)

theorem view_congr {d d' : Deduction} (h : d'.pack? = d.pack?) (σ : Substitution) (e : Term) :
    d'.view σ e = d.view σ e := by
  rw [view, view, h]

theorem get?_view_of_ne {d : Deduction} {id : ParamId} (h : d.pack? ≠ some id) (σ : Substitution)
    (e : Term) : (d.view σ e).get? id = σ.get? id := by
  rw [view]
  cases hpack : d.pack? with
  | none => rfl
  | some pack =>
    have hne : id ≠ pack := fun heq => h (heq ▸ hpack)
    exact (Substitution.get?_insert σ pack id _).trans (if_neg hne)

theorem get?_view_pack {d : Deduction} {pack : ParamId} (h : d.pack? = some pack)
    (σ : Substitution) (e : Term) : (d.view σ e).get? pack = some (.single e) := by
  rw [view, h]
  exact Substitution.get?_insert_self σ pack _

end Deduction

/-- `σ` is a possible outcome of `d`, with `e` for the pack in progress. -/
structure Completes (m : Matching) (σ : Substitution) (e : Term) (d : Deduction) : Prop where
  kinded : m.Kinded σ
  bound : ∀ id b, d.substitution.get? id = some b → σ.get? id = some b
  deferred : ∀ pt ∈ d.deferred, m.model.sameTerm (pt.1.subst σ) pt.2 = true
  pack : ∀ pack ∈ d.pack?, ∃ ts, σ.get? pack = some (.pack ts)
  element : ∀ pack t, d.element = some (pack, some t) → m.model.sameTerm e t = true

namespace Completes

/-- A new binding takes nothing away from the old ones. -/
theorem of_insert {m : Matching} {σ : Substitution} {e : Term} {d : Deduction} {id : ParamId}
    {b : Binding} (hnone : d.substitution.get? id = none)
    (h : Completes m σ e { d with substitution := d.substitution.insert id b }) :
    Completes m σ e d := by
  refine ⟨h.kinded, ?_, h.deferred, h.pack, h.element⟩
  intro j c hj
  have hne : j ≠ id := by
    intro heq
    rw [heq, hnone] at hj
    exact Option.some_ne_none c hj.symm
  refine h.bound j c ?_
  rw [Substitution.get?_insert, if_neg hne, hj]

/-- What completes a deduction for some element completes it as it was before the expansion. -/
theorem of_element {m : Matching} {σ : Substitution} {e e' : Term} {d : Deduction}
    (hd : d.element = none) {element : Option (ParamId × Option Term)}
    (h : Completes m σ e' { d with element := element }) : Completes m σ e d := by
  refine ⟨h.kinded, h.bound, h.deferred, ?_, ?_⟩
  · intro pack hpack
    rw [Deduction.pack?, hd] at hpack
    exact absurd hpack (Option.not_mem_none pack)
  · intro pack t ht
    rw [hd] at ht
    exact absurd ht (Option.some_ne_none _).symm

end Completes

/-- The way from `d` to `d'` shows that `fact` holds in view of every outcome. -/
structure Explains (m : Matching) (fact : Substitution → Prop) (d d' : Deduction) : Prop where
  pack : d'.pack? = d.pack?
  kinded : m.Kinded d.substitution → m.Kinded d'.substitution
  plain : d.Plain → d'.Plain
  sound : ∀ σ e, Completes m σ e d' → Completes m σ e d ∧ fact (d.view σ e)

namespace Explains

variable {m : Matching} {fact fact' : Substitution → Prop} {d d' d'' : Deduction}

theorem refl (h : ∀ σ e, Completes m σ e d → fact (d.view σ e)) : Explains m fact d d :=
  ⟨rfl, id, id, fun σ e hcompletes => ⟨hcompletes, h σ e hcompletes⟩⟩

/-- A comparison that leaves the deduction as it was. -/
theorem of_guard {c : Prop} [Decidable c] (h : (if c then some d else none) = some d')
    (hfact : c → ∀ v, fact v) : Explains m fact d d' := by
  split at h
  · rename_i hc
    obtain rfl := Option.some.inj h
    exact .refl fun σ e _ => hfact hc (d.view σ e)
  · exact absurd h (Option.some_ne_none d').symm

theorem trans (h : Explains m fact d d') (h' : Explains m fact' d' d'') :
    Explains m (fun v => fact v ∧ fact' v) d d'' := by
  refine ⟨h'.pack.trans h.pack, ?_, ?_, ?_⟩
  · intro hk
    exact h'.kinded (h.kinded hk)
  · intro hp
    exact h'.plain (h.plain hp)
  · intro σ e hcompletes
    obtain ⟨hd', hfact'⟩ := h'.sound σ e hcompletes
    obtain ⟨hd, hfact⟩ := h.sound σ e hd'
    rw [Deduction.view_congr h.pack] at hfact'
    exact ⟨hd, hfact, hfact'⟩

theorem mono (h : Explains m fact d d') (himp : ∀ v, fact v → fact' v) : Explains m fact' d d' :=
  ⟨h.pack, h.kinded, h.plain, fun σ e hcompletes =>
    ⟨(h.sound σ e hcompletes).1, himp _ (h.sound σ e hcompletes).2⟩⟩

end Explains

namespace Deduction

variable {m : Matching}

/-! ### Binding one parameter -/

section Bind

variable (hrefl : ∀ n, m.model.sameLeaf n n = true)
  (htrans : ∀ k l n, m.model.sameLeaf k l = true → m.model.sameLeaf l n = true →
    m.model.sameLeaf k n = true)

theorem kinded_insert_single {σ : Substitution} (h : m.Kinded σ) (id : ParamId) (t : Term) :
    m.Kinded (σ.insert id (.single t)) := by
  intro j ts hj
  rw [Substitution.get?_insert] at hj
  split at hj
  · exact Binding.noConfusion (Option.some.inj hj)
  · exact h j ts hj

include hrefl in
theorem bindSingle_explains {id : ParamId} {t : Term} {d d' : Deduction}
    (hne : d.pack? ≠ some id) (h : d.bindSingle m id t = some d') :
    Explains m (fun v => m.model.sameTerm ((Term.param id).subst v) t = true) d d' := by
  rw [bindSingle] at h
  split at h
  · exact absurd h (Option.some_ne_none d').symm
  · split at h
    · exact absurd h (Option.some_ne_none d').symm
    · split at h
      · -- the parameter is bound already, and the binding is confirmed
        rename_i u hget
        split at h
        · rename_i hsame
          obtain rfl := Option.some.inj h
          refine .refl fun σ e hcompletes => ?_
          have hview := (get?_view_of_ne hne σ e).trans (hcompletes.bound id _ hget)
          rw [Term.subst, Substitution.apply, Substitution.atParam, hview]
          exact hsame
        · exact absurd h (Option.some_ne_none d').symm
      · exact absurd h (Option.some_ne_none d').symm
      · rename_i hget
        obtain rfl := Option.some.inj h
        refine ⟨rfl, fun hk => kinded_insert_single hk id t, fun hp => hp, ?_⟩
        intro σ e hcompletes
        refine ⟨hcompletes.of_insert hget, ?_⟩
        have hbound := hcompletes.bound id _ (Substitution.get?_insert_self d.substitution id _)
        have hview := (get?_view_of_ne hne σ e).trans hbound
        rw [Term.subst, Substitution.apply, Substitution.atParam, hview]
        exact Term.same_refl hrefl t

include htrans in
/-- An element that was found before is confirmed, which takes transitivity: what stands for the
pack in the end is the same as the element found first. -/
theorem bindElement_explains {pack : ParamId} {found : Option Term} {t : Term} {d d' : Deduction}
    (helement : d.element = some (pack, found)) (ht : t.isExpansion = false)
    (h : d.bindElement m pack found t = some d') :
    Explains m (fun v => m.model.sameTerm ((Term.param pack).subst v) t = true) d d' := by
  have hpack : d.pack? = some pack := by rw [pack?, helement]; rfl
  have hview := fun σ e => get?_view_pack hpack σ e
  cases found with
  | some u =>
    rw [bindElement] at h
    split at h
    · rename_i hsame
      obtain rfl := Option.some.inj h
      refine .refl fun σ e hcompletes => ?_
      rw [Term.subst, Substitution.apply, Substitution.atParam, hview σ e]
      exact Term.same_trans htrans e u t (hcompletes.element pack u helement) hsame
    · exact absurd h (Option.some_ne_none d').symm
  | none =>
    obtain rfl := Option.some.inj h
    refine ⟨hpack.symm, fun hk => hk, ?_, ?_⟩
    · intro _ p u hu
      obtain ⟨-, hu⟩ := Prod.mk.inj (Option.some.inj hu)
      rwa [← Option.some.inj hu]
    · intro σ e hcompletes
      refine ⟨⟨hcompletes.kinded, hcompletes.bound, hcompletes.deferred, ?_, ?_⟩, ?_⟩
      · intro p hp
        rw [hpack] at hp
        exact hcompletes.pack p hp
      · intro p u hu
        rw [helement] at hu
        exact absurd (Prod.mk.inj (Option.some.inj hu)).2 (Option.some_ne_none u).symm
      · rw [Term.subst, Substitution.apply, Substitution.atParam, hview σ e]
        exact hcompletes.element pack t rfl

include hrefl htrans in
theorem bind_explains {id : ParamId} {t : Term} {d d' : Deduction} (ht : t.isExpansion = false)
    (h : d.bind m id t = some d') :
    Explains m (fun v => m.model.sameTerm ((Term.param id).subst v) t = true) d d' := by
  rw [bind] at h
  rcases helement : d.element with _ | ⟨pack, found⟩
  · rw [helement] at h
    have hne : d.pack? ≠ some id := by
      rw [pack?, helement]
      exact (Option.some_ne_none id).symm
    exact bindSingle_explains hrefl hne h
  · rw [helement] at h
    dsimp only at h
    split at h
    · rename_i heq
      subst heq
      exact bindElement_explains htrans helement ht h
    · rename_i hpack
      have hne : d.pack? ≠ some id := by
        rw [pack?, helement]
        exact fun heq => hpack (Option.some.inj heq)
      exact bindSingle_explains hrefl hne h

/-- What a parameter accepts is one argument, not an expansion. -/
theorem isExpansion_of_accepts {model : TypeModel} {p : Parameter} {t : Term}
    (h : model.accepts p t = true) : t.isExpansion = false := by
  cases t with
  | expansion inner =>
    unfold TypeModel.accepts at h
    cases hkind : model.argumentKind p <;> rw [hkind] at h <;> exact Bool.noConfusion h
  | _ => rfl

include hrefl htrans in
theorem bindArgument_explains {id : ParamId} {t : Term} {d d' : Deduction}
    (h : d.bindArgument m id t = some d') :
    Explains m (fun v => m.model.sameTerm ((Term.param id).subst v) t = true) d d' := by
  rw [bindArgument] at h
  split at h
  · rename_i haccepts
    obtain ⟨p, -, hp⟩ := (Option.any_eq_true _ _).mp haccepts
    exact bind_explains hrefl htrans (isExpansion_of_accepts hp) h
  · exact absurd h (Option.some_ne_none d').symm

end Bind

/-! ### Deferring an offset -/

/-- A deferred offset does not mention the pack in progress: outside expansions that would leave a
parameter standing at the end, and its expansions do not by assumption. -/
theorem defer_explains {d : Deduction} {base target : Term} {delta : Int}
    (havoid : ∀ pack ∈ d.pack?, ∀ nested ∈ base.expansions, pack ∉ nested.occurrences)
    (hclosed : target.occurrences = []) :
    Explains m (fun v => m.model.sameTerm ((Term.offset base delta).subst v) target = true) d
      (d.defer (.offset base delta) target) := by
  refine ⟨rfl, id, id, ?_⟩
  intro σ e hcompletes
  have hbefore : Completes m σ e d := ⟨hcompletes.kinded, hcompletes.bound,
    fun pt hpt => hcompletes.deferred pt (List.mem_cons_of_mem _ hpt), hcompletes.pack,
    hcompletes.element⟩
  refine ⟨hbefore, ?_⟩
  have hsame : m.model.sameTerm ((Term.offset base delta).subst σ) target = true :=
    hcompletes.deferred _ List.mem_cons_self
  rw [view]
  cases hpack : d.pack? with
  | none => exact hsame
  | some pack =>
    obtain ⟨ts, hts⟩ := hcompletes.pack pack hpack
    have hnot : pack ∉ (Term.offset base delta).occurrences := by
      intro hmem
      have hleft := Substitution.mem_occurrences_apply hts (.offset base delta)
        (havoid pack hpack) hmem
      have heq := Term.occurrences_eq_of_same _ _ hsame
      rw [Term.subst] at heq
      rw [heq, hclosed] at hleft
      exact List.not_mem_nil hleft
    dsimp only
    rw [Term.subst, Substitution.apply_insert_of_notMem hnot]
    exact hsame

/-! ### Expansions -/

/-- A pack that is bound is found in an expansion over it. -/
theorem boundPack_of_packOf {σ : Substitution} (hkinded : m.Kinded σ) {inner : Term}
    {pack : ParamId} (hpack : m.packOf inner = some pack) {ts : List Term}
    (hts : σ.get? pack = some (.pack ts)) : σ.boundPack inner = some (pack, ts) := by
  rw [Matching.packOf] at hpack
  rw [Substitution.boundPack]
  generalize inner.occurrences = ids at hpack ⊢
  induction ids with
  | nil => exact absurd hpack (Option.some_ne_none pack).symm
  | cons id ids ih =>
    rw [List.find?_cons] at hpack
    rw [List.findSome?_cons]
    cases hid : m.isPack id with
    | true =>
      rw [hid] at hpack
      obtain rfl := Option.some.inj hpack
      rw [hts]
    | false =>
      rw [hid] at hpack
      -- what is no pack is not bound to one
      cases hget : σ.get? id with
      | none => exact ih hpack
      | some b =>
        cases b with
        | single t => exact ih hpack
        | pack us => exact absurd (hkinded id us hget) (Bool.eq_false_iff.mp hid)

theorem kinded_insert_pack {σ : Substitution} (h : m.Kinded σ) {pack : ParamId}
    (hpack : m.isPack pack = true) (elements : List Term) :
    m.Kinded (σ.insert pack (.pack elements)) := by
  intro j ts hj
  rw [Substitution.get?_insert] at hj
  split at hj
  · rename_i heq
    rwa [heq]
  · exact h j ts hj

theorem bindPack_inv (hrefl : ∀ n, m.model.sameLeaf n n = true) {pack : ParamId}
    (hpack : m.isPack pack = true) {elements : List Term} {d d' : Deduction}
    (h : d.bindPack m pack elements = some d') :
    d'.element = d.element ∧ (m.Kinded d.substitution → m.Kinded d'.substitution) ∧
      (∃ ts, d'.substitution.get? pack = some (.pack ts) ∧
        m.model.sameTerms ts elements = true) ∧
      ∀ σ e, Completes m σ e d' → Completes m σ e d := by
  rw [bindPack] at h
  split at h
  · rename_i ts hget
    split at h
    · rename_i hsame
      obtain rfl := Option.some.inj h
      exact ⟨rfl, id, ⟨ts, hget, hsame⟩, fun _ _ hcompletes => hcompletes⟩
    · exact absurd h (Option.some_ne_none d').symm
  · exact absurd h (Option.some_ne_none d').symm
  · rename_i hget
    obtain rfl := Option.some.inj h
    exact ⟨rfl, fun hk => kinded_insert_pack hk hpack elements,
      ⟨elements, Substitution.get?_insert_self _ _ _, Term.sameList_refl hrefl elements⟩,
      fun _ _ hcompletes => hcompletes.of_insert hget⟩

section Expand

variable {inner : Term} {step : Nat → Term → Deduction → Option Deduction}

theorem collect_inv {pack : ParamId}
    (hstep : ∀ k t d d', t.IsArgument → d.pack? = some pack → step k t d = some d' →
      Explains m (fun v => m.model.sameTerm (inner.subst v) t = true) d d')
    (targets : List Term) (htargets : ∀ t ∈ targets, t.IsArgument) :
    ∀ (k : Nat) (d : Deduction) {elements : List Term} {d' : Deduction}, d.element = none →
      collect pack step k targets d = some (elements, d') →
      d'.element = none ∧ (m.Kinded d.substitution → m.Kinded d'.substitution) ∧
        ∀ σ e ts bound, Completes m σ e d' → σ.get? pack = some (.pack ts) →
          m.model.sameTerms bound elements = true →
          Completes m σ e d ∧ m.model.sameTerms
            (bound.map fun b => b.expandedLike (inner.subst (σ.atElement pack b))) targets =
              true := by
  induction targets with
  | nil =>
    intro k d elements d' hd h
    obtain ⟨rfl, rfl⟩ := Prod.mk.inj (Option.some.inj h)
    refine ⟨hd, id, ?_⟩
    intro σ e ts bound hcompletes _ hsame
    refine ⟨hcompletes, ?_⟩
    cases bound with
    | nil => rfl
    | cons b bound => exact Bool.noConfusion hsame
  | cons target targets ih =>
    intro k d elements d' hd h
    rw [collect] at h
    split at h
    · exact absurd h (Option.some_ne_none _).symm
    · rename_i d₁ hd₁
      split at h
      · rename_i p t helement
        split at h
        · exact absurd h (Option.some_ne_none _).symm
        · rename_i rest d₂ hrest
          obtain ⟨rfl, rfl⟩ := Prod.mk.inj (Option.some.inj h)
          have hexplains := hstep k target.expanded _ d₁
            (htargets target List.mem_cons_self).expanded rfl hd₁
          obtain ⟨hd₂, hkinded, hsound⟩ :=
            ih (fun t ht => htargets t (List.mem_cons_of_mem _ ht)) (k + 1) _ rfl hrest
          have ht : t.isExpansion = false := by
            refine hexplains.plain (fun q u hu => ?_) p t helement
            exact absurd (Prod.mk.inj (Option.some.inj hu)).2 (Option.some_ne_none u).symm
          refine ⟨hd₂, fun hk => hkinded (hexplains.kinded hk), ?_⟩
          intro σ e ts bound hcompletes hts hsame
          cases bound with
          | nil => exact Bool.noConfusion hsame
          | cons b bound =>
            obtain ⟨hb, hbound⟩ := (Bool.and_eq_true _ _).mp hsame
            obtain ⟨hcompletes₂, htail⟩ := hsound σ e ts bound hcompletes hts hbound
            -- the element of the pack that stands here in the end is the one found here
            have hcompletes₁ : Completes m σ b.expanded d₁ := by
              refine ⟨hcompletes₂.kinded, hcompletes₂.bound, hcompletes₂.deferred, ?_, ?_⟩
              · intro q hq
                obtain rfl := Option.some.inj (hexplains.pack.symm.trans hq)
                exact ⟨ts, hts⟩
              · intro q u hu
                obtain ⟨-, hu⟩ := Prod.mk.inj (Option.some.inj (helement.symm.trans hu))
                obtain rfl := Option.some.inj hu
                exact Term.same_expanded hb ht
            obtain ⟨hcompletes₀, hhead⟩ := hexplains.sound σ b.expanded hcompletes₁
            have hshape : b.isExpansion = target.isExpansion :=
              (Term.isExpansion_eq_of_same hb).trans (Term.isExpansion_expandedLike target ht)
            refine ⟨hcompletes₀.of_element hd, (Bool.and_eq_true _ _).mpr ⟨?_, htail⟩⟩
            exact Term.same_expandedLike hshape hhead
      · exact absurd h (Option.some_ne_none _).symm

/-- **An expansion becomes its targets.** -/
theorem expand_explains (hrefl : ∀ n, m.model.sameLeaf n n = true)
    (hstep : ∀ pack, m.packOf inner = some pack → ∀ k t d d', t.IsArgument →
      d.pack? = some pack → step k t d = some d' →
      Explains m (fun v => m.model.sameTerm (inner.subst v) t = true) d d')
    {targets : List Term} (htargets : ∀ t ∈ targets, t.IsArgument) {d d' : Deduction}
    (h : d.expand m inner step targets = some d') :
    Explains m (fun v => m.model.sameTerms (Term.substList v [.expansion inner]) targets = true)
      d d' := by
  rw [expand] at h
  split at h
  · rename_i pack hpack hd
    split at h
    · rename_i elements d₁ hcollect
      have hisPack : m.isPack pack = true := List.find?_some hpack
      obtain ⟨hd₁, hkinded₁, hsound₁⟩ := collect_inv (hstep pack hpack) targets htargets 0 d hd
        hcollect
      obtain ⟨helement, hkinded, ⟨ts, hts, hsame⟩, hcompletes⟩ := bindPack_inv hrefl hisPack h
      have hpack? : d.pack? = none := by rw [pack?, hd]; rfl
      have hd' : d'.element = none := helement.trans hd₁
      refine ⟨?_, fun hk => hkinded (hkinded₁ hk), ?_, ?_⟩
      · rw [pack?, pack?, hd', hd]
      · intro _ q u hu
        rw [hd'] at hu
        exact absurd hu (Option.some_ne_none _).symm
      · intro σ e hσ
        have hbound := hσ.bound pack _ hts
        obtain ⟨hσ', htargets'⟩ := hsound₁ σ e ts ts (hcompletes σ e hσ) hbound hsame
        refine ⟨hσ', ?_⟩
        rw [view, hpack?, Term.substList, Substitution.applyList,
          boundPack_of_packOf hσ.kinded hpack hbound]
        dsimp only
        rw [Substitution.applyList, List.append_nil]
        exact htargets'
    · exact absurd h (Option.some_ne_none _).symm
  · exact absurd h (Option.some_ne_none _).symm

end Expand

end Deduction

end TemplateResolution
