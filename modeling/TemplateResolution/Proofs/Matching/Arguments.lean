import TemplateResolution.Proofs.Matching.Evidence

/-!
# Structural matches of argument lists

In a structural match nothing is converted, so it makes no difference to which
position of the argument list a target belongs: an argument list is read like any
other list of terms, up to slots that carry a default (`readSlots_eq`).

What the two sides of a match come to for whole argument lists is said here, for calls
as well: `run_sound` is what a successful match tells (`exists_reading` for a structural
one), and `run_of_holds` is how to show that a match succeeds.
-/

namespace TemplateResolution

namespace Matching

/-- The setting of a structural match without a seed. -/
def structural (model : TypeModel) (parameters : List Parameter) : Matching where
  model
  mode := .structural
  parameters

variable {m : Matching}

/-! ### Positions do not matter -/

section Structural

variable (hmode : m.mode = .structural)

include hmode

theorem gain_structural (wanted given : Qualifiers) (k : Nat) :
    m.gain wanted given k = if given.includes wanted then some [] else none := by
  rw [gain, hmode]
  rfl

theorem read_qualified (quals : Qualifiers) (inner t : Term) (k : Nat) :
    m.read (.qualified quals inner) t k =
      if t.quals.includes quals then m.read inner (t.withoutQuals quals) k else none := by
  rw [read, gain_structural hmode]
  split
  · cases m.read inner (t.withoutQuals quals) k <;> rfl
  · rfl

end Structural

mutual

theorem read_position (hmode : m.mode = .structural) : ∀ (p t : Term) (k k' : Nat),
    m.read p t k = m.read p t k'
  | .param _, t, k, k' | .offset _ _, t, k, k' => rfl
  | .placeholder _, t, k, k' | .type _, t, k, k' | .template _, t, k, k'
  | .value _ _, t, k, k' | .expansion _, t, k, k' => by cases t <;> simp only [read]
  | .qualified quals inner, t, k, k' => by
    rw [read_qualified hmode, read_qualified hmode,
      read_position hmode inner (t.withoutQuals quals) k k']
  | .pointer p, t, k, k' => by
    cases t with
    | pointer t => exact read_position hmode p t k k'
    | _ => simp only [read]
  | .reference kind p, t, k, k' => by
    cases t with
    | reference kind' t => rw [read, read, read_position hmode p t k k']
    | _ => simp only [read]
  | .apply head args, t, k, k' => by
    cases t with
    | apply head' args' =>
      rw [read, read, read_position hmode head head' k k', readList_position hmode args args' k k']
    | _ => simp only [read]

theorem readList_position (hmode : m.mode = .structural) : ∀ (ps ts : List Term) (k k' : Nat),
    m.readList ps ts k = m.readList ps ts k'
  | [], ts, k, k' => by cases ts <;> rfl
  | p :: ps, ts, k, k' => by
    by_cases hexp : p.isExpansion = true
    · obtain ⟨inner, rfl⟩ := Term.exists_of_isExpansion hexp
      have hstep : (fun (_ : Nat) t => m.read inner t k) = fun _ t => m.read inner t k' :=
        funext fun _ => funext fun t => read_position hmode inner t k k'
      rw [readList, readList, hstep, readList_position hmode ps [] k k']
    · rw [Bool.not_eq_true] at hexp
      cases ts with
      | nil => rw [readList_cons_nil m hexp, readList_cons_nil m hexp]
      | cons t ts =>
        rw [readList_cons m hexp, readList_cons m hexp, read_position hmode p t k k',
          readList_position hmode ps ts k k']

end

/-! ### Slots are read like terms -/

section Structural

variable (hmode : m.mode = .structural)

include hmode

theorem readPosition_structural (p t : Term) (k : Nat) : m.readPosition p t k = m.read p t 0 := by
  rw [readPosition, hmode]
  exact read_position hmode p t k 0

theorem readSlots_expansion (inner : Term) (default : Option Term) (rest : List Slot) (k : Nat)
    (ts : List Term) :
    m.readSlots (⟨.expansion inner, default⟩ :: rest) k ts =
      Finding.join (m.readExpansion inner (fun _ t => m.read inner t 0) ts)
        (m.readSlots rest (k + ts.length) []) := by
  have hstep : (fun i t => m.readPosition inner t (k + i)) = fun _ t => m.read inner t 0 :=
    funext fun i => funext fun t => readPosition_structural hmode inner t (k + i)
  rw [readSlots, hstep]

/-- Without defaults, every slot is matched. -/
theorem readSlots_eq (slots : List Slot) (hslots : ∀ slot ∈ slots, slot.default = none) :
    ∀ (k : Nat) (ts : List Term),
      m.readSlots slots k ts = m.readList (slots.map (·.term)) ts 0 := by
  induction slots with
  | nil => intro k ts; cases ts <;> rfl
  | cons slot rest ih =>
    intro k ts
    have hrest := ih fun s hs => hslots s (List.mem_cons_of_mem _ hs)
    rw [List.map_cons]
    by_cases hexp : slot.isExpansion = true
    · obtain ⟨term, default⟩ := slot
      obtain ⟨inner, rfl⟩ := Term.exists_of_isExpansion hexp
      rw [readSlots_expansion hmode, readList, hrest]
    · rw [Bool.not_eq_true] at hexp
      cases ts with
      | nil =>
        rw [readSlots_cons_nil m hexp, hslots slot List.mem_cons_self, readList_cons_nil m hexp]
        rfl
      | cons t ts =>
        rw [readSlots_cons m hexp, readPosition_structural hmode, hrest, readList_cons m hexp]

/-- With a target for each of them, every slot is matched. -/
theorem readSlots_eq_of_length_le (slots : List Slot)
    (hinner : ∀ t ∈ (slots.map (·.term)).dropLast, t.isExpansion = false) :
    ∀ (k : Nat) (ts : List Term), slots.length ≤ ts.length →
      m.readSlots slots k ts = m.readList (slots.map (·.term)) ts 0 := by
  induction slots with
  | nil => intro k ts _; cases ts <;> rfl
  | cons slot rest ih =>
    intro k ts hlength
    cases rest with
    | nil =>
      by_cases hexp : slot.isExpansion = true
      · obtain ⟨term, default⟩ := slot
        obtain ⟨inner, rfl⟩ := Term.exists_of_isExpansion hexp
        rw [readSlots_expansion hmode]
        rfl
      · rw [Bool.not_eq_true] at hexp
        cases ts with
        | nil => exact absurd hlength (Nat.not_succ_le_zero _)
        | cons t ts =>
          rw [List.map_cons, readSlots_cons m hexp, readPosition_structural hmode,
            readList_cons m hexp]
          cases ts <;> rfl
    | cons slot' rest =>
      obtain ⟨hexp, hinner⟩ := List.forall_mem_cons.mp hinner
      cases ts with
      | nil => exact absurd hlength (Nat.not_succ_le_zero _)
      | cons t ts =>
        have hrest := ih hinner (k + 1) ts (Nat.le_of_succ_le_succ hlength)
        rw [readSlots_cons m hexp, readPosition_structural hmode, hrest]
        exact (readList_cons m hexp _ t ts 0).symm

/-- If the terms of all slots can be read, no default is needed. -/
theorem readSlots_of_readList (slots : List Slot) :
    ∀ (k : Nat) (ts : List Term) (xs : List Finding),
      m.readList (slots.map (·.term)) ts 0 = some xs → m.readSlots slots k ts = some xs := by
  induction slots with
  | nil => intro k ts xs h; cases ts <;> exact h
  | cons slot rest ih =>
    intro k ts xs h
    rw [List.map_cons] at h
    by_cases hexp : slot.isExpansion = true
    · obtain ⟨term, default⟩ := slot
      obtain ⟨inner, rfl⟩ := Term.exists_of_isExpansion hexp
      rw [readList] at h
      obtain ⟨ys, zs, hys, hzs, rfl⟩ := Finding.join_eq_some.mp h
      rw [readSlots_expansion hmode, hys, ih _ _ _ hzs]
      rfl
    · rw [Bool.not_eq_true] at hexp
      obtain ⟨t, ts, ys, zs, rfl, hys, hzs, rfl⟩ := (readList_cons_eq_some hexp).mp h
      rw [readSlots_cons m hexp, readPosition_structural hmode, hys, ih _ _ _ hzs]
      rfl

end Structural

/-! ### Whole matches -/

/-- What holds of everything that is found in a term, holds of what is found in a position. -/
theorem forall_readPosition {P : Finding → Prop} {p t : Term} {k : Nat} {xs : List Finding}
    (hforwarded : ∀ id, P (.clue (.bind id (t.referee.refer .lvalue))))
    (hread : ∀ q u ys, u = t ∨ u = t.referee ∨ u = t.undecorated → m.read q u k = some ys →
      ∀ f ∈ ys, P f)
    (h : m.readPosition p t k = some xs) : ∀ f ∈ xs, P f := by
  rw [readPosition] at h
  split at h
  · exact hread _ t xs (.inl rfl) h
  · exact hread _ t.undecorated xs (.inr (.inr rfl)) h
  · rw [readCall.eq_def] at h
    split at h
    · split at h
      · obtain rfl := Option.some.inj h
        intro f hf
        obtain rfl := List.mem_singleton.mp hf
        exact hforwarded _
      · exact absurd h (Option.some_ne_none xs).symm
      · exact hread _ t.referee xs (.inr (.inl rfl)) h
    · split at h
      · exact hread _ t.referee xs (.inr (.inl rfl)) h
      · exact absurd h (Option.some_ne_none xs).symm
    · exact hread _ t.undecorated xs (.inr (.inr rfl)) h

/-- What holds of everything that is found in good targets, position by position and in expansions,
holds of all that is found. -/
theorem forall_readSlots {P : Finding → Prop} (good : Term → Prop)
    (hposition : ∀ p t k xs, good t → m.readPosition p t k = some xs → ∀ f ∈ xs, P f)
    (hexpansion : ∀ inner k ts xs, (∀ t ∈ ts, good t) →
      m.readExpansion inner (fun i t => m.readPosition inner t (k + i)) ts = some xs →
      ∀ f ∈ xs, P f)
    (slots : List Slot) : ∀ (k : Nat) (targets : List Term) (xs : List Finding),
      (∀ t ∈ targets, good t) → m.readSlots slots k targets = some xs → ∀ f ∈ xs, P f := by
  induction slots with
  | nil =>
    intro k targets xs _ h
    cases targets with
    | nil =>
      obtain rfl := Option.some.inj h
      exact fun f hf => absurd hf List.not_mem_nil
    | cons t targets => exact absurd h (Option.some_ne_none xs).symm
  | cons slot rest ih =>
    intro k targets xs htargets h
    by_cases hexp : slot.isExpansion = true
    · obtain ⟨term, default⟩ := slot
      obtain ⟨inner, rfl⟩ := Term.exists_of_isExpansion hexp
      rw [readSlots] at h
      obtain ⟨ys, zs, hys, hzs, rfl⟩ := Finding.join_eq_some.mp h
      have hhead := hexpansion inner k targets ys htargets hys
      have htail := ih _ [] zs (fun _ ht => absurd ht List.not_mem_nil) hzs
      exact fun f hf => (List.mem_append.mp hf).elim (hhead f) (htail f)
    · rw [Bool.not_eq_true] at hexp
      cases targets with
      | nil =>
        rw [readSlots_cons_nil m hexp] at h
        split at h
        · exact ih _ _ xs htargets h
        · exact absurd h (Option.some_ne_none xs).symm
      | cons t targets =>
        obtain ⟨ht, htargets⟩ := List.forall_mem_cons.mp htargets
        rw [readSlots_cons m hexp] at h
        obtain ⟨ys, zs, hys, hzs, rfl⟩ := Finding.join_eq_some.mp h
        have hhead := hposition slot.term t k ys ht hys
        have htail := ih _ targets zs htargets hzs
        exact fun f hf => (List.mem_append.mp hf).elim (hhead f) (htail f)

theorem overPacks_readSlots {slots : List Slot} {k : Nat} {targets : List Term}
    {xs : List Finding} (h : m.readSlots slots k targets = some xs) :
    ∀ f ∈ xs, f.OverPacks m := by
  refine forall_readSlots (fun _ => True) ?_ ?_ slots k targets xs (fun _ _ => trivial) h
  · intro p t k ys _ hys
    exact forall_readPosition (fun _ => trivial)
      (fun q u zs _ hzs f hf => (within_read q u k zs hzs f hf).packs) hys
  · intro inner k ts ys _ hys f hf
    rw [readExpansion] at hys
    split at hys
    · rename_i pack hpack
      obtain ⟨found, -, rfl⟩ := Option.map_eq_some_iff.mp hys
      obtain rfl := List.mem_singleton.mp hf
      exact List.find?_some hpack
    · exact absurd hys (Option.some_ne_none ys).symm

section Run

variable {model : TypeModel} {parameters : List Parameter} {slots : List Slot}
  {targets : List Term}

/-- **A match that succeeds has read its targets, and the reading holds.**  It has bound what the
reading binds and nothing else. -/
theorem run_sound (hrefl : ∀ n, model.sameLeaf n n = true)
    (htrans : ∀ k l n, model.sameLeaf k l = true → model.sameLeaf l n = true →
      model.sameLeaf k n = true) {mode : MatchMode} {σ : Substitution}
    (h : run model mode parameters slots .empty targets = some σ) :
    let m : Matching := { model, mode, parameters }
    ∃ xs d, m.readSlots slots 0 targets = some xs ∧ (Deduction.start .empty).follow m xs = some d ∧
      d.substitution = σ ∧ (∀ f ∈ xs, f.Holds m model.sameLeaf σ) ∧ m.Suits σ ∧
      ∀ id, (σ.get? id).isSome = true ↔ ∃ f ∈ xs, f.Binds id := by
  intro m
  obtain ⟨xs, d, hxs, hfollow, hdeferred, rfl⟩ := run_eq_some.mp h
  change m.readSlots slots 0 targets = some xs at hxs
  change (Deduction.start .empty).follow m xs = some d at hfollow
  have hpacks := overPacks_readSlots hxs
  obtain ⟨helement, hextends⟩ := Deduction.follow_extends hpacks rfl hfollow
  have hsuits := hextends.suits (suits_empty m)
  have hcompletes : Completes m d.substitution (.param 0) d := by
    refine ⟨hsuits.packs, fun _ _ hb => hb, hdeferred, ?_, ?_⟩
    · intro pack hpack
      rw [Deduction.pack?, helement] at hpack
      exact absurd hpack (Option.not_mem_none pack)
    · intro pack t ht
      rw [helement] at ht
      exact absurd ht (Option.some_ne_none _).symm
  refine ⟨xs, d, hxs, hfollow, rfl, ?_, hsuits, fun id => ?_⟩
  · exact (Deduction.follow_sound hrefl htrans hpacks rfl hfollow _ _ hcompletes).2
  · rw [hextends.bound]
    exact or_iff_right (fun h => Bool.noConfusion h)

/-- In a structural match without defaults, the reading is that of the list of terms. -/
theorem exists_reading (hrefl : ∀ n, model.sameLeaf n n = true)
    (htrans : ∀ k l n, model.sameLeaf k l = true → model.sameLeaf l n = true →
      model.sameLeaf k n = true)
    (hslots : ∀ slot ∈ slots, slot.default = none) {σ : Substitution}
    (h : run model .structural parameters slots .empty targets = some σ) :
    ∃ xs, (structural model parameters).readList (slots.map (·.term)) targets 0 = some xs ∧
      (∀ f ∈ xs, f.Holds (structural model parameters) model.sameLeaf σ) ∧
      (structural model parameters).Suits σ ∧
      ∀ id, (σ.get? id).isSome = true ↔ ∃ f ∈ xs, f.Binds id := by
  obtain ⟨xs, d, hxs, -, rfl, hholds, hsuits, hbinds⟩ := run_sound hrefl htrans h
  refine ⟨xs, ?_, hholds, hsuits, hbinds⟩
  rw [← readSlots_eq rfl slots hslots 0 targets]
  exact hxs

/-- **A match succeeds if its reading holds under some substitution,** and what it binds agrees with
that.  Sameness up to `leaf` has to imply sameness, and what is deferred must not depend on bindings
that the match does not make. -/
theorem run_of_holds {leaf : String → String → Bool} (hrefl : ∀ n, leaf n n = true)
    (heuclid : ∀ k l n, leaf k l = true → leaf k n = true → model.sameLeaf l n = true)
    {xs : List Finding}
    (hread : (structural model parameters).readList (slots.map (·.term)) targets 0 = some xs)
    {σ : Substitution}
    (hsingles : ∀ id t, σ.get? id = some (.single t) →
      (structural model parameters).isPack id = false)
    (hholds : ∀ f ∈ xs, f.Holds (structural model parameters) leaf σ)
    (hbinds : ∀ f ∈ xs, ∀ p t, .defer p t ∈ f.clues → ∀ id ∈ p.occurrences,
      (σ.get? id).isSome = true → ∃ g ∈ xs, g.Binds id) :
    ∃ τ, run model .structural parameters slots .empty targets = some τ ∧
      (∀ id b, τ.get? id = some b → ∃ c, σ.get? id = some c ∧ c.same leaf b = true) ∧
      ∀ id, (τ.get? id).isSome = true ↔ ∃ f ∈ xs, f.Binds id := by
  have hstart : (Deduction.start .empty).Agrees leaf σ (.param 0) :=
    ⟨fun _ _ h => absurd h (Option.some_ne_none _).symm, fun _ h => absurd h List.not_mem_nil,
      fun _ _ h => absurd h (Option.some_ne_none _).symm⟩
  have hpacks : ∀ f ∈ xs, f.OverPacks (structural model parameters) :=
    fun f hf => (within_readList _ _ _ xs hread f hf).packs
  obtain ⟨d, hd, hagrees⟩ := Deduction.follow_of_holds hsingles heuclid hpacks rfl hstart hholds
  obtain ⟨-, hextends⟩ := Deduction.follow_extends hpacks rfl hd
  have hbound : ∀ id, (d.substitution.get? id).isSome = true ↔ ∃ f ∈ xs, f.Binds id := fun id =>
    (hextends.bound id).trans (or_iff_right fun h => Bool.noConfusion h)
  have hdeferred : ∀ pt ∈ d.deferred,
      model.sameTerm (pt.1.subst d.substitution) pt.2 = true := by
    intro pt hpt
    have hclue : .defer pt.1 pt.2 ∈ xs.flatMap Finding.clues :=
      (hextends.deferred pt hpt).resolve_left List.not_mem_nil
    obtain ⟨f, hf, hclue⟩ := List.mem_flatMap.mp hclue
    -- what the deferred pattern mentions is bound to the same by both
    have hagree : ∀ id ∈ pt.1.occurrences, σ.AgreeOn leaf d.substitution id := by
      intro id hid
      rw [Substitution.AgreeOn]
      cases hget : d.substitution.get? id with
      | some b =>
        obtain ⟨c, hc, hcb⟩ := hagrees.bound id b hget
        rw [hc]
        exact .some hcb
      | none =>
        cases hσ : σ.get? id with
        | none => exact .none
        | some c =>
          have hsome := hbinds f hf pt.1 pt.2 hclue id hid (by rw [hσ]; rfl)
          rw [← hbound, hget] at hsome
          exact Bool.noConfusion hsome
    have hsubst := Term.same_subst (Term.same_refl hrefl pt.1) hagree
    exact Term.same_euclid heuclid _ _ _ hsubst (hagrees.deferred pt hpt)
  refine ⟨d.substitution, ?_, hagrees.bound, hbound⟩
  have hslots := readSlots_of_readList (m := structural model parameters) rfl slots 0 targets xs
    hread
  exact run_eq_some.mpr ⟨xs, d, hslots, hd, hdeferred, rfl⟩

end Run

end Matching

end TemplateResolution
