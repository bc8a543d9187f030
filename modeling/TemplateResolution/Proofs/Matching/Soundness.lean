import TemplateResolution.Candidate
import TemplateResolution.Proofs.Matching.Completion
import TemplateResolution.Registry.WellFormed
import TemplateResolution.TypeModel.Alias

/-!
# A match reproduces its targets

When a structural match succeeds, the substitution it returns turns the argument
list back into the targets (`match?_sound`), up to slots at the end that carry a
default and were left out.

Two things are needed beside the form of the targets.  Sameness of leaf names has
to be transitive as well as reflexive, because the elements of a pack are compared
with each other only through the one that was found first.  And an offset inside
an expansion must not hold an expansion over the same pack: it would be checked
with the whole pack in view, but is written with one element.
-/

namespace TemplateResolution

namespace Term

mutual

/-- What the offsets in a term start from, at every depth. -/
def offsets : Term → List Term
  | offset base _ => base :: offsets base
  | apply head args => offsets head ++ offsetsList args
  | pointer inner | expansion inner | qualified _ inner | reference _ inner => offsets inner
  | param _ | placeholder _ | type _ | value _ _ | template _ => []

def offsetsList : List Term → List Term
  | [] => []
  | t :: ts => offsets t ++ offsetsList ts

end

/-- No expansion inside an offset mentions the pack. -/
def OffsetsAvoid (t : Term) (pack : ParamId) : Prop :=
  ∀ base ∈ t.offsets, ∀ nested ∈ base.expansions, pack ∉ nested.occurrences

/-- No offset inside an expansion holds an expansion over the same pack. -/
def OffsetsApart (isPack : ParamId → Bool) (t : Term) : Prop :=
  ∀ inner ∈ t.expansions, ∀ pack ∈ inner.occurrences.find? isPack, inner.OffsetsAvoid pack

instance (isPack : ParamId → Bool) (t : Term) : Decidable (t.OffsetsApart isPack) :=
  inferInstanceAs (Decidable (∀ inner ∈ t.expansions, ∀ pack ∈ inner.occurrences.find? isPack,
    ∀ base ∈ inner.offsets, ∀ nested ∈ base.expansions, pack ∉ nested.occurrences))

end Term

namespace Matching

variable {m : Matching}

theorem admitQualifiers_structural (hmode : m.mode = .structural) {wanted given : Qualifiers}
    {k : Nat} {d d' : Deduction} (h : d.admitQualifiers m wanted given k = some d') :
    given.includes wanted = true ∧ d' = d := by
  rw [Deduction.admitQualifiers, hmode] at h
  split at h
  · rename_i hincludes
    exact ⟨hincludes, (Option.some.inj h).symm⟩
  · exact absurd h (Option.some_ne_none d').symm

/-! ### Terms and argument lists of templates -/

section Lists

variable {d d' d'' : Deduction} {ps ts : List Term}

/-- A term and the rest of a list, matched one after the other. -/
theorem explains_cons {p t : Term} (hexp : p.isExpansion = false)
    (hhead : Explains m (fun v => m.model.sameTerm (p.subst v) t = true) d d')
    (htail : Explains m (fun v => m.model.sameTerms (Term.substList v ps) ts = true) d' d'') :
    Explains m (fun v => m.model.sameTerms (Term.substList v (p :: ps)) (t :: ts) = true)
      d d'' := by
  refine (hhead.trans htail).mono fun v hv => ?_
  rw [Term.substList, Substitution.applyList_cons hexp]
  exact (Bool.and_eq_true _ _).mpr hv

/-- An expansion, which takes all the targets, and the rest of a list. -/
theorem explains_expansion_cons {inner : Term}
    (hhead : Explains m (fun v =>
      m.model.sameTerms (Term.substList v [.expansion inner]) ts = true) d d')
    (htail : Explains m (fun v => m.model.sameTerms (Term.substList v ps) [] = true) d' d'') :
    Explains m (fun v => m.model.sameTerms (Term.substList v (.expansion inner :: ps)) ts = true)
      d d'' := by
  refine (hhead.trans htail).mono fun v hv => ?_
  have hboth := Term.sameList_append hv.1 hv.2
  rwa [← Term.substList_cons, List.append_nil] at hboth

/-- An element of an expansion is matched while the pack of that expansion is in progress. -/
theorem element_explains {inner t : Term} (hapart : (Term.expansion inner).OffsetsApart m.isPack)
    (hunify : inner.OffsetsApart m.isPack → (∀ pack ∈ d.pack?, inner.OffsetsAvoid pack) →
      Explains m (fun v => m.model.sameTerm (inner.subst v) t = true) d d')
    {pack : ParamId} (hpack : m.packOf inner = some pack) (hprogress : d.pack? = some pack) :
    Explains m (fun v => m.model.sameTerm (inner.subst v) t = true) d d' := by
  refine hunify ?_ ?_
  · intro nested hnested
    exact hapart nested (List.mem_cons_of_mem _ hnested)
  · intro pack' hpack'
    obtain rfl := Option.some.inj (hprogress.symm.trans hpack')
    exact hapart inner List.mem_cons_self pack hpack

end Lists

/-- A structural match with a reflexive and transitive sameness of names. -/
structure Strict (m : Matching) : Prop where
  mode : m.mode = .structural
  refl : ∀ n, m.model.sameLeaf n n = true
  trans : ∀ k l n, m.model.sameLeaf k l = true → m.model.sameLeaf l n = true →
    m.model.sameLeaf k n = true

mutual

/-- A pattern becomes the target it was matched with. -/
theorem unify_explains (hm : m.Strict) : ∀ (p : Term) (t : Term) (k : Nat) (d d' : Deduction),
    p.OffsetsApart m.isPack → (∀ pack ∈ d.pack?, p.OffsetsAvoid pack) → t.IsArgument →
    m.unify p t k d = some d' →
    Explains m (fun v => m.model.sameTerm (p.subst v) t = true) d d'
  | .param id, t, k, d, d', _, _, _, h => Deduction.bindArgument_explains hm.refl hm.trans h
  | .offset base delta, t, k, d, d', _, havoid, ht, h => by
    obtain rfl := Option.some.inj h
    exact Deduction.defer_explains
      (fun pack hpack => havoid pack hpack base List.mem_cons_self) ht.closed
  | .qualified quals inner, t, k, d, d', hapart, havoid, ht, h => by
    rw [unify] at h
    split at h
    · rename_i d₁ hadmit
      obtain ⟨hincludes, rfl⟩ := admitQualifiers_structural hm.mode hadmit
      have hinner := unify_explains hm inner (t.withoutQuals quals) k d₁ d' hapart havoid
        (ht.withoutQuals quals) h
      refine hinner.mono fun v hv => ?_
      have hqualify := Term.same_qualify hv quals
      rwa [Term.qualify_withoutQuals ht.normal hincludes] at hqualify
    · exact absurd h (Option.some_ne_none d').symm
  | .placeholder a, t, k, d, d', _, _, _, h => by
    cases t with
    | placeholder b => exact .of_guard h fun heq _ => beq_iff_eq.mpr heq
    | _ => simp [unify] at h
  | .type a, t, k, d, d', _, _, _, h => by
    cases t with
    | type b => exact .of_guard h fun hsame _ => hsame
    | _ => simp [unify] at h
  | .template a, t, k, d, d', _, _, _, h => by
    cases t with
    | template b => exact .of_guard h fun hsame _ => hsame
    | _ => simp [unify] at h
  | .value a s, t, k, d, d', _, _, _, h => by
    cases t with
    | value b u => exact .of_guard h fun hsame _ => hsame
    | _ => simp [unify] at h
  | .pointer inner, t, k, d, d', hapart, havoid, ht, h => by
    cases t with
    | pointer t => exact unify_explains hm inner t k d d' hapart havoid ⟨ht.normal, ht.closed⟩ h
    | _ => simp [unify] at h
  | .reference kind inner, t, k, d, d', hapart, havoid, ht, h => by
    cases t with
    | reference kind' t =>
      obtain ⟨hplain, hnormal⟩ := Term.isNormal_reference.mp ht.normal
      rw [unify] at h
      split at h
      · rename_i heq
        subst heq
        have hinner := unify_explains hm inner t k d d' hapart havoid ⟨hnormal, ht.closed⟩ h
        exact hinner.mono fun v hv => Term.same_refer hv hplain kind
      · exact absurd h (Option.some_ne_none d').symm
    | _ => simp [unify] at h
  | .expansion inner, t, k, d, d', _, _, _, h => by cases t <;> simp [unify] at h
  | .apply head args, t, k, d, d', hapart, havoid, ht, h => by
    cases t with
    | apply head' args' =>
      rw [unify] at h
      split at h
      · rename_i d₁ hd₁
        have hhead := unify_explains hm head head' k d d₁
          (fun inner hinner => hapart inner (List.mem_append_left _ hinner))
          (fun pack hpack base hbase => havoid pack hpack base (List.mem_append_left _ hbase))
          ht.head hd₁
        have hargs := unifyList_explains hm args args' k d₁ d'
          (fun inner hinner => hapart inner (List.mem_append_right _ hinner))
          (fun pack hpack base hbase => havoid pack (hhead.pack ▸ hpack) base
            (List.mem_append_right _ hbase)) ht.args h
        refine (hhead.trans hargs).mono fun v hv => ?_
        exact (Bool.and_eq_true _ _).mpr hv
      · exact absurd h (Option.some_ne_none d').symm
    | _ => simp [unify] at h

theorem unifyList_explains (hm : m.Strict) : ∀ (ps ts : List Term) (k : Nat) (d d' : Deduction),
    (∀ inner ∈ Term.expansionsList ps, ∀ pack ∈ inner.occurrences.find? m.isPack,
      inner.OffsetsAvoid pack) →
    (∀ pack ∈ d.pack?, ∀ base ∈ Term.offsetsList ps, ∀ nested ∈ base.expansions,
      pack ∉ nested.occurrences) → (∀ t ∈ ts, t.IsArgument) →
    m.unifyList ps ts k d = some d' →
    Explains m (fun v => m.model.sameTerms (Term.substList v ps) ts = true) d d'
  | [], ts, k, d, d', _, _, _, h => by
    cases ts with
    | nil =>
      obtain rfl := Option.some.inj h
      exact .refl fun _ _ _ => rfl
    | cons t ts => exact absurd h (Option.some_ne_none d').symm
  | p :: ps, ts, k, d, d', hapart, havoid, hts, h => by
    have hapart' : p.OffsetsApart m.isPack :=
      fun inner hinner => hapart inner (List.mem_append_left _ hinner)
    have htail := fun (us : List Term) (hus : ∀ t ∈ us, t.IsArgument) (d₁ : Deduction)
        (hpack : d₁.pack? = d.pack?) => unifyList_explains hm ps us k d₁ d'
      (fun inner hinner => hapart inner (List.mem_append_right _ hinner))
      (fun pack hp base hbase => havoid pack (hpack ▸ hp) base (List.mem_append_right _ hbase)) hus
    by_cases hexp : p.isExpansion = true
    · obtain ⟨inner, rfl⟩ := Term.exists_of_isExpansion hexp
      rw [unifyList] at h
      split at h
      · rename_i d₁ hd₁
        have hhead := Deduction.expand_explains hm.refl
          (fun pack hpack _ t d₀ d₀' ht hprogress hstep => element_explains hapart'
            (fun hapart₀ havoid₀ => unify_explains hm inner t k d₀ d₀' hapart₀ havoid₀ ht hstep)
            hpack hprogress) hts hd₁
        have hrest := htail [] (fun _ ht => absurd ht List.not_mem_nil) d₁ hhead.pack h
        exact explains_expansion_cons hhead hrest
      · exact absurd h (Option.some_ne_none d').symm
    · rw [Bool.not_eq_true] at hexp
      cases ts with
      | nil =>
        rw [unifyList_cons_nil m hexp] at h
        exact absurd h (Option.some_ne_none d').symm
      | cons t ts =>
        rw [unifyList_cons m hexp] at h
        obtain ⟨d₁, hd₁, h⟩ := Option.bind_eq_some_iff.mp h
        have hhead := unify_explains hm p t k d d₁ hapart'
          (fun pack hpack base hbase => havoid pack hpack base (List.mem_append_left _ hbase))
          (hts t List.mem_cons_self) hd₁
        have hrest := htail ts (fun u hu => hts u (List.mem_cons_of_mem _ hu)) d₁ hhead.pack h
        exact explains_cons hexp hhead hrest

end

end Matching

/-! ### Argument lists -/

namespace Slot

/-- The slots that meet a target when there are `n` targets: an expansion takes all that are left,
any other slot takes one. -/
def covered : List Slot → Nat → List Slot
  | [], _ => []
  | slot :: rest, 0 => if slot.isExpansion then slot :: covered rest 0 else covered rest 0
  | slot :: rest, n + 1 => slot :: covered rest (if slot.isExpansion then 0 else n)

/-- The slots for which no target is left. -/
def leftOut : List Slot → Nat → List Slot
  | [], _ => []
  | slot :: rest, 0 => if slot.isExpansion then leftOut rest 0 else slot :: leftOut rest 0
  | slot :: rest, n + 1 => leftOut rest (if slot.isExpansion then 0 else n)

section

variable {slot : Slot} (rest : List Slot) (n : Nat)

theorem covered_expansion (h : slot.isExpansion = true) :
    covered (slot :: rest) n = slot :: covered rest 0 := by
  cases n <;> rw [covered, if_pos h]

theorem covered_zero (h : slot.isExpansion = false) :
    covered (slot :: rest) 0 = covered rest 0 := by
  rw [covered, if_neg (Bool.eq_false_iff.mp h)]

theorem covered_succ (h : slot.isExpansion = false) :
    covered (slot :: rest) (n + 1) = slot :: covered rest n := by
  rw [covered, if_neg (Bool.eq_false_iff.mp h)]

theorem leftOut_expansion (h : slot.isExpansion = true) :
    leftOut (slot :: rest) n = leftOut rest 0 := by
  cases n <;> rw [leftOut, if_pos h]

theorem leftOut_zero (h : slot.isExpansion = false) :
    leftOut (slot :: rest) 0 = slot :: leftOut rest 0 := by
  rw [leftOut, if_neg (Bool.eq_false_iff.mp h)]

theorem leftOut_succ (h : slot.isExpansion = false) :
    leftOut (slot :: rest) (n + 1) = leftOut rest n := by
  rw [leftOut, if_neg (Bool.eq_false_iff.mp h)]

end

end Slot

namespace Matching

variable {m : Matching}

theorem position_structural (hmode : m.mode = .structural) (pattern target : Term) (k : Nat)
    (d : Deduction) : m.position pattern target k d = m.unify pattern target k d := by
  rw [position, hmode]

/-- The slots that meet a target become the targets. -/
theorem slots_explains (hm : m.Strict) (slots : List Slot)
    (hapart : ∀ slot ∈ slots, slot.term.OffsetsApart m.isPack) :
    ∀ (k : Nat) (targets : List Term) (d d' : Deduction), d.pack? = none →
      (∀ t ∈ targets, t.IsArgument) → m.slots slots k targets d = some d' →
      Explains m (fun v => m.model.sameTerms
        (Term.substList v ((Slot.covered slots targets.length).map (·.term))) targets = true)
        d d' := by
  induction slots with
  | nil =>
    intro k targets d d' _ _ h
    cases targets with
    | nil =>
      obtain rfl := Option.some.inj h
      exact .refl fun _ _ _ => rfl
    | cons t targets => exact absurd h (Option.some_ne_none d').symm
  | cons slot rest ih =>
    intro k targets d d' hpack htargets h
    have hrest := ih fun slot hslot => hapart slot (List.mem_cons_of_mem _ hslot)
    have hslot := hapart slot List.mem_cons_self
    have hnone : ∀ pack ∈ d.pack?, slot.term.OffsetsAvoid pack := by
      intro pack hp
      rw [hpack] at hp
      exact absurd hp (Option.not_mem_none pack)
    by_cases hexp : slot.isExpansion = true
    · obtain ⟨term, default⟩ := slot
      obtain ⟨inner, rfl⟩ := Term.exists_of_isExpansion hexp
      rw [Matching.slots] at h
      split at h
      · rename_i d₁ hd₁
        have hhead := Deduction.expand_explains hm.refl
          (fun pack hpack i t d₀ d₀' ht hprogress hstep => by
            rw [position_structural hm.mode] at hstep
            exact element_explains hslot (fun hapart₀ havoid₀ =>
              unify_explains hm inner t (k + i) d₀ d₀' hapart₀ havoid₀ ht hstep) hpack hprogress)
          htargets hd₁
        have htail := hrest (k + targets.length) [] d₁ d' (hhead.pack.trans hpack)
          (fun _ ht => absurd ht List.not_mem_nil) h
        rw [Slot.covered_expansion rest _ hexp, List.map_cons]
        exact explains_expansion_cons hhead htail
      · exact absurd h (Option.some_ne_none d').symm
    · rw [Bool.not_eq_true] at hexp
      cases targets with
      | nil =>
        rw [slots_cons_nil m hexp] at h
        rw [List.length_nil, Slot.covered_zero rest hexp]
        split at h
        · exact hrest k [] d d' hpack htargets h
        · exact absurd h (Option.some_ne_none d').symm
      | cons t targets =>
        rw [slots_cons m hexp, position_structural hm.mode] at h
        obtain ⟨d₁, hd₁, h⟩ := Option.bind_eq_some_iff.mp h
        have hhead := unify_explains hm slot.term t k d d₁ hslot hnone
          (htargets t List.mem_cons_self) hd₁
        have htail := hrest (k + 1) targets d₁ d' (hhead.pack.trans hpack)
          (fun u hu => htargets u (List.mem_cons_of_mem _ hu)) h
        rw [List.length_cons, Slot.covered_succ rest _ hexp, List.map_cons]
        exact explains_cons hexp hhead htail

/-- A slot that meets no target is no expansion and has a default. -/
theorem slots_leftOut (slots : List Slot) :
    ∀ (k : Nat) (targets : List Term) (d d' : Deduction), m.slots slots k targets d = some d' →
      ∀ slot ∈ Slot.leftOut slots targets.length,
        slot.isExpansion = false ∧ slot.default.isSome = true := by
  induction slots with
  | nil => exact fun _ _ _ _ _ _ hslot => absurd hslot List.not_mem_nil
  | cons slot rest ih =>
    intro k targets d d' h
    by_cases hexp : slot.isExpansion = true
    · obtain ⟨term, default⟩ := slot
      obtain ⟨inner, rfl⟩ := Term.exists_of_isExpansion hexp
      rw [Slot.leftOut_expansion rest _ hexp]
      rw [Matching.slots] at h
      split at h
      · rename_i d₁ hd₁
        exact ih (k + targets.length) [] d₁ d' h
      · exact absurd h (Option.some_ne_none d').symm
    · rw [Bool.not_eq_true] at hexp
      cases targets with
      | nil =>
        rw [slots_cons_nil m hexp] at h
        rw [List.length_nil, Slot.leftOut_zero rest hexp]
        split at h
        · rename_i hdefault
          intro slot' hslot'
          rcases List.mem_cons.mp hslot' with rfl | hslot'
          · exact ⟨hexp, hdefault⟩
          · exact ih k [] d d' h slot' hslot'
        · exact absurd h (Option.some_ne_none d').symm
      | cons t targets =>
        rw [slots_cons m hexp] at h
        rw [List.length_cons, Slot.leftOut_succ rest _ hexp]
        obtain ⟨d₁, -, h⟩ := Option.bind_eq_some_iff.mp h
        exact ih (k + 1) targets d₁ d' h

/-! ### Seeds -/

theorem kinded_empty : m.Kinded .empty :=
  fun _ _ h => absurd h (Option.some_ne_none _).symm

end Matching

namespace Pattern

/-- The parameter that stands first in the rest of the list, and what stands behind it. -/
theorem getElem?_of_drop_eq_cons {parameters qs : List Parameter} {id : ParamId} {q : Parameter}
    (h : parameters.drop id = q :: qs) :
    parameters[id]? = some q ∧ parameters.drop (id + 1) = qs := by
  constructor
  · rw [← List.head?_drop, h]
    rfl
  · rw [← List.tail_drop, h]
    rfl

/-- What goes on to hold as one parameter after the other is bound holds of what the template
arguments bind. -/
theorem seedFrom_induction {model : TypeModel} {parameters : List Parameter}
    {P : Substitution → Prop}
    (hsingle : ∀ id q arg σ, parameters[id]? = some q → model.isPack q = false →
      model.accepts q arg = true → P σ → P (σ.insert id (.single arg)))
    (hpack : ∀ id q args σ, parameters[id]? = some q → model.isPack q = true →
      (∀ arg ∈ args, model.accepts q arg = true) → P σ → P (σ.insert id (.pack args))) :
    ∀ (qs : List Parameter) (id : ParamId) (args : List Term) (σ σ' : Substitution),
      parameters.drop id = qs → P σ → seedFrom model id qs args σ = some σ' → P σ' := by
  intro qs
  induction qs with
  | nil =>
    intro id args σ σ' _ hσ h
    cases args with
    | nil => exact Option.some.inj h ▸ hσ
    | cons arg args => exact absurd h (Option.some_ne_none σ').symm
  | cons q qs ih =>
    intro id args σ σ' hdrop hσ h
    obtain ⟨hq, htail⟩ := getElem?_of_drop_eq_cons hdrop
    cases args with
    | nil => exact Option.some.inj h ▸ hσ
    | cons arg args =>
      rw [seedFrom] at h
      split at h
      · rename_i hisPack
        split at h
        · rename_i hall
          obtain rfl := Option.some.inj h
          exact hpack id q (arg :: args) σ hq hisPack (List.all_eq_true.mp hall) hσ
        · exact absurd h (Option.some_ne_none σ').symm
      · rename_i hisPack
        rw [Bool.not_eq_true] at hisPack
        split at h
        · rename_i haccepts
          exact ih (id + 1) args _ σ' htail (hsingle id q arg σ hq hisPack haccepts hσ) h
        · exact absurd h (Option.some_ne_none σ').symm

theorem kinded_of_seedFrom {m : Matching} :
    ∀ (ps : List Parameter) (id : ParamId) (args : List Term) (σ σ' : Substitution),
      m.parameters.drop id = ps → m.Kinded σ → seedFrom m.model id ps args σ = some σ' →
      m.Kinded σ' := by
  refine seedFrom_induction (fun id _ arg _ _ _ _ hσ => ?_) fun id q args σ hq hpack _ hσ => ?_
  · exact Deduction.kinded_insert_single hσ id arg
  · refine Deduction.kinded_insert_pack hσ ?_ args
    rw [Matching.isPack, hq]
    exact hpack

/-- **A structural match reproduces its targets.**  The slots that met a target become the targets
under the substitution returned, and the others carry a default. -/
theorem match?_sound {model : TypeModel} (hrefl : ∀ n, model.sameLeaf n n = true)
    (htrans : ∀ k l n, model.sameLeaf k l = true → model.sameLeaf l n = true →
      model.sameLeaf k n = true)
    {p : Pattern} (hapart : ∀ t ∈ p.args, t.OffsetsApart (p.isPack model))
    {explicitArgs : List Term} {seed : Substitution}
    (hseed : p.seed? model explicitArgs = some seed)
    {targets : List Term} (hnormal : ∀ t ∈ targets, t.isNormal = true)
    (hclosed : ∀ t ∈ targets, t.occurrences = []) {σ : Substitution}
    (h : p.match? model .structural seed targets = some σ) :
    model.sameTerms (Term.substList σ ((Slot.covered p.slots targets.length).map (·.term)))
        targets = true ∧
      ∀ slot ∈ Slot.leftOut p.slots targets.length,
        slot.isExpansion = false ∧ slot.default.isSome = true := by
  let m : Matching := ⟨model, .structural, p.parameters, seed.ids⟩
  have hm : m.Strict := ⟨rfl, hrefl, htrans⟩
  obtain ⟨d, hd, hfinish⟩ := Option.bind_eq_some_iff.mp h
  refine ⟨?_, m.slots_leftOut p.slots 0 targets _ d hd⟩
  have hslots : ∀ slot ∈ p.slots, slot.term.OffsetsApart m.isPack :=
    fun slot hslot => hapart slot.term (List.mem_map_of_mem hslot)
  have htargets : ∀ t ∈ targets, t.IsArgument := fun t ht => ⟨hnormal t ht, hclosed t ht⟩
  have hexplains := Matching.slots_explains hm p.slots hslots 0 targets (.start seed) d rfl
    htargets hd
  have hkinded : m.Kinded d.substitution := hexplains.kinded
    (kinded_of_seedFrom (m := m) p.parameters 0 explicitArgs .empty seed rfl Matching.kinded_empty
      hseed)
  rw [Deduction.finish] at hfinish
  split at hfinish
  · rename_i hdeferred
    obtain rfl := Option.some.inj hfinish
    have hnone : d.element = none := Option.map_eq_none_iff.mp hexplains.pack
    have hcompletes : Completes m d.substitution (.param 0) d := by
      refine ⟨hkinded, fun _ _ hb => hb, List.all_eq_true.mp hdeferred, ?_, ?_⟩
      · intro pack hpack
        rw [hexplains.pack] at hpack
        exact absurd hpack (Option.not_mem_none pack)
      · intro pack t ht
        rw [hnone] at ht
        exact absurd ht (Option.some_ne_none _).symm
    exact (hexplains.sound d.substitution (.param 0) hcompletes).2
  · exact absurd hfinish (Option.some_ne_none σ).symm

/-- `f(A<N, N+1>, Ts*..., N = 3)` takes `(A<3, 4>, int*, char*)`. -/
theorem match?_sound_pointers :
    let model := AliasTable.empty.model
    let p := Pattern.overload "f"
      [{ name := "Ts", kind := .type, pack := true }, { name := "N", kind := .value }]
      [⟨.apply (.template "A") [.param 1, .offset (.param 1) 1], none⟩,
        ⟨.expansion (.pointer (.param 0)), none⟩, ⟨.param 1, some (.value 3 "int")⟩]
    let targets : List Term := [.apply (.template "A") [.value 3 "int", .value 4 "int"],
      .pointer (.type "int"), .pointer (.type "char")]
    let σ := (Substitution.empty.insert 1 (.single (.value 3 "int"))).insert 0
      (.pack [.type "int", .type "char"])
    (∀ n, model.sameLeaf n n = true) ∧
      (∀ k l n, model.sameLeaf k l = true → model.sameLeaf l n = true →
        model.sameLeaf k n = true) ∧
      (∀ t ∈ p.args, t.OffsetsApart (p.isPack model)) ∧ p.seed? model [] = some .empty ∧
      (∀ t ∈ targets, t.isNormal = true) ∧ (∀ t ∈ targets, t.occurrences = []) ∧
      p.match? model .structural .empty targets = some σ ∧
      (Slot.covered p.slots targets.length).length = 2 ∧
      model.sameTerms (Term.substList σ ((Slot.covered p.slots targets.length).map (·.term)))
        targets = true := by
  intro model p targets σ
  have hrefl : ∀ n, model.sameLeaf n n = true := AliasTable.empty.sameLeaf_refl
  have htrans : ∀ k l n, model.sameLeaf k l = true → model.sameLeaf l n = true →
      model.sameLeaf k n = true := fun _ _ _ => AliasTable.empty.sameLeaf_trans
  have hapart : ∀ t ∈ p.args, t.OffsetsApart (p.isPack model) := by decide
  have hseed : p.seed? model [] = some .empty := rfl
  have hnormal : ∀ t ∈ targets, t.isNormal = true := by decide
  have hclosed : ∀ t ∈ targets, t.occurrences = [] := by decide
  have h : p.match? model .structural .empty targets = some σ := rfl
  exact ⟨hrefl, htrans, hapart, hseed, hnormal, hclosed, h, rfl,
    (match?_sound hrefl htrans hapart hseed hnormal hclosed h).1⟩

/-- Two matches whose targets are not reproduced.  With names that are the same by an alias or
without regard to case, `x` is the same as `X` and `X` as `Y`, but `x` is not the same as `Y`; and
an offset inside an expansion holds an expansion over the same pack. -/
theorem match?_unsound :
    let parameters : List Parameter := [{ name := "Ts", kind := .type, pack := true }]
    let aliased := AliasTable.empty.declare "X" "Y"
    let lower (name : String) := name.toList.map Char.toLower
    let caseless : TypeModel :=
      { aliased.model with sameLeaf := fun a b => aliased.sameLeaf a b || lower a == lower b }
    let repeated := Pattern.overload "f" parameters
      [⟨.apply (.template "P") [.expansion (.param 0)], none⟩,
        ⟨.apply (.template "Q") [.expansion (.apply (.template "R") [.param 0, .param 0])], none⟩]
    let repeatedTargets : List Term := [.apply (.template "P") [.type "x"],
      .apply (.template "Q") [.apply (.template "R") [.type "X", .type "Y"]]]
    let x := Substitution.empty.insert 0 (.pack [.type "x"])
    let standard := AliasTable.empty.model
    let nested := Pattern.overload "f" parameters [⟨.expansion (.apply (.template "P")
      [.param 0, .offset (.apply (.template "F") [.expansion (.param 0)]) 1]), none⟩]
    let nestedTargets : List Term := [.apply (.template "P")
      [.type "int", .offset (.apply (.template "F") [.type "int"]) 1]]
    let int := Substitution.empty.insert 0 (.pack [.type "int"])
    ((∀ n, caseless.sameLeaf n n = true) ∧ (∀ t ∈ repeated.args, t.isNormal = true) ∧
      repeated.seed? caseless [] = some .empty ∧ (∀ t ∈ repeatedTargets, t.isNormal = true) ∧
      (∀ t ∈ repeatedTargets, t.occurrences = []) ∧
      repeated.match? caseless .structural .empty repeatedTargets = some x ∧
      caseless.sameTerms (Term.substList x
        ((Slot.covered repeated.slots repeatedTargets.length).map (·.term))) repeatedTargets =
          false) ∧
    (∀ n, standard.sameLeaf n n = true) ∧ (∀ t ∈ nested.args, t.isNormal = true) ∧
      nested.seed? standard [] = some .empty ∧ (∀ t ∈ nestedTargets, t.isNormal = true) ∧
      (∀ t ∈ nestedTargets, t.occurrences = []) ∧
      nested.match? standard .structural .empty nestedTargets = some int ∧
      standard.sameTerms (Term.substList int
        ((Slot.covered nested.slots nestedTargets.length).map (·.term))) nestedTargets = false := by
  intro parameters aliased lower caseless repeated repeatedTargets x standard nested nestedTargets
    int
  have hcaseless : ∀ n, caseless.sameLeaf n n = true := by
    intro n
    show (aliased.sameLeaf n n || lower n == lower n) = true
    rw [aliased.sameLeaf_refl, Bool.true_or]
  exact ⟨⟨hcaseless, by decide, rfl, by decide, by decide, rfl, rfl⟩,
    AliasTable.empty.sameLeaf_refl, by decide, rfl, by decide, by decide, rfl, rfl⟩

end Pattern

end TemplateResolution
