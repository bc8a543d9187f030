import TemplateResolution.Proofs.Matching.Kinds
import TemplateResolution.Proofs.Matching.Primary
import TemplateResolution.Proofs.Registry.Accepted

/-!
# Template arguments

A substitution for all parameters of a pattern, written out in parameter order, is a list
of template arguments.  Three things are made of such a list.  It is bound again, which
gives the substitution back if the pack comes last, except that nothing is left of an
empty pack (`get?_of_seed?`).  What was bound is completed, which makes up for the empty
pack (`get?_complete_seed`).  And the pattern is written out under it: the argument list
of a class-like primary is the list of template arguments itself
(`ListsParameters.substList_args`).

None of this asks for the kinds of the template arguments.  A default may be of the wrong
kind, and then the list that it completes is not accepted as template arguments, but it is
written out and read like any other.  Where every default is of the kind of its parameter,
completion respects the kinds (`complete_respectsKinds`).
-/

namespace TemplateResolution

/-- The binding is of the form of `q`: a list if `q` is a pack, one term otherwise. -/
def Binding.OfForm (model : TypeModel) (q : Parameter) : Binding → Prop
  | .single _ => model.isPack q = false
  | .pack _ => model.isPack q = true

/-- Only declared parameters are bound, each in its form. -/
def Substitution.RespectsForms (model : TypeModel) (parameters : List Parameter)
    (σ : Substitution) : Prop :=
  ∀ id b, σ.get? id = some b → ∃ q, parameters[id]? = some q ∧ b.OfForm model q

/-- Every default is of the kind of its parameter, to whatever arguments of their kinds the
parameters in front of it are bound. -/
def Pattern.DefaultsRespectKinds (model : TypeModel) (p : Pattern) : Prop :=
  ∀ id q t, p.parameter? id = some q → model.isPack q = false → q.default = some t →
    ∀ σ : Substitution, σ.RespectsKinds model p.parameters →
      (∀ j < id, (σ.get? j).isSome = true) → model.accepts q (t.subst σ) = true

variable {model : TypeModel}

theorem Substitution.RespectsKinds.forms {parameters : List Parameter} {σ : Substitution}
    (h : σ.RespectsKinds model parameters) : σ.RespectsForms model parameters := by
  intro id b hb
  obtain ⟨q, hq, hkind⟩ := h id b hb
  refine ⟨q, hq, ?_⟩
  cases b with
  | single t => exact hkind.1
  | pack ts => exact hkind.1

/-! ### Completion, one parameter after the other -/

namespace Pattern

variable {p : Pattern} {σ : Substitution}

/-- What goes on to hold as one parameter after the other is completed holds in the end. -/
theorem completeFrom_induction {parameters : List Parameter} {P : ParamId → Substitution → Prop}
    (hstep : ∀ id q σ, parameters[id]? = some q → P id σ →
      P (id + 1) (completeAt model id q σ)) :
    ∀ (qs : List Parameter) (id : ParamId) (σ : Substitution), parameters.drop id = qs →
      P id σ → P (id + qs.length) (completeFrom model id qs σ) := by
  intro qs
  induction qs with
  | nil => exact fun _ _ _ h => h
  | cons q qs ih =>
    intro id σ hdrop h
    obtain ⟨hq, htail⟩ := getElem?_of_drop_eq_cons hdrop
    have hrest := ih (id + 1) _ htail (hstep id q σ hq h)
    rwa [List.length_cons, ← Nat.succ_add_eq_add_succ]

variable (model) in
theorem complete_induction {P : ParamId → Substitution → Prop}
    (hstep : ∀ id q σ, p.parameter? id = some q → P id σ → P (id + 1) (completeAt model id q σ))
    (h : P 0 σ) : P p.parameters.length (p.complete model σ) := by
  have hend := completeFrom_induction hstep p.parameters 0 σ rfl h
  rwa [Nat.zero_add] at hend

/-- A binding after one step was there before, or it is the default. -/
theorem get?_completeAt_cases {id j : ParamId} {q : Parameter} {b : Binding}
    (h : (completeAt model id q σ).get? j = some b) :
    σ.get? j = some b ∨ j = id ∧ σ.get? id = none ∧ defaultBinding model q σ = some b := by
  rw [get?_completeAt] at h
  split at h
  · rename_i hj
    subst hj
    rcases Option.or_eq_some_iff.mp h with h | h
    · exact .inl h
    · exact .inr ⟨rfl, h⟩
  · exact .inl h

/-- A completed substitution binds everything in its form, whatever the defaults are. -/
theorem complete_respectsForms (h : σ.RespectsForms model p.parameters) :
    (p.complete model σ).RespectsForms model p.parameters := by
  refine complete_induction model (P := fun _ τ => τ.RespectsForms model p.parameters) ?_ h
  intro id q τ hq hτ j b hb
  rcases get?_completeAt_cases hb with hb | ⟨rfl, -, hb⟩
  · exact hτ j b hb
  · refine ⟨q, hq, ?_⟩
    rw [defaultBinding] at hb
    split at hb
    · rename_i hpack
      obtain rfl := Option.some.inj hb
      exact hpack
    · rename_i hpack
      obtain ⟨t, -, rfl⟩ := Option.map_eq_some_iff.mp hb
      exact Bool.eq_false_iff.mpr hpack

/-- A completed substitution binds everything to what is of its kind, if the defaults are of theirs
and none of the parameters is left out. -/
theorem complete_respectsKinds (hdefaults : p.DefaultsRespectKinds model)
    (h : σ.RespectsKinds model p.parameters)
    (hbound : ∀ id < p.parameters.length, ((p.complete model σ).get? id).isSome = true) :
    (p.complete model σ).RespectsKinds model p.parameters := by
  refine complete_induction model (P := fun id τ => (∀ j < id, (τ.get? j).isSome = true) →
    τ.RespectsKinds model p.parameters) ?_ (fun _ => h) hbound
  -- a default is taken when everything in front of it is bound
  intro id q τ hq hτ hall
  have hbefore : ∀ j < id, (τ.get? j).isSome = true := by
    intro j hj
    have hsome := hall j (Nat.lt_succ_of_lt hj)
    rwa [get?_completeAt, if_neg (Nat.ne_of_lt hj)] at hsome
  have hkinds := hτ hbefore
  intro j b hb
  rcases get?_completeAt_cases hb with hb | ⟨rfl, -, hb⟩
  · exact hkinds j b hb
  · refine ⟨q, hq, ?_⟩
    rw [defaultBinding] at hb
    split at hb
    · rename_i hpack
      obtain rfl := Option.some.inj hb
      exact ⟨hpack, fun _ ht => absurd ht List.not_mem_nil⟩
    · rename_i hpack
      rw [Bool.not_eq_true] at hpack
      obtain ⟨t, ht, rfl⟩ := Option.map_eq_some_iff.mp hb
      exact ⟨hpack, hdefaults j q t hq hpack ht τ hkinds hbefore⟩

/-- A pack that is not bound is completed to the empty one. -/
theorem get?_complete_pack {id : ParamId} {q : Parameter} (hq : p.parameter? id = some q)
    (hpack : model.isPack q = true) (hget : σ.get? id = none) :
    (p.complete model σ).get? id = some (.pack []) := by
  have hempty : ∀ b, (p.complete model σ).get? id = some b → b = .pack [] := by
    refine complete_induction model (P := fun _ τ => ∀ b, τ.get? id = some b → b = .pack []) ?_ ?_
    · intro j q' τ hq' hτ b hb
      rcases get?_completeAt_cases hb with hb | ⟨rfl, -, hb⟩
      · exact hτ b hb
      · obtain rfl := Option.some.inj (hq.symm.trans hq')
        rw [defaultBinding, hpack] at hb
        exact (Option.some.inj hb).symm
    · intro b hb
      exact absurd (hget.symm.trans hb) (Option.some_ne_none b).symm
  have hsome : ((p.complete model σ).get? id).isSome = true :=
    (isSome_get?_complete σ id).mpr (.inr ⟨q, hq, by rw [hpack, Bool.true_or]⟩)
  obtain ⟨b, hb⟩ := Option.isSome_iff_exists.mp hsome
  rw [hb, hempty b hb]

end Pattern

/-! ### Bindings and lists of template arguments -/

/-- Only the last parameter is a pack. -/
def Parameter.PackLast (model : TypeModel) (qs : List Parameter) : Prop :=
  ∀ id q, qs[id]? = some q → model.isPack q = true → id + 1 = qs.length

theorem Parameter.PackLast.tail {q : Parameter} {qs : List Parameter}
    (h : PackLast model (q :: qs)) : PackLast model qs :=
  fun id q' hq' hpack => Nat.succ.inj (h (id + 1) q' hq' hpack)

theorem Parameter.PackLast.nil_of_isPack {q : Parameter} {qs : List Parameter}
    (h : PackLast model (q :: qs)) (hpack : model.isPack q = true) : qs = [] :=
  List.length_eq_zero_iff.mp (Nat.succ.inj (h 0 q rfl hpack)).symm

namespace Substitution

/-- Bindings for the first parameters, written out one after the other. -/
theorem flatten_of_bindings {σ : Substitution} {bs : List Binding}
    (h : ∀ id < bs.length, σ.get? id = bs[id]?) :
    σ.flatten bs.length = some (bs.flatMap Binding.terms) := by
  have hsome : (σ.flatten bs.length).isSome = true := by
    refine (σ.isSome_flatten bs.length).mpr fun id hid => ?_
    rw [h id hid, List.getElem?_eq_getElem hid]
    rfl
  obtain ⟨D, hD⟩ := Option.isSome_iff_exists.mp hsome
  obtain ⟨bs', hlength, rfl, hget⟩ := exists_bindings_of_flatten hD
  have hbs : bs' = bs := by
    refine List.ext_getElem? fun id => ?_
    by_cases hid : id < bs.length
    · rw [← hget id hid, h id hid]
    · rw [Nat.not_lt] at hid
      rw [List.getElem?_eq_none hid, List.getElem?_eq_none (hlength ▸ hid)]
  rw [hD, hbs]

/-- A list that was written out consists of a binding for each parameter, and what is known of all
bindings is known of these. -/
theorem exists_forall₂_of_flatten {R : Parameter → Binding → Prop} {parameters : List Parameter}
    {σ : Substitution} (h : ∀ id b, σ.get? id = some b → ∃ q, parameters[id]? = some q ∧ R q b)
    {D : List Term} (hD : σ.flatten parameters.length = some D) :
    ∃ bs, List.Forall₂ R parameters bs ∧ D = bs.flatMap Binding.terms ∧
      ∀ id, σ.get? id = bs[id]? := by
  obtain ⟨bs, hlength, rfl, hget⟩ := exists_bindings_of_flatten hD
  have hbound : ∀ id, σ.get? id = bs[id]? := by
    intro id
    by_cases hid : id < parameters.length
    · exact hget id hid
    · rw [Nat.not_lt] at hid
      rw [List.getElem?_eq_none (hlength ▸ hid), Option.eq_none_iff_forall_ne_some]
      intro b hb
      obtain ⟨q, hq, -⟩ := h id b hb
      rw [List.getElem?_eq_none hid] at hq
      exact absurd hq (Option.some_ne_none q).symm
  refine ⟨bs, List.forall₂_iff_get.mpr ⟨hlength.symm, fun i hi hi' => ?_⟩, rfl, hbound⟩
  obtain ⟨q, hq, hb⟩ := h i bs[i] ((hbound i).trans (List.getElem?_eq_getElem hi'))
  obtain rfl := Option.some.inj ((List.getElem?_eq_getElem hi).symm.trans hq)
  exact hb

theorem RespectsForms.exists_bindings {parameters : List Parameter} {σ : Substitution}
    (h : σ.RespectsForms model parameters) {D : List Term}
    (hD : σ.flatten parameters.length = some D) :
    ∃ bs, List.Forall₂ (Binding.OfForm model) parameters bs ∧ D = bs.flatMap Binding.terms ∧
      ∀ id, σ.get? id = bs[id]? :=
  exists_forall₂_of_flatten h hD

end Substitution

namespace Binding

theorem Suits.ofForm {q : Parameter} {b : Binding} (h : b.Suits model q) : b.OfForm model q := by
  cases b with
  | single t => exact h.1
  | pack ts => exact h.1

theorem Suits.isExpansion {q : Parameter} {b : Binding} (h : b.Suits model q) :
    ∀ t ∈ b.terms, t.isExpansion = false := by
  cases b with
  | single t => exact List.forall_mem_singleton.mpr (Deduction.isExpansion_of_accepts h.2)
  | pack ts => exact fun t ht => Deduction.isExpansion_of_accepts (h.2 t ht)

theorem OfKind.suits {q : Parameter} {b : Binding} (h : b.OfKind model q)
    (hplain : ∀ t ∈ b.terms, t.isExpansion = false) : b.Suits model q := by
  cases b with
  | single t => exact h
  | pack ts =>
    refine ⟨h.1, fun t ht => ?_⟩
    have haccepts := h.2 t ht
    rwa [Term.expanded_eq_self (hplain t ht)] at haccepts

end Binding

/-- Every parameter has a share in the list exactly if there is one term for each. -/
theorem Binding.length_le_iff (qs : List Parameter) : ∀ bs : List Binding,
    List.Forall₂ (Binding.OfForm model) qs bs → Parameter.PackLast model qs →
      (qs.length ≤ (bs.flatMap Binding.terms).length ↔ ∀ b ∈ bs, b.terms ≠ []) := by
  induction qs with
  | nil =>
    intro bs hbs _
    cases hbs
    simp
  | cons q qs ih =>
    intro bs hbs hlast
    cases hbs with
    | @cons _ b _ bs hb hbs =>
      cases b with
      | single t =>
        have hrest := ih bs hbs hlast.tail
        rw [List.flatMap_cons, Binding.terms, List.singleton_append, List.length_cons,
          List.length_cons, Nat.add_le_add_iff_right, hrest, List.forall_mem_cons]
        exact (and_iff_right (List.cons_ne_nil t [])).symm
      | pack ts =>
        obtain rfl := hlast.nil_of_isPack hb
        cases hbs
        rw [List.flatMap_singleton, Binding.terms, List.forall_mem_singleton, Binding.terms]
        exact List.length_pos_iff

namespace Pattern

/-- What is taken as template arguments is of the kinds of the parameters. -/
theorem suits_of_seedFrom (qs : List Parameter) : ∀ (id : ParamId) (bs : List Binding)
    (seed seed' : Substitution), List.Forall₂ (Binding.OfForm model) qs bs →
    Parameter.PackLast model qs →
    seedFrom model id qs (bs.flatMap Binding.terms) seed = some seed' →
    List.Forall₂ (Binding.Suits model) qs bs := by
  induction qs with
  | nil =>
    intro id bs seed seed' hbs _ _
    cases hbs
    exact .nil
  | cons q qs ih =>
    intro id bs seed seed' hbs hlast h
    cases hbs with
    | @cons _ b _ bs hb hbs =>
      cases b with
      | single t =>
        rw [List.flatMap_cons, Binding.terms, List.singleton_append, seedFrom,
          show model.isPack q = false from hb, if_neg Bool.false_ne_true] at h
        split at h
        · rename_i haccepts
          exact .cons ⟨hb, haccepts⟩ (ih (id + 1) bs _ seed' hbs hlast.tail h)
        · exact absurd h (Option.some_ne_none seed').symm
      | pack ts =>
        obtain rfl := hlast.nil_of_isPack hb
        cases hbs
        refine .cons ⟨hb, ?_⟩ .nil
        rw [List.flatMap_singleton, Binding.terms] at h
        cases ts with
        | nil => exact fun _ ht => absurd ht List.not_mem_nil
        | cons t ts =>
          rw [seedFrom, show model.isPack q = true from hb, if_pos rfl] at h
          split at h
          · rename_i hall
            exact List.all_eq_true.mp hall
          · exact absurd h (Option.some_ne_none seed').symm

section Seed

variable {p : Pattern} (hlast : Parameter.PackLast model p.parameters) {σ seed : Substitution}
  {D : List Term}

include hlast

/-- **What was written out is bound again, except for an empty pack.** -/
theorem get?_of_seed? (hσ : σ.RespectsForms model p.parameters)
    (hD : σ.flatten p.parameters.length = some D) (hseed : p.seed? model D = some seed)
    (id : ParamId) : seed.get? id = (σ.get? id).filter fun b => !b.terms.isEmpty := by
  obtain ⟨bs, hbs, rfl, hget⟩ := hσ.exists_bindings hD
  have hsuits := suits_of_seedFrom p.parameters 0 bs .empty seed hbs hlast hseed
  obtain ⟨seed', hseed', -, hbound⟩ := seedFrom_terms p.parameters 0 bs .empty hsuits hlast
  obtain rfl := Option.some.inj (hseed.symm.trans hseed')
  rw [hbound, if_pos (Nat.zero_le id), Nat.sub_zero, Substitution.get?_empty, Option.or_none, hget]

/-- **Completion makes up for an empty pack,** and then everything is bound as it was. -/
theorem get?_complete_seed (hσ : σ.RespectsForms model p.parameters)
    (hD : σ.flatten p.parameters.length = some D) (hseed : p.seed? model D = some seed)
    (id : ParamId) : (p.complete model seed).get? id = σ.get? id := by
  have hseeded := get?_of_seed? hlast hσ hD hseed id
  cases hb : σ.get? id with
  | some b =>
    obtain ⟨q, hq, hform⟩ := hσ id b hb
    rw [hb, Option.filter_some] at hseeded
    by_cases hterms : b.terms = []
    · rw [hterms, List.isEmpty_nil, Bool.not_true, if_neg Bool.false_ne_true] at hseeded
      -- only a pack can be empty
      cases b with
      | single t => exact absurd hterms (List.cons_ne_nil t [])
      | pack ts =>
        obtain rfl : ts = [] := hterms
        exact get?_complete_pack hq hform hseeded
    · rw [if_pos (by simpa using hterms)] at hseeded
      exact get?_completeFrom_of_some p.parameters 0 hseeded
  | none =>
    have hbound := (σ.isSome_flatten p.parameters.length).mp (by rw [hD]; rfl)
    rw [← Option.not_isSome_iff_eq_none, isSome_get?_complete, hseeded, hb]
    rintro (h | ⟨q, hq, -⟩)
    · exact Bool.noConfusion h
    · -- a declared parameter would be bound
      have hsome := hbound id (List.getElem?_eq_some_iff.mp hq).1
      rw [hb] at hsome
      exact Bool.noConfusion hsome

/-- The template arguments are those that were written out. -/
theorem flatten_complete_seed (hσ : σ.RespectsForms model p.parameters)
    (hD : σ.flatten p.parameters.length = some D) (hseed : p.seed? model D = some seed) :
    (p.complete model seed).flatten p.parameters.length = some D := by
  have hget : (p.complete model seed).get? = σ.get? :=
    funext (get?_complete_seed hlast hσ hD hseed)
  rw [Substitution.flatten, hget]
  exact hD

/-- Without completion, an empty pack is missed. -/
theorem flatten_seed (hσ : σ.RespectsForms model p.parameters)
    (hD : σ.flatten p.parameters.length = some D) (hseed : p.seed? model D = some seed) :
    seed.flatten p.parameters.length = if p.parameters.length ≤ D.length then some D else none := by
  have hbound := get?_of_seed? hlast hσ hD hseed
  obtain ⟨bs, hbs, rfl, hget⟩ := hσ.exists_bindings hD
  have hiff := Binding.length_le_iff p.parameters bs hbs hlast
  by_cases hle : p.parameters.length ≤ (bs.flatMap Binding.terms).length
  · rw [if_pos hle, hbs.length_eq]
    refine Substitution.flatten_of_bindings fun id hid => ?_
    have hterms := hiff.mp hle _ (List.getElem_mem hid)
    rw [hbound, hget, List.getElem?_eq_getElem hid, Option.filter_some,
      if_pos (by simpa using hterms)]
  · rw [if_neg hle, ← Option.not_isSome_iff_eq_none, Substitution.isSome_flatten]
    refine fun hall => hle (hiff.mpr fun b hb => ?_)
    obtain ⟨id, hid, rfl⟩ := List.getElem_of_mem hb
    have hsome := hall id (hbs.length_eq ▸ hid)
    rw [hbound, hget, List.getElem?_eq_getElem hid, Option.filter_some] at hsome
    intro hterms
    rw [hterms] at hsome
    exact Bool.noConfusion hsome

/-- Template arguments of the right kinds are taken if none of them is an expansion. -/
theorem isSome_seed?_iff (hσ : σ.RespectsKinds model p.parameters)
    (hD : σ.flatten p.parameters.length = some D) :
    (p.seed? model D).isSome = true ↔ ∀ t ∈ D, t.isExpansion = false := by
  constructor
  · intro hsome t ht
    obtain ⟨seed, hseed⟩ := Option.isSome_iff_exists.mp hsome
    obtain ⟨bs, hbs, rfl, -⟩ := hσ.forms.exists_bindings hD
    have hsuits := suits_of_seedFrom p.parameters 0 bs .empty seed hbs hlast hseed
    obtain ⟨b, hb, htb⟩ := List.mem_flatMap.mp ht
    obtain ⟨q, -, hq⟩ := (exists_mem_of_forall₂ hsuits).2 b hb
    exact hq.isExpansion t htb
  · intro hplain
    obtain ⟨bs, hbs, rfl, -⟩ := Substitution.exists_forall₂_of_flatten hσ hD
    have hsuits : List.Forall₂ (Binding.Suits model) p.parameters bs := by
      refine List.forall₂_iff_get.mpr ⟨hbs.length_eq, fun i hi hi' => ?_⟩
      refine (hbs.get hi hi').suits fun t ht => hplain t (List.mem_flatMap.mpr ⟨_, ?_, ht⟩)
      exact List.get_mem bs ⟨i, hi'⟩
    obtain ⟨seed, hseed, -⟩ := seedFrom_terms p.parameters 0 bs .empty hsuits hlast
    exact Option.isSome_iff_exists.mpr ⟨seed, hseed⟩

end Seed

/-! ### Patterns that list their parameters -/

/-- The argument list of `p` is its parameter list, as that of a class-like primary is; a pack is
expanded, and it comes last. -/
structure ListsParameters (model : TypeModel) (p : Pattern) : Prop where
  slots : p.slots = primarySlots p.parameters
  isPack : ∀ q ∈ p.parameters, model.isPack q = q.pack
  packLast : Parameter.PackLast model p.parameters

variable {p : Pattern}

theorem arg_of_primarySlots (hslots : p.slots = primarySlots p.parameters) {id : ParamId}
    {q : Parameter} (hq : p.parameter? id = some q) :
    p.args[id]? = some (if q.pack then .expansion (.param id) else .param id) := by
  rw [args, hslots, primarySlots, List.getElem?_map, List.getElem?_mapIdx,
    show p.parameters[id]? = some q from hq]
  rfl

/-- **Registration sees to it that a primary lists its parameters:** a parameter is expanded exactly
if it is a pack, and nothing stands behind an expansion. -/
theorem listsParameters (hslots : p.slots = primarySlots p.parameters)
    (harguments : p.checkArguments model = .ok ()) : p.ListsParameters model := by
  obtain ⟨hinner, husage⟩ := checkArguments_inv harguments
  have hisPack : ∀ id q, p.parameter? id = some q → model.isPack q = q.pack := by
    intro id q hq
    have hmem := List.mem_of_getElem? (arg_of_primarySlots hslots hq)
    have hterm := checkUsage_of_mem husage _ hmem
    cases hpack : q.pack with
    | false =>
      rw [hpack, if_neg Bool.false_ne_true, checkUsage, hq] at hterm
      cases hmodel : model.isPack q with
      | false => rfl
      | true =>
        simp only [hmodel] at hterm
        exact Except.noConfusion rfl rfl (heq_of_eq hterm)
    | true =>
      rw [hpack, if_pos rfl, checkUsage] at hterm
      split at hterm
      · rename_i hany
        simpa [Term.occurrences, Pattern.isPack, hq] using hany
      · exact Except.noConfusion rfl rfl (heq_of_eq hterm)
  have hlength : p.args.length = p.parameters.length := by
    rw [args, hslots, primarySlots, List.length_map, List.length_mapIdx]
  refine ⟨hslots, fun q hq => ?_, fun id q hq hpack => ?_⟩
  · obtain ⟨id, hid⟩ := List.getElem?_of_mem hq
    exact hisPack id q hid
  · have hlt : id < p.parameters.length := (List.getElem?_eq_some_iff.mp hq).1
    by_contra hne
    -- the expansion of the pack would stand in front of another argument
    have harg := arg_of_primarySlots hslots hq
    rw [← hisPack id q hq, if_pos hpack] at harg
    have hfront : p.args.dropLast[id]? = some (.expansion (.param id)) := by
      rw [List.getElem?_dropLast, if_pos (by omega), harg]
    have hany : hasInnerExpansion p.args = true :=
      List.any_eq_true.mpr ⟨_, List.mem_of_getElem? hfront, rfl⟩
    rw [hinner] at hany
    exact Bool.noConfusion hany

/-- The slots of a primary become what their parameters are bound to. -/
theorem substList_primarySlotsFrom {σ : Substitution} (qs : List Parameter) : ∀ (id : ParamId)
    (bs : List Binding), (∀ q ∈ qs, model.isPack q = q.pack) →
    List.Forall₂ (Binding.OfForm model) qs bs → (∀ k, σ.get? (id + k) = bs[k]?) →
    Term.substList σ ((primarySlotsFrom id qs).map (·.term)) = bs.flatMap Binding.terms := by
  induction qs with
  | nil =>
    intro id bs _ hbs _
    cases hbs
    rfl
  | cons q qs ih =>
    intro id bs hfields hbs hget
    cases hbs with
    | @cons _ b _ bs hb hbs =>
      have hid : σ.get? id = some b := hget 0
      have hrest := ih (id + 1) bs (fun q' hq' => hfields q' (List.mem_cons_of_mem _ hq')) hbs
        fun k => by rw [Nat.add_assoc, Nat.add_comm 1 k, hget (k + 1), List.getElem?_cons_succ]
      rw [primarySlotsFrom, List.map_cons, List.flatMap_cons, ← hrest,
        ← hfields q List.mem_cons_self]
      cases b with
      | single t =>
        rw [show model.isPack q = false from hb, if_neg Bool.false_ne_true, Term.substList,
          Substitution.applyList_cons rfl, Substitution.apply, Substitution.atParam, hid]
        rfl
      | pack ts =>
        have hpack : σ.boundPack (.param id) = some (id, ts) := by
          simp [Substitution.boundPack, Term.occurrences, hid]
        have helement : ∀ e : Term, e.expandedLike
            (Substitution.apply (.param id) (σ.atElement id e)) = e := by
          intro e
          rw [Substitution.apply, Substitution.atParam, Substitution.atElement,
            Substitution.get?_insert_self]
          cases e <;> rfl
        rw [show model.isPack q = true from hb, if_pos rfl, Term.substList,
          Substitution.applyList, hpack]
        dsimp only
        rw [List.map_congr_left fun e _ => helement e, List.map_id']
        rfl

/-- **Under a substitution for its parameters, the argument list of a primary is the list of the
template arguments.** -/
theorem ListsParameters.substList_args (h : p.ListsParameters model) {σ : Substitution}
    (hσ : σ.RespectsForms model p.parameters) {D : List Term}
    (hD : σ.flatten p.parameters.length = some D) : Term.substList σ p.args = D := by
  obtain ⟨bs, hbs, rfl, hget⟩ := hσ.exists_bindings hD
  rw [args, h.slots, primarySlots_eq]
  exact substList_primarySlotsFrom p.parameters 0 bs h.isPack hbs fun k => by
    rw [Nat.zero_add, hget]

/-- The terms of an instance are those of the pattern under the substitution. -/
theorem map_term_instantiate (p : Pattern) (σ : Substitution) :
    (p.instantiate σ).map (·.term) = Term.substList σ p.args := by
  rw [instantiate, args]
  induction p.slots with
  | nil => rfl
  | cons slot slots ih =>
    rw [List.flatMap_cons, List.map_append, ih, List.map_cons, Term.substList_cons]
    refine congrArg (· ++ _) ?_
    cases hexp : slot.isExpansion with
    | true =>
      rw [instantiateSlot, if_pos hexp, List.map_map]
      exact List.map_id' _
    | false =>
      rw [instantiateSlot, if_neg (Bool.eq_false_iff.mp hexp), Term.substList,
        Substitution.applyList_cons hexp]
      rfl

end Pattern

end TemplateResolution
