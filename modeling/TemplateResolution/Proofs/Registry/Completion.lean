import TemplateResolution.Proofs.Matching.EmptyPacks
import TemplateResolution.Proofs.Registry.Explicits

/-!
# Completing an explicit specialization again

A recorded explicit specialization has all its template arguments and its whole argument list.
Declared again in this form, it should be completed to itself, and then it is refused as a duplicate
of what is recorded.

The template arguments come first if there are any: they are bound again, and completion makes up
for an empty pack.  This fails if one of them is an expansion, as an element of a pack may be, since
an expansion is not accepted as a template argument.  Without template arguments every parameter is
an empty pack, and the argument list is matched; this fails if the pack is mentioned, but under
offsets only.  In any other case the way leads back (`LeadsBack`), and the same template arguments
and argument list are found (`Reachable.register_explicit_again`).
-/

namespace TemplateResolution

variable {model : TypeModel}

/-! ### Template arguments and bindings -/

namespace Binding

/-- The template argument of a parameter that is no pack stands at the position of the parameter. -/
theorem getElem?_flatMap_terms (qs : List Parameter) : ∀ (bs : List Binding) (id : ParamId)
    (t : Term), List.Forall₂ (Binding.OfForm model) qs bs → Parameter.PackLast model qs →
    bs[id]? = some (.single t) → (bs.flatMap Binding.terms)[id]? = some t := by
  induction qs with
  | nil =>
    intro bs id t hbs _ hid
    cases hbs
    exact absurd hid (Option.some_ne_none _).symm
  | cons q qs ih =>
    intro bs id t hbs hlast hid
    cases hbs with
    | @cons _ b _ bs hb hbs =>
      cases b with
      | single u =>
        cases id with
        | zero => exact congrArg some (Binding.single.inj (Option.some.inj hid))
        | succ id => exact ih bs id t hbs hlast.tail hid
      | pack us =>
        obtain rfl := hlast.nil_of_isPack hb
        cases hbs
        cases id with
        | zero => exact Binding.noConfusion (Option.some.inj hid)
        | succ id => exact absurd hid (Option.some_ne_none _).symm

theorem OfForm.exists_pack {q : Parameter} {b : Binding} (h : b.OfForm model q)
    (hpack : model.isPack q = true) : ∃ us, b = .pack us := by
  cases b with
  | pack us => exact ⟨us, rfl⟩
  | single t => exact Bool.noConfusion (hpack.symm.trans h)

theorem OfForm.exists_single {q : Parameter} {b : Binding} (h : b.OfForm model q)
    (hpack : model.isPack q = false) : ∃ t, b = .single t := by
  cases b with
  | single t => exact ⟨t, rfl⟩
  | pack us => exact Bool.noConfusion (hpack.symm.trans h)

/-- Bindings are known from the list that they are written out to. -/
theorem eq_of_flatMap_terms (qs : List Parameter) : ∀ bs bs' : List Binding,
    List.Forall₂ (Binding.OfForm model) qs bs → List.Forall₂ (Binding.OfForm model) qs bs' →
    Parameter.PackLast model qs → bs.flatMap Binding.terms = bs'.flatMap Binding.terms →
    bs = bs' := by
  induction qs with
  | nil =>
    intro bs bs' hbs hbs' _ _
    cases hbs
    cases hbs'
    rfl
  | cons q qs ih =>
    intro bs bs' hbs hbs' hlast h
    cases hbs with
    | @cons _ b _ bs hb hbs =>
      cases hbs' with
      | @cons _ b' _ bs' hb' hbs' =>
        cases hpack : model.isPack q with
        | true =>
          obtain rfl := hlast.nil_of_isPack hpack
          cases hbs
          cases hbs'
          obtain ⟨us, rfl⟩ := hb.exists_pack hpack
          obtain ⟨us', rfl⟩ := hb'.exists_pack hpack
          rw [List.flatMap_singleton, List.flatMap_singleton] at h
          rw [show us = us' from h]
        | false =>
          obtain ⟨t, rfl⟩ := hb.exists_single hpack
          obtain ⟨t', rfl⟩ := hb'.exists_single hpack
          obtain ⟨rfl, htail⟩ := List.cons.inj h
          rw [ih bs bs' hbs hbs' hlast.tail htail]

end Binding

namespace Substitution

variable {parameters : List Parameter} {σ τ : Substitution} {D : List Term}

theorem RespectsForms.get?_eq_none (hσ : σ.RespectsForms model parameters) {id : ParamId}
    (hid : parameters.length ≤ id) : σ.get? id = none := by
  rw [Option.eq_none_iff_forall_ne_some]
  intro b hb
  obtain ⟨q, hq, -⟩ := hσ id b hb
  rw [List.getElem?_eq_none hid] at hq
  exact Option.some_ne_none q hq.symm

/-- A substitution is known from its template arguments. -/
theorem RespectsForms.get?_eq_of_flatten (hσ : σ.RespectsForms model parameters)
    (hτ : τ.RespectsForms model parameters) (hlast : Parameter.PackLast model parameters)
    (hD : σ.flatten parameters.length = some D) (hD' : τ.flatten parameters.length = some D)
    (id : ParamId) : σ.get? id = τ.get? id := by
  obtain ⟨bs, hbs, rfl, hget⟩ := hσ.exists_bindings hD
  obtain ⟨bs', hbs', heq, hget'⟩ := hτ.exists_bindings hD'
  rw [hget, hget', Binding.eq_of_flatMap_terms parameters bs bs' hbs hbs' hlast heq]

theorem RespectsForms.getElem?_of_single (hσ : σ.RespectsForms model parameters)
    (hlast : Parameter.PackLast model parameters) (hD : σ.flatten parameters.length = some D)
    {id : ParamId} {t : Term} (hid : σ.get? id = some (.single t)) : D[id]? = some t := by
  obtain ⟨bs, hbs, rfl, hget⟩ := hσ.exists_bindings hD
  exact Binding.getElem?_flatMap_terms parameters bs id t hbs hlast ((hget id).symm.trans hid)

/-- No template argument is left if every parameter is an empty pack. -/
theorem RespectsForms.get?_of_flatten_nil (hσ : σ.RespectsForms model parameters)
    (hD : σ.flatten parameters.length = some []) {id : ParamId} (hid : id < parameters.length) :
    σ.get? id = some (.pack []) ∧ ∃ q, parameters[id]? = some q ∧ model.isPack q = true := by
  obtain ⟨bs, hbs, hnil, hget⟩ := hσ.exists_bindings hD
  have hid' : id < bs.length := hbs.length_eq ▸ hid
  have hterms := List.flatMap_eq_nil_iff.mp hnil.symm bs[id] (List.getElem_mem hid')
  have hform := hbs.get hid hid'
  rw [List.get_eq_getElem, List.get_eq_getElem] at hform
  rw [hget, List.getElem?_eq_getElem hid']
  generalize bs[id] = b at hterms hform
  cases b with
  | single t => exact absurd hterms (List.cons_ne_nil t [])
  | pack us =>
    obtain rfl : us = [] := hterms
    exact ⟨rfl, _, List.getElem?_eq_getElem hid, hform⟩

theorem flatten_congr (h : ∀ id, σ.get? id = τ.get? id) (count : Nat) :
    σ.flatten count = τ.flatten count := by
  rw [flatten, flatten, funext h]

end Substitution

namespace Pattern

variable {p : Pattern} {σ τ : Substitution} {ts : List Term}

theorem instantiate_congr (h : ∀ id, σ.get? id = τ.get? id) (p : Pattern) :
    p.instantiate σ = p.instantiate τ := by
  have hsubst : Term.subst σ = Term.subst τ :=
    funext fun t => Substitution.apply_congr t fun id _ => h id
  have hsubsts : Term.substList σ = Term.substList τ :=
    funext fun ts => Substitution.applyList_congr ts fun id _ => h id
  have hslot : instantiateSlot σ = instantiateSlot τ := by
    funext slot
    rw [instantiateSlot, instantiateSlot, hsubst, hsubsts]
  rw [instantiate, instantiate, hslot]

/-- What is bound after completion was bound before, or it is a default. -/
theorem get?_complete_cases {id : ParamId} {b : Binding}
    (h : (p.complete model σ).get? id = some b) :
    σ.get? id = some b ∨
      ∃ q τ, p.parameter? id = some q ∧ defaultBinding model q τ = some b := by
  refine complete_induction model (P := fun _ τ' => ∀ id b, τ'.get? id = some b →
    σ.get? id = some b ∨ ∃ q τ, p.parameter? id = some q ∧ defaultBinding model q τ = some b)
    ?_ (fun _ _ hb => .inl hb) id b h
  intro i q τ hq hτ j b hb
  rcases get?_completeAt_cases hb with hb | ⟨rfl, -, hb⟩
  · exact hτ j b hb
  · exact .inr ⟨q, τ, hq, hb⟩

/-- A template argument that is the default of its parameter is of the kind of that. -/
def DefaultsFit (model : TypeModel) (p : Pattern) (ts : List Term) : Prop :=
  ∀ id q t σ, p.parameter? id = some q → model.isPack q = false → q.default = some t →
    ts[id]? = some (t.subst σ) → model.accepts q (t.subst σ) = true

/-- Completion respects the kinds if the defaults that it takes are of theirs. -/
theorem DefaultsFit.complete (hfit : p.DefaultsFit model ts)
    (hlast : Parameter.PackLast model p.parameters) (hσ : σ.RespectsKinds model p.parameters)
    (hts : (p.complete model σ).flatten p.parameters.length = some ts) :
    (p.complete model σ).RespectsKinds model p.parameters := by
  intro id b hb
  rcases get?_complete_cases hb with hbefore | ⟨q, τ, hq, hdefault⟩
  · exact hσ id b hbefore
  · refine ⟨q, hq, ?_⟩
    rw [defaultBinding] at hdefault
    split at hdefault
    · rename_i hpack
      obtain rfl := Option.some.inj hdefault
      exact ⟨hpack, fun _ ht => absurd ht List.not_mem_nil⟩
    · rename_i hpack
      rw [Bool.not_eq_true] at hpack
      obtain ⟨t, ht, rfl⟩ := Option.map_eq_some_iff.mp hdefault
      have harg := (complete_respectsForms hσ.forms).getElem?_of_single hlast hts hb
      exact ⟨hpack, hfit id q t τ hq hpack ht harg⟩

/-- The template arguments `ts` and the argument list of the instance at them lead back to each
other: no template argument is an expansion, and if there is none, then a match of the argument list
finds an empty pack wherever one is mentioned. -/
structure LeadsBack (p : Pattern) (ts : List Term) : Prop where
  plain : ∀ t ∈ ts, t.isExpansion = false
  found : ts = [] →
    Term.hasReadExpansionList p.args = true ∨ Term.occurrencesList p.args = []

instance (p : Pattern) (ts : List Term) : Decidable (p.LeadsBack ts) :=
  decidable_of_iff ((∀ t ∈ ts, t.isExpansion = false) ∧ (ts = [] →
      Term.hasReadExpansionList p.args = true ∨ Term.occurrencesList p.args = []))
    ⟨fun h => ⟨h.1, h.2⟩, fun h => ⟨h.plain, h.found⟩⟩

theorem checkParameters_of_nil (h : p.parameters = []) : p.checkParameters model = .ok () := by
  rw [checkParameters, checkPacks, fromPack, h]
  rfl

end Pattern

namespace Declarations

variable {d : Declarations} {e t : Pattern} {σ : Substitution} {ts : List Term}

/-! ### The substitution is found again -/

section Again

variable (hlast : Parameter.PackLast d.model t.parameters)
  (hts : σ.flatten t.parameters.length = some ts)

include hlast hts

/-- Template arguments are bound to what they were written out from. -/
theorem explicitSubstitution_of_ne_nil (hσ : σ.RespectsKinds d.model t.parameters)
    (hne : ts ≠ []) (hplain : ∀ u ∈ ts, u.isExpansion = false) :
    ∃ τ, d.explicitSubstitution e t ts = .ok τ ∧ ∀ id, τ.get? id = σ.get? id := by
  obtain ⟨seed, hseed⟩ :=
    Option.isSome_iff_exists.mp ((Pattern.isSome_seed?_iff hlast hσ hts).mpr hplain)
  have hforms : (t.complete d.model seed).RespectsForms d.model t.parameters :=
    Pattern.complete_respectsForms
      (Pattern.respectsKinds_seedFrom t.parameters 0 ts .empty seed rfl .empty hseed).forms
  refine ⟨t.complete d.model seed, ?_, hforms.get?_eq_of_flatten hσ.forms hlast
    (Pattern.flatten_complete_seed hlast hσ.forms hts hseed) hts⟩
  rw [explicitSubstitution, if_neg (by simpa using hne), hseed]

/-- An expansion among them is not taken. -/
theorem explicitSubstitution_of_isExpansion (hσ : σ.RespectsKinds d.model t.parameters)
    (hexp : ¬ ∀ u ∈ ts, u.isExpansion = false) :
    d.explicitSubstitution e t ts =
      .error (.explicitArgumentMismatch e.name t.parameters.length ts.length) := by
  have hne : ts ≠ [] := by
    rintro rfl
    exact hexp fun _ hu => absurd hu List.not_mem_nil
  have hnone : t.seed? d.model ts = none := by
    rw [← Option.not_isSome_iff_eq_none, Pattern.isSome_seed?_iff hlast hσ hts]
    exact hexp
  rw [explicitSubstitution, if_neg (by simpa using hne), hnone]

end Again

section Empty

variable (hσ : σ.RespectsForms d.model t.parameters)
  (hts : σ.flatten t.parameters.length = some [])
  (hdeclared : ∀ id ∈ Term.occurrencesList t.args, id < t.parameters.length)
  (harranges : t.ArrangesList d.model t.args) (he : e.args = Term.substList σ t.args)

include hσ hts hdeclared

/-- Where no template argument is left, everything is an empty pack. -/
theorem empties_of_flatten_nil : t.Empties d.model σ (Term.occurrencesList t.args) := by
  refine ⟨fun id hid => ?_, fun id hid => (hσ.get?_of_flatten_nil hts (hdeclared id hid)).1⟩
  obtain ⟨-, q, hq, hpack⟩ := hσ.get?_of_flatten_nil hts (hdeclared id hid)
  rw [Pattern.isPack, Pattern.parameter?, hq]
  exact hpack

include harranges he

/-- Without template arguments, all packs are found empty. -/
theorem explicitSubstitution_nil (hrefl : ∀ n, d.model.sameLeaf n n = true)
    (ht : t.WellFormed d.model)
    (hfound : Term.hasReadExpansionList t.args = true ∨ Term.occurrencesList t.args = []) :
    ∃ τ, d.explicitSubstitution e t [] = .ok τ ∧ ∀ id, τ.get? id = σ.get? id := by
  have hempty : ∀ id b, σ.get? id = some b → b = .pack [] := by
    intro id b hb
    obtain ⟨q, hq, -⟩ := hσ id b hb
    have hid := (hσ.get?_of_flatten_nil hts (List.getElem?_eq_some_iff.mp hq).1).1
    exact Option.some.inj (hb.symm.trans hid)
  obtain ⟨τ, hτ, hpacks⟩ := Pattern.match?_emptied hrefl ht harranges
    (empties_of_flatten_nil hσ hts hdeclared) hempty hfound
  have hforms : (t.complete d.model τ).RespectsForms d.model t.parameters :=
    Pattern.complete_respectsForms (Pattern.respectsKinds_of_match? .empty hτ).forms
  refine ⟨t.complete d.model τ, ?_, fun id => ?_⟩
  · rw [explicitSubstitution, if_pos (by rfl), he, hτ]
  · by_cases hid : id < t.parameters.length
    · obtain ⟨hbound, q, hq, hpack⟩ := hσ.get?_of_flatten_nil hts hid
      rw [hbound]
      cases hget : τ.get? id with
      | none => exact Pattern.get?_complete_pack hq hpack hget
      | some b =>
        rw [← hpacks id b hget]
        exact Pattern.get?_completeFrom_of_some t.parameters 0 hget
    · rw [Nat.not_lt] at hid
      rw [hforms.get?_eq_none hid, hσ.get?_eq_none hid]

/-- A pack that only offsets mention is not found. -/
theorem explicitSubstitution_nil_of_not_found (hrefl : ∀ n, d.model.sameLeaf n n = true)
    (htrans : ∀ k l n, d.model.sameLeaf k l = true → d.model.sameLeaf l n = true →
      d.model.sameLeaf k n = true)
    (hfound : ¬ (Term.hasReadExpansionList t.args = true ∨ Term.occurrencesList t.args = [])) :
    d.explicitSubstitution e t [] = .error (.undeducibleExplicit e.name e.signature) := by
  have hnone : t.match? d.model .structural .empty e.args = none := by
    rw [he, Option.eq_none_iff_forall_ne_some]
    exact fun τ hτ => hfound (Pattern.match?_emptied_inv hrefl htrans harranges
      (empties_of_flatten_nil hσ hts hdeclared) hτ)
  rw [explicitSubstitution, if_pos (by rfl), hnone]

end Empty

/-- **The substitution is found again exactly if the way leads back.** -/
theorem explicitSubstitution_again (hrefl : ∀ n, d.model.sameLeaf n n = true)
    (htrans : ∀ k l n, d.model.sameLeaf k l = true → d.model.sameLeaf l n = true →
      d.model.sameLeaf k n = true)
    (ht : t.WellFormed d.model) (hlast : Parameter.PackLast d.model t.parameters)
    (hdeclared : ∀ id ∈ Term.occurrencesList t.args, id < t.parameters.length)
    (harranges : t.ArrangesList d.model t.args) (hσ : σ.RespectsKinds d.model t.parameters)
    (hts : σ.flatten t.parameters.length = some ts) (he : e.args = Term.substList σ t.args) :
    (t.LeadsBack ts →
      ∃ τ, d.explicitSubstitution e t ts = .ok τ ∧ ∀ id, τ.get? id = σ.get? id) ∧
    (¬ t.LeadsBack ts →
      d.explicitSubstitution e t ts =
        .error (if ts.isEmpty then .undeducibleExplicit e.name e.signature
          else .explicitArgumentMismatch e.name t.parameters.length ts.length)) := by
  cases ts with
  | nil =>
    have hplain : ∀ u ∈ ([] : List Term), u.isExpansion = false :=
      fun _ hu => absurd hu List.not_mem_nil
    constructor
    · intro hback
      exact explicitSubstitution_nil hσ.forms hts hdeclared harranges he hrefl ht (hback.found rfl)
    · intro hback
      exact explicitSubstitution_nil_of_not_found hσ.forms hts hdeclared harranges he hrefl htrans
        fun hfound => hback ⟨hplain, fun _ => hfound⟩
  | cons u us =>
    constructor
    · intro hback
      exact explicitSubstitution_of_ne_nil hlast hts hσ (List.cons_ne_nil u us) hback.plain
    · intro hback
      exact explicitSubstitution_of_isExpansion hlast hts hσ
        fun hplain => hback ⟨hplain, fun hnil => absurd hnil (List.cons_ne_nil u us)⟩

/-! ### What completion answers -/

section Answer

variable {of id : PatternId} (hparameters : e.parameters = []) (htarget : d.target e of = .ok t)
  (hbase : t.role = .primary ∨ t.role = .overload)

include hparameters htarget hbase

theorem completeExplicit_of_error {err : RegistrationError}
    (hσ : d.explicitSubstitution e t ts = .error err) :
    d.completeExplicit e of ts = .error err := by
  rcases hbase with hrole | hrole <;>
    simp [completeExplicit, hparameters, htarget, hrole, hσ, bind, Except.bind]

/-- What is completed to itself is a duplicate of what is recorded. -/
theorem completeExplicit_of_recorded (hrefl : ∀ n, d.model.sameLeaf n n = true)
    (hrole : e.role = .explicitOf of ts) (hσ : d.explicitSubstitution e t ts = .ok σ)
    (hts : σ.flatten t.parameters.length = some ts) (hslots : t.instantiate σ = e.slots)
    (hrecorded : (d.family? e.name).bind (fun f => d.explicitAt? f of ts) = some id) :
    d.completeExplicit e of ts = .error (.duplicatePattern e.name e.signature id) := by
  have hargs : d.model.sameTerms ((e.slots.map (·.term)).take e.slots.length) e.args = true := by
    rw [List.take_of_length_le (by rw [List.length_map])]
    exact Term.sameList_refl hrefl e.args
  have hcompleted : { name := e.name, role := .explicitOf of ts, slots := e.slots } = e := by
    obtain ⟨name, role, parameters, slots⟩ := e
    obtain rfl : role = .explicitOf of ts := hrole
    obtain rfl : parameters = [] := hparameters
    rfl
  have hflatten : explicitTemplateArgs e t ts σ = .ok ts := by rw [explicitTemplateArgs, hts]
  rcases hbase with hbase | hbase <;>
    simp [completeExplicit, hparameters, htarget, hbase, hσ, hflatten, hslots, hargs, hrecorded,
      hcompleted, bind, Except.bind]

end Answer

end Declarations

namespace Registry.Reachable

/-- **A recorded explicit specialization is completed to itself, if its template arguments and its
argument list lead back to each other.**  It is then refused as a duplicate of what is recorded, and
otherwise because no substitution is found. -/
theorem register_explicit_again {r : Registry} (h : r.Reachable) (hopen : r.frozen = false)
    (hrefl : ∀ n, r.declarations.model.sameLeaf n n = true)
    (hsymm : ∀ k l, r.declarations.model.sameLeaf k l = true →
      r.declarations.model.sameLeaf l k = true)
    (htrans : ∀ k l n, r.declarations.model.sameLeaf k l = true →
      r.declarations.model.sameLeaf l n = true → r.declarations.model.sameLeaf k n = true)
    {id of : PatternId} {e t : Pattern} {ts : List Term}
    (he : r.declarations.pattern? id = some e) (hrole : e.role = .explicitOf of ts)
    (ht : r.declarations.pattern? of = some t) (hnormal : ∀ u ∈ t.args, u.isNormal = true)
    (hdeclared : ∀ i ∈ Term.occurrencesList t.args, i < t.parameters.length)
    (hlists : Term.expandsInListsList t.args = true)
    (hlast : Parameter.PackLast r.declarations.model t.parameters)
    (hfit : t.DefaultsFit r.declarations.model ts) :
    (t.LeadsBack ts →
      (∃ σ, r.declarations.explicitSubstitution e t ts = .ok σ ∧
        σ.flatten t.parameters.length = some ts ∧ t.instantiate σ = e.slots) ∧
      r.register e = .error (.duplicatePattern e.name e.signature id)) ∧
    (¬ t.LeadsBack ts →
      r.register e = .error (if ts.isEmpty then .undeducibleExplicit e.name e.signature
        else .explicitArgumentMismatch e.name t.parameters.length ts.length)) := by
  obtain ⟨hparameters, -⟩ := h.linked.explicits id of ts e he hrole
  obtain ⟨t', ht', hname, hbase, σ₀, hσ₀, hts, hslots⟩ := h.explicit_inv he hrole
  obtain rfl := Option.some.inj (ht.symm.trans ht')
  have hwellFormed : t.WellFormed r.declarations.model :=
    h.wellFormed ht (by rcases hbase with hbase | hbase <;> rw [hbase] <;> rfl)
  have harranges := hwellFormed.arrangesList hnormal hlists
  have htarget : r.declarations.target e of = .ok t := by
    rw [Declarations.target, ht]
    exact if_pos hname
  -- registering comes down to completing
  have hregister : ∀ err, r.declarations.completeExplicit e of ts = .error err →
      r.register e = .error err := by
    intro err herr
    have haccept : r.declarations.accept e = .error err := by
      rw [Declarations.accept, Pattern.checkParameters_of_nil hparameters, hrole]
      exact herr
    rw [Registry.register, hopen, haccept]
    rfl
  let σ := t.complete r.declarations.model σ₀
  have hσ : σ.RespectsKinds r.declarations.model t.parameters := hfit.complete hlast hσ₀ hts
  have hargs : e.args = Term.substList σ t.args := by
    rw [Pattern.args, hslots, Pattern.map_term_instantiate]
  obtain ⟨hback, hnot⟩ := Declarations.explicitSubstitution_again hrefl htrans hwellFormed hlast
    hdeclared harranges hσ hts hargs
  refine ⟨fun hleads => ?_, fun hleads => hregister _ ?_⟩
  · obtain ⟨τ, hτ, hagree⟩ := hback hleads
    have hflatten : τ.flatten t.parameters.length = some ts :=
      (Substitution.flatten_congr hagree _).trans hts
    have hinstance : t.instantiate τ = e.slots :=
      (Pattern.instantiate_congr hagree t).trans hslots.symm
    -- of the template arguments there is only one explicit specialization
    obtain ⟨f, hf⟩ := h.linked.exists_family? ht
    have hfound : r.declarations.explicitAt? f of ts = some id :=
      (h.explicitAt?_eq_some hrefl hsymm htrans ht hf).mpr
        ⟨e, ts, he, hrole, Term.sameList_refl hrefl ts⟩
    have hrecorded : (r.declarations.family? e.name).bind
        (fun f => r.declarations.explicitAt? f of ts) = some id := by
      rw [← hname, hf, Option.bind_some, hfound]
    exact ⟨⟨τ, hτ, hflatten, hinstance⟩, hregister _ (Declarations.completeExplicit_of_recorded
      hparameters htarget hbase hrefl hrole hτ hflatten hinstance hrecorded)⟩
  · exact Declarations.completeExplicit_of_error hparameters htarget hbase (hnot hleads)

/-- Explicit specializations of `X<T, U = P<T>, Vs...>` and of `f<Ns...>(F<Ns...>+1 = int)`:
`X<int, P<int>>` is completed to itself, `X<int, bool, char...>` and `f<>` are not. -/
theorem register_explicit_again_pair :
    let primary := Pattern.primary "X" [{ name := "T", kind := .type },
      { name := "U", kind := .type, default := some (.apply (.template "P") [.param 0]) },
      { name := "Vs", kind := .type, pack := true }]
    let shifted := Pattern.overload "f" [{ name := "Ns", kind := .value, pack := true }]
      [⟨.offset (.apply (.template "F") [.expansion (.param 0)]) 1, some (.type "int")⟩]
    let int : Term := .type "int"
    let instanceAt (ts : List Term) : Pattern :=
      { name := "X", role := .explicitOf 0 ts, slots := ts.map ({ term := · }) }
    let short := instanceAt [int, .apply (.template "P") [int]]
    let long := instanceAt [int, .type "bool", .expansion (.type "char")]
    let empty : Slot := ⟨.offset (.apply (.template "F") []) 1, some int⟩
    let bare : Pattern := { name := "f", role := .explicitOf 1 [], slots := [empty] }
    let d := [primary, shifted, short, long, bare].foldl Declarations.record
      Registry.standard.declarations
    let r : Registry := { declarations := d }
    let m := d.model
    r.Reachable ∧ r.frozen = false ∧ (∀ n, m.sameLeaf n n = true) ∧
      (∀ k l, m.sameLeaf k l = true → m.sameLeaf l k = true) ∧
      (∀ k l n, m.sameLeaf k l = true → m.sameLeaf l n = true → m.sameLeaf k n = true) ∧
      (∀ t ∈ [primary, shifted], (∀ u ∈ t.args, u.isNormal = true) ∧
        (∀ i ∈ Term.occurrencesList t.args, i < t.parameters.length) ∧
        Term.expandsInListsList t.args = true ∧ Parameter.PackLast m t.parameters ∧
        ∀ ts, t.DefaultsFit m ts) ∧
      r.register short =
        .error (.duplicatePattern "X" "template<> X<int, P<int>>(int, P<int>)" 2) ∧
      r.register long = .error (.explicitArgumentMismatch "X" 3 3) ∧
      r.register bare = .error (.undeducibleExplicit "f" "template<> f<>(F<>+1 = int)") := by
  intro primary shifted int instanceAt short long empty bare d r m
  have haccepted : Registry.standard.registerAll [primary, shifted, .explicitAt "X" 0 [int],
      .explicitFor "X" 0 long.args, .explicitAt "f" 1 []] = .ok r := rfl
  have hr : r.Reachable := Registry.Reachable.registerAll (.empty AliasTable.empty.model) haccepted
  have hrefl : ∀ n, m.sameLeaf n n = true := AliasTable.empty.sameLeaf_refl
  have hsymm : ∀ k l, m.sameLeaf k l = true → m.sameLeaf l k = true :=
    fun k l => AliasTable.empty.sameLeaf_symm
  have htrans : ∀ k l n, m.sameLeaf k l = true → m.sameLeaf l n = true →
      m.sameLeaf k n = true := fun k l n => AliasTable.empty.sameLeaf_trans
  have hlast : Parameter.PackLast m primary.parameters := by
    intro id q hq hpack
    match id with
    | 0 | 1 =>
      obtain rfl := Option.some.inj hq
      exact Bool.noConfusion hpack
    | 2 => rfl
    | id + 3 => exact absurd hq (Option.some_ne_none q).symm
  have hlast' : Parameter.PackLast m shifted.parameters := by
    intro id q hq hpack
    match id with
    | 0 => rfl
    | id + 1 => exact absurd hq (Option.some_ne_none q).symm
  have hfit : ∀ ts, primary.DefaultsFit m ts := by
    intro ts id q t σ hq hpack hdefault _
    match id with
    | 0 =>
      obtain rfl := Option.some.inj hq
      exact absurd hdefault (Option.some_ne_none t).symm
    | 1 =>
      obtain rfl := Option.some.inj hq
      obtain rfl := Option.some.inj hdefault
      rfl
    | 2 =>
      obtain rfl := Option.some.inj hq
      exact Bool.noConfusion hpack
    | id + 3 => exact absurd hq (Option.some_ne_none q).symm
  have hfit' : ∀ ts, shifted.DefaultsFit m ts := by
    intro ts id q t σ hq hpack _ _
    match id with
    | 0 =>
      obtain rfl := Option.some.inj hq
      exact Bool.noConfusion hpack
    | id + 1 => exact absurd hq (Option.some_ne_none q).symm
  have hp : d.pattern? 0 = some primary := rfl
  have hp' : d.pattern? 1 = some shifted := rfl
  have hget : d.pattern? 2 = some short ∧ d.pattern? 3 = some long ∧ d.pattern? 4 = some bare :=
    ⟨rfl, rfl, rfl⟩
  have hshort := hr.register_explicit_again rfl hrefl hsymm htrans hget.1 rfl hp (by decide)
    (by decide) (by decide) hlast (hfit _)
  have hlong := hr.register_explicit_again rfl hrefl hsymm htrans hget.2.1 rfl hp (by decide)
    (by decide) (by decide) hlast (hfit _)
  have hbare := hr.register_explicit_again rfl hrefl hsymm htrans hget.2.2 rfl hp' (by decide)
    (by decide) (by decide) hlast' (hfit' _)
  refine ⟨hr, rfl, hrefl, hsymm, htrans, ?_, (hshort.1 (by decide)).2, hlong.2 (by decide),
    hbare.2 (by decide)⟩
  rw [List.forall_mem_cons, List.forall_mem_singleton]
  exact ⟨⟨by decide, by decide, by decide, hlast, hfit⟩,
    ⟨by decide, by decide, by decide, hlast', hfit'⟩⟩

end Registry.Reachable

end TemplateResolution
