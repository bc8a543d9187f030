import TemplateResolution.Proofs.Registry.Reachable
import TemplateResolution.Proofs.Specificity.Outcome
import Mathlib.Data.List.TakeWhile

/-!
# What registration has accepted

Whatever is recorded in a reachable registry passed the checks of registration, against
the patterns that were there at the time (`Reachable.registered`).  None of these is ever
removed, so what the checks say about a pattern and its primary stays true.

The checks depend on the role (`Passed`).  A pattern that passed them has at most one
pack (`isPack_unique`).  A partial specialization has no slot with a default, its primary
is declared, and the comparison of the two favors it (`Reachable.partial_inv`).
-/

namespace TemplateResolution

/-- A chain of checks succeeds if each of them does. -/
theorem except_bind_eq_ok {ε α β : Type} {x : Except ε α} {f : α → Except ε β} {b : β} :
    (x >>= f) = .ok b ↔ ∃ a, x = .ok a ∧ f a = .ok b := by
  cases x with
  | error e =>
    constructor
    · intro h
      exact Except.noConfusion rfl rfl (heq_of_eq h)
    · rintro ⟨a, h, -⟩
      exact Except.noConfusion rfl rfl (heq_of_eq h)
  | ok a =>
    constructor
    · exact fun h => ⟨a, rfl, h⟩
    · rintro ⟨a', h, hf⟩
      rwa [Except.ok.inj h]

namespace Pattern

variable {model : TypeModel} {p : Pattern}

/-- What registration checks of a pattern by itself. -/
structure WellFormed (model : TypeModel) (p : Pattern) : Prop where
  parameters : p.checkParameters model = .ok ()
  arguments : p.checkArguments model = .ok ()

theorem checkArguments_inv (h : p.checkArguments model = .ok ()) :
    hasInnerExpansion p.args = false ∧ p.checkUsageList model p.args false = .ok () := by
  rw [checkArguments] at h
  split at h
  · exact Except.noConfusion rfl rfl (heq_of_eq h)
  · rename_i hinner
    obtain ⟨⟨⟩, husage, -⟩ := except_bind_eq_ok.mp h
    exact ⟨Bool.eq_false_iff.mpr hinner, husage⟩

theorem checkUsage_of_mem {ts : List Term} {expanded : Bool}
    (h : p.checkUsageList model ts expanded = .ok ()) :
    ∀ t ∈ ts, p.checkUsage model t expanded = .ok () := by
  induction ts with
  | nil => exact fun t ht => absurd ht List.not_mem_nil
  | cons t ts ih =>
    rw [checkUsageList] at h
    obtain ⟨⟨⟩, hhead, htail⟩ := except_bind_eq_ok.mp h
    exact List.forall_mem_cons.mpr ⟨hhead, ih htail⟩

/-- **A pattern that passed has at most one pack.** -/
theorem isPack_unique (h : p.checkParameters model = .ok ()) {i j : ParamId}
    (hi : p.isPack model i = true) (hj : p.isPack model j = true) : i = j := by
  have hpacks : p.checkPacks model = .ok () := by
    rw [checkParameters] at h
    split at h
    · exact Except.noConfusion rfl rfl (heq_of_eq h)
    · exact h
  -- every pack stands behind the parameters before the first one
  have hmem : ∀ id, p.isPack model id = true →
      ∃ q, (q, id) ∈ p.fromPack model ∧ model.isPack q = true := by
    intro id hid
    obtain ⟨q, hq, hpack⟩ := (Option.any_eq_true _ _).mp hid
    refine ⟨q, ?_, hpack⟩
    have hall : (q, id) ∈ p.parameters.zipIdx := List.mk_mem_zipIdx_iff_getElem?.mpr hq
    rw [← List.takeWhile_append_dropWhile (p := fun x : Parameter × Nat => !model.isPack x.1)
      (l := p.parameters.zipIdx)] at hall
    rcases List.mem_append.mp hall with hbefore | hbehind
    · have hnot := List.mem_takeWhile_imp hbefore
      rw [hpack] at hnot
      exact Bool.noConfusion hnot
    · exact hbehind
  rw [checkPacks] at hpacks
  cases hfrom : p.fromPack model with
  | nil =>
    obtain ⟨q, hq, -⟩ := hmem i hi
    rw [hfrom] at hq
    exact absurd hq List.not_mem_nil
  | cons first later =>
    rw [hfrom] at hpacks
    have hlater : later.find? (fun x => model.isPack x.1) = none := by
      cases hfind : later.find? (fun x => model.isPack x.1) with
      | none => rfl
      | some second =>
        dsimp only at hpacks
        rw [hfind] at hpacks
        exact Except.noConfusion rfl rfl (heq_of_eq hpacks)
    have hfirst : ∀ id, p.isPack model id = true → id = first.2 := by
      intro id hid
      obtain ⟨q, hq, hpack⟩ := hmem id hid
      rw [hfrom] at hq
      rcases List.mem_cons.mp hq with heq | hq
      · exact congrArg Prod.snd heq
      · exact absurd hpack (List.find?_eq_none.mp hlater _ hq)
    rw [hfirst i hi, hfirst j hj]

end Pattern

namespace Declarations

variable {d : Declarations} {p p' q : Pattern} {of : PatternId}

/-! ### The checks of each role -/

/-- The pattern that a specialization names is there, and it is of the same name. -/
theorem target_inv (h : d.target p of = .ok q) : d.pattern? of = some q ∧ q.name = p.name := by
  rw [target] at h
  split at h
  · exact Except.noConfusion rfl rfl (heq_of_eq h)
  · rename_i t ht
    split at h
    · rename_i hname
      obtain rfl := Except.ok.inj h
      exact ⟨ht, hname⟩
    · exact Except.noConfusion rfl rfl (heq_of_eq h)

theorem checkPrimary_inv (h : d.checkPrimary p = .ok ()) :
    p.checkArguments d.model = .ok () ∧
      ∀ f, d.family? p.name = some f → f.flavor = .classLike ∧ f.primaries = [] := by
  rw [checkPrimary] at h
  obtain ⟨⟨⟩, harguments, h⟩ := except_bind_eq_ok.mp h
  refine ⟨harguments, fun f hf => ?_⟩
  rw [hf] at h
  cases hflavor : f.flavor with
  | functionLike =>
    simp only [hflavor] at h
    exact Except.noConfusion rfl rfl (heq_of_eq h)
  | classLike =>
    cases hprimaries : f.primaries with
    | nil => exact ⟨rfl, rfl⟩
    | cons first rest =>
      simp only [hflavor, hprimaries] at h
      exact Except.noConfusion rfl rfl (heq_of_eq h)

theorem checkOverload_inv (h : d.checkOverload p = .ok ()) :
    p.checkArguments d.model = .ok () ∧
      ∀ f, d.family? p.name = some f →
        f.flavor = .functionLike ∧ d.checkNew .functionLike f.primaries p = .ok () := by
  rw [checkOverload] at h
  obtain ⟨⟨⟩, harguments, h⟩ := except_bind_eq_ok.mp h
  refine ⟨harguments, fun f hf => ?_⟩
  rw [hf] at h
  cases hflavor : f.flavor with
  | functionLike =>
    simp only [hflavor] at h
    exact ⟨rfl, h⟩
  | classLike =>
    simp only [hflavor] at h
    exact Except.noConfusion rfl rfl (heq_of_eq h)

theorem checkPartial_inv (h : d.checkPartial p of = .ok ()) :
    ∃ q, d.pattern? of = some q ∧ q.name = p.name ∧ q.role = .primary ∧
      (∀ slot ∈ p.slots, slot.default = none) ∧ p.checkArguments d.model = .ok () ∧
      checkDeducible p = .ok () ∧ d.checkNarrower q p = .ok () ∧
      d.checkNew .classLike (((d.family? p.name).map (·.partials)).getD []) p = .ok () := by
  rw [checkPartial] at h
  obtain ⟨q, htarget, h⟩ := except_bind_eq_ok.mp h
  dsimp only at h
  obtain ⟨hq, hname⟩ := target_inv htarget
  cases hrole : q.role with
  | primary =>
    rw [hrole] at h
    obtain ⟨-, -, h⟩ := except_bind_eq_ok.mp h
    split at h
    · exact Except.noConfusion rfl rfl (heq_of_eq h)
    · rename_i hnone
      obtain ⟨-, -, h⟩ := except_bind_eq_ok.mp h
      obtain ⟨⟨⟩, harguments, h⟩ := except_bind_eq_ok.mp h
      obtain ⟨⟨⟩, hdeducible, h⟩ := except_bind_eq_ok.mp h
      obtain ⟨⟨⟩, hnarrower, hnew⟩ := except_bind_eq_ok.mp h
      refine ⟨q, hq, hname, hrole, fun slot hslot => ?_, harguments, hdeducible, hnarrower, hnew⟩
      have hdefault := List.findIdx?_eq_none_iff.mp hnone slot hslot
      rwa [Option.isSome_eq_false_iff, Option.isNone_iff_eq_none] at hdefault
  | _ =>
    rw [hrole] at h
    exact Except.noConfusion rfl rfl (heq_of_eq h)

/-- The template arguments are all those of the substitution. -/
theorem explicitTemplateArgs_inv {templateArgs ts : List Term} {σ : Substitution}
    (h : explicitTemplateArgs p q templateArgs σ = .ok ts) :
    σ.flatten q.parameters.length = some ts := by
  rw [explicitTemplateArgs] at h
  split at h
  · rename_i us hus
    rw [hus, Except.ok.inj h]
  · split at h <;> exact Except.noConfusion rfl rfl (heq_of_eq h)

/-- How an explicit specialization is completed: a substitution for the parameters of its target is
found, whose template arguments and instance it takes, and no registered one has the same. -/
theorem completeExplicit_cases {templateArgs : List Term}
    (h : d.completeExplicit p' of templateArgs = .ok p) :
    ∃ q σ ts, d.pattern? of = some q ∧ q.name = p'.name ∧
      (q.role = .primary ∨ q.role = .overload) ∧
      d.explicitSubstitution p' q templateArgs = .ok σ ∧
      σ.flatten q.parameters.length = some ts ∧
      p = { name := p'.name, role := .explicitOf of ts, slots := q.instantiate σ } ∧
      ∀ f, d.family? p'.name = some f → d.explicitAt? f of ts = none := by
  rw [completeExplicit] at h
  dsimp only at h
  split at h
  · obtain ⟨q, htarget, h⟩ := except_bind_eq_ok.mp h
    obtain ⟨hq, hname⟩ := target_inv htarget
    -- whatever the role of the target is, the same steps follow its check
    rcases hrole : q.role with _ | _ | _ | _ <;> rw [hrole] at h <;>
      obtain ⟨⟨⟩, hok, h⟩ := except_bind_eq_ok.mp h <;>
      obtain ⟨σ, hσ, h⟩ := except_bind_eq_ok.mp h <;>
      obtain ⟨ts, hts, h⟩ := except_bind_eq_ok.mp h
    case partialOf | explicitOf => exact Except.noConfusion rfl rfl (heq_of_eq hok)
    all_goals
      split at h
      · split at h
        · exact Except.noConfusion rfl rfl (heq_of_eq h)
        · rename_i hnone
          refine ⟨q, σ, ts, hq, hname, ?_, hσ, explicitTemplateArgs_inv hts,
            (Except.ok.inj h).symm, fun f hf => ?_⟩
          · simp [hrole]
          · rwa [hf] at hnone
      · exact Except.noConfusion rfl rfl (heq_of_eq h)
  · exact Except.noConfusion rfl rfl (heq_of_eq h)

/-- What completes an explicit specialization has no parameters and keeps its name, and it names a
pattern that may be specialized explicitly. -/
theorem completeExplicit_inv {templateArgs : List Term}
    (h : d.completeExplicit p' of templateArgs = .ok p) :
    p.parameters = [] ∧ (∃ ts, p.role = .explicitOf of ts) ∧ p.name = p'.name ∧
      ∃ q, d.pattern? of = some q ∧ q.name = p.name ∧ (q.role = .primary ∨ q.role = .overload) := by
  obtain ⟨q, σ, ts, hq, hname, hbase, -, -, rfl, -⟩ := completeExplicit_cases h
  exact ⟨rfl, ⟨ts, rfl⟩, rfl, q, hq, hname, hbase⟩

/-- The checks that a pattern has passed, by its role. -/
inductive Passed (d : Declarations) (p : Pattern) : Prop
  | primary (hrole : p.role = .primary) (hparameters : p.checkParameters d.model = .ok ())
      (hprimary : d.checkPrimary p = .ok ())
  | overload (hrole : p.role = .overload) (hparameters : p.checkParameters d.model = .ok ())
      (hoverload : d.checkOverload p = .ok ())
  | partialOf (of : PatternId) (hrole : p.role = .partialOf of)
      (hparameters : p.checkParameters d.model = .ok ()) (hpartial : d.checkPartial p of = .ok ())
  | explicitOf (p' : Pattern) (of : PatternId) (templateArgs : List Term)
      (hcompleted : d.completeExplicit p' of templateArgs = .ok p)

/-- **What is recorded has passed the checks of its role.** -/
theorem accept_cases (h : d.accept p' = .ok p) : d.Passed p := by
  rw [accept] at h
  obtain ⟨⟨⟩, hparameters, h⟩ := except_bind_eq_ok.mp h
  cases hrole : p'.role with
  | primary =>
    rw [hrole] at h
    obtain ⟨⟨⟩, hprimary, h⟩ := except_bind_eq_ok.mp h
    obtain rfl := Except.ok.inj h
    exact .primary hrole hparameters hprimary
  | overload =>
    rw [hrole] at h
    obtain ⟨⟨⟩, hoverload, h⟩ := except_bind_eq_ok.mp h
    obtain rfl := Except.ok.inj h
    exact .overload hrole hparameters hoverload
  | partialOf of =>
    rw [hrole] at h
    obtain ⟨⟨⟩, hpartial, h⟩ := except_bind_eq_ok.mp h
    obtain rfl := Except.ok.inj h
    exact .partialOf of hrole hparameters hpartial
  | explicitOf of templateArgs =>
    rw [hrole] at h
    exact .explicitOf p' of templateArgs h

/-- Only an explicit specialization is changed on the way in, and it keeps its name and target. -/
theorem accept_inv (h : d.accept p' = .ok p) :
    p = p' ∨ p.name = p'.name ∧
      ∃ of ts ts', p'.role = .explicitOf of ts ∧ p.role = .explicitOf of ts' := by
  rw [accept] at h
  obtain ⟨⟨⟩, -, h⟩ := except_bind_eq_ok.mp h
  rcases hrole : p'.role with _ | _ | of | ⟨of, ts⟩ <;> rw [hrole] at h
  case primary | overload | partialOf =>
    obtain ⟨⟨⟩, -, h⟩ := except_bind_eq_ok.mp h
    exact .inl (Except.ok.inj h).symm
  case explicitOf =>
    obtain ⟨-, ⟨ts', hrole'⟩, hname, -⟩ := completeExplicit_inv h
    exact .inr ⟨hname, of, ts, ts', rfl, hrole'⟩

theorem Passed.overload_inv (h : d.Passed p) (hrole : p.role = .overload) :
    d.checkOverload p = .ok () := by
  cases h with
  | primary hprimary => simp [hrole] at hprimary
  | overload _ _ hoverload => exact hoverload
  | partialOf _ hpartial => simp [hrole] at hpartial
  | explicitOf p' of' templateArgs hcompleted =>
    obtain ⟨-, ⟨ts, hexplicit⟩, -⟩ := completeExplicit_inv hcompleted
    simp [hrole] at hexplicit

theorem Passed.partial_inv (h : d.Passed p) (hrole : p.role = .partialOf of) :
    p.checkParameters d.model = .ok () ∧ d.checkPartial p of = .ok () := by
  cases h with
  | primary hprimary => simp [hrole] at hprimary
  | overload hoverload => simp [hrole] at hoverload
  | partialOf of' hrole' hparameters hpartial =>
    obtain rfl := Role.partialOf.inj (hrole'.symm.trans hrole)
    exact ⟨hparameters, hpartial⟩
  | explicitOf p' of' templateArgs hcompleted =>
    obtain ⟨-, ⟨ts, hexplicit⟩, -⟩ := completeExplicit_inv hcompleted
    simp [hrole] at hexplicit

/-- The comparison with its primary favors a partial specialization. -/
theorem checkNarrower_inv (h : d.checkNarrower q p = .ok ()) :
    (((d.comparator .classLike).compare q p).run {}).1.specificity = .bMoreSpecific := by
  rw [checkNarrower] at h
  split at h
  · exact Except.noConfusion rfl rfl (heq_of_eq h)
  · split at h
    · assumption
    · exact Except.noConfusion rfl rfl (heq_of_eq h)

end Declarations

namespace Registry

/-- **What a reachable registry holds was accepted** by the registry that held all that came before
it. -/
theorem Reachable.registered {r : Registry} (h : r.Reachable) {id : PatternId} {p : Pattern}
    (hp : r.declarations.pattern? id = some p) :
    ∃ r' : Registry, r'.Reachable ∧ r'.declarations.model = r.declarations.model ∧
      r'.declarations.size = id ∧ r'.declarations.Passed p ∧
      ∀ i q, r'.declarations.pattern? i = some q → r.declarations.pattern? i = some q := by
  induction h with
  | empty model => exact absurd hp (Option.some_ne_none p).symm
  | freeze _ ih => exact ih hp
  | @register r r' p' id' h hr ih =>
    obtain ⟨accepted, -, haccept, -, rfl⟩ := register_inv hr
    have hkept : ∀ i q, r.declarations.pattern? i = some q →
        (r.declarations.record accepted).pattern? i = some q := by
      intro i q hq
      rw [Declarations.pattern?_record, if_neg]
      · exact hq
      · rintro rfl
        rw [Declarations.pattern?, Declarations.size, List.getElem?_eq_none (Nat.le_refl _)] at hq
        exact absurd hq (Option.some_ne_none q).symm
    rw [Declarations.pattern?_record] at hp
    split at hp
    · rename_i hid
      obtain rfl := Option.some.inj hp
      exact ⟨r, h, rfl, hid.symm, Declarations.accept_cases haccept, hkept⟩
    · obtain ⟨r', hr', hmodel, hsize, hpassed, hheld⟩ := ih hp
      exact ⟨r', hr', hmodel, hsize, hpassed, fun i q hq => hkept i q (hheld i q hq)⟩

/-- A pattern passed its checks when all that was there was still held. -/
theorem Reachable.accepted {r : Registry} (h : r.Reachable) {id : PatternId} {p : Pattern}
    (hp : r.declarations.pattern? id = some p) :
    ∃ d : Declarations, d.model = r.declarations.model ∧ d.Passed p ∧
      ∀ i q, d.pattern? i = some q → r.declarations.pattern? i = some q := by
  obtain ⟨r', -, hmodel, -, hpassed, hheld⟩ := h.registered hp
  exact ⟨r'.declarations, hmodel, hpassed, hheld⟩

/-- Registration has checked every pattern by itself, unless it was completed on the way in. -/
theorem Reachable.wellFormed {r : Registry} (h : r.Reachable) {id : PatternId} {p : Pattern}
    (hp : r.declarations.pattern? id = some p) (hrole : p.role.isExplicit = false) :
    p.WellFormed r.declarations.model := by
  obtain ⟨d, hmodel, hpassed, -⟩ := h.accepted hp
  rw [← hmodel]
  cases hpassed with
  | primary _ hparameters hprimary =>
    exact ⟨hparameters, (Declarations.checkPrimary_inv hprimary).1⟩
  | overload _ hparameters hoverload =>
    exact ⟨hparameters, (Declarations.checkOverload_inv hoverload).1⟩
  | partialOf _ _ hparameters hpartial =>
    obtain ⟨-, -, -, -, -, harguments, -⟩ := Declarations.checkPartial_inv hpartial
    exact ⟨hparameters, harguments⟩
  | explicitOf _ _ _ hcompleted =>
    obtain ⟨-, ⟨ts, hts⟩, -⟩ := Declarations.completeExplicit_inv hcompleted
    rw [hts] at hrole
    exact Bool.noConfusion hrole

/-- What is known of a partial specialization that a reachable registry holds. -/
theorem Reachable.partial_inv {r : Registry} (h : r.Reachable) {id of : PatternId} {p : Pattern}
    (hp : r.declarations.pattern? id = some p) (hrole : p.role = .partialOf of) :
    p.checkParameters r.declarations.model = .ok () ∧
      (∀ slot ∈ p.slots, slot.default = none) ∧
      ∃ q, r.declarations.pattern? of = some q ∧ q.role = .primary ∧
        (((r.declarations.comparator .classLike).compare q p).run {}).1.specificity =
          .bMoreSpecific := by
  obtain ⟨d, hmodel, hpassed, hheld⟩ := h.accepted hp
  obtain ⟨hparameters, hpartial⟩ := hpassed.partial_inv hrole
  obtain ⟨q, hq, -, hprimary, hdefaults, -, -, hnarrower, -⟩ :=
    Declarations.checkPartial_inv hpartial
  have hfavors := Declarations.checkNarrower_inv hnarrower
  have hcomparator : d.comparator .classLike = r.declarations.comparator .classLike := by
    rw [Declarations.comparator, Declarations.comparator, hmodel]
  rw [hcomparator] at hfavors
  rw [hmodel] at hparameters
  exact ⟨hparameters, hdefaults, q, hheld of q hq, hprimary, hfavors⟩

end Registry

end TemplateResolution
