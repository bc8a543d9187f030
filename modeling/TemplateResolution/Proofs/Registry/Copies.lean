import TemplateResolution.Proofs.Registry.Coherence
import TemplateResolution.Proofs.Specificity.Copies
import Mathlib.Logic.Equiv.Basic

/-!
# No pattern is declared twice

Registration refuses a copy of a pattern that is there already, if the pattern takes
itself.  The search for a duplicate comes last, and a copy comes that far: it is well
formed if the original is (`Copies.checkArguments`), it determines its parameters
(`Copies.checkDeducible`), and it narrows the primary (`checkNarrower_copy`).  Then the
search finds the original, or something else that declares the same.

So no reachable registry holds such a pattern and a copy of it, since of the two the
later one would have been refused (`Reachable.no_copies`).
-/

namespace TemplateResolution

namespace Pattern

variable {model : TypeModel} {ρ : Equiv.Perm ParamId} {p q : Pattern}

/-! ### Well-formed copies -/

theorem hasInnerExpansion_relabelList (ts : List Term) :
    hasInnerExpansion (Term.relabelList ρ ts) = hasInnerExpansion ts := by
  rw [hasInnerExpansion, hasInnerExpansion, Term.relabelList_eq_map, ← List.map_dropLast,
    List.any_map]
  exact congrArg (List.any _) (funext fun t => t.isExpansion_relabel)

mutual

theorem misplacesExpansion_relabel : ∀ t : Term,
    misplacesExpansion (t.relabel ρ) = misplacesExpansion t
  | .apply head args => by
    rw [Term.relabel, misplacesExpansion, misplacesExpansion, misplacesExpansion_relabel head,
      misplacesExpansionList_relabel args, hasInnerExpansion_relabelList]
  | .pointer t | .expansion t | .qualified _ t | .reference _ t | .offset t _ =>
    misplacesExpansion_relabel t
  | .param _ | .placeholder _ | .type _ | .value _ _ | .template _ => rfl

theorem misplacesExpansionList_relabel : ∀ ts : List Term,
    misplacesExpansionList (Term.relabelList ρ ts) = misplacesExpansionList ts
  | [] => rfl
  | t :: ts => by
    rw [Term.relabelList, misplacesExpansionList, misplacesExpansionList,
      misplacesExpansion_relabel t, misplacesExpansionList_relabel ts]

end

theorem Copies.args (h : p.Copies model ρ q) : q.args = Term.relabelList ρ p.args :=
  Side.Copies.args h

theorem Copies.isPack (h : p.Copies model ρ q) (id : ParamId) :
    q.isPack model (ρ id) = p.isPack model id :=
  any_of_traits (fun _ _ htraits => congrArg Prod.fst htraits) (h.traits id)

mutual

/-- A copy uses its packs as the original does. -/
theorem Copies.checkUsage (h : p.Copies model ρ q) : ∀ (t : Term) (expanded : Bool),
    p.checkUsage model t expanded = .ok () → q.checkUsage model (t.relabel ρ) expanded = .ok ()
  | .param id, expanded, husage => by
    have hpack := h.isPack id
    rw [Pattern.checkUsage] at husage
    rw [Term.relabel, Pattern.checkUsage]
    cases hq : q.parameter? (ρ id) with
    | none => rfl
    | some b =>
      cases hp : p.parameter? id with
      | none =>
        have htraits := h.traits id
        change (q.parameter? (ρ id)).map _ = (p.parameter? id).map _ at htraits
        rw [hp, hq] at htraits
        exact absurd htraits (Option.some_ne_none _)
      | some a =>
        rw [Pattern.isPack, Pattern.isPack, hp, hq, Option.any_some, Option.any_some] at hpack
        rw [hp] at husage
        dsimp only at husage ⊢
        rw [hpack]
        split at husage
        · exact Except.noConfusion rfl rfl (heq_of_eq husage)
        · rename_i hnot
          rw [if_neg hnot]
  | .expansion inner, expanded, husage => by
    have hpacks : q.isPack model ∘ ρ = p.isPack model := funext h.isPack
    rw [Pattern.checkUsage] at husage
    rw [Term.relabel, Pattern.checkUsage, Term.occurrences_relabel, List.any_map, hpacks]
    split at husage
    · rename_i hany
      rw [if_pos hany]
      exact h.checkUsage inner true husage
    · exact Except.noConfusion rfl rfl (heq_of_eq husage)
  | .apply head args, expanded, husage => by
    rw [Pattern.checkUsage] at husage
    obtain ⟨⟨⟩, hhead, hargs⟩ := except_bind_eq_ok.mp husage
    rw [Term.relabel, Pattern.checkUsage]
    exact except_bind_eq_ok.mpr
      ⟨(), h.checkUsage head expanded hhead, h.checkUsageList args expanded hargs⟩
  | .pointer t, expanded, husage | .qualified _ t, expanded, husage
  | .reference _ t, expanded, husage | .offset t _, expanded, husage =>
    h.checkUsage t expanded husage
  | .placeholder _, _, _ | .type _, _, _ | .value _ _, _, _ | .template _, _, _ => rfl

theorem Copies.checkUsageList (h : p.Copies model ρ q) : ∀ (ts : List Term) (expanded : Bool),
    p.checkUsageList model ts expanded = .ok () →
      q.checkUsageList model (Term.relabelList ρ ts) expanded = .ok ()
  | [], _, _ => rfl
  | t :: ts, expanded, husage => by
    rw [Pattern.checkUsageList] at husage
    obtain ⟨⟨⟩, hterm, hrest⟩ := except_bind_eq_ok.mp husage
    rw [Term.relabelList, Pattern.checkUsageList]
    exact except_bind_eq_ok.mpr
      ⟨(), h.checkUsage t expanded hterm, h.checkUsageList ts expanded hrest⟩

end

theorem Copies.checkArguments (h : p.Copies model ρ q) (hp : p.checkArguments model = .ok ()) :
    q.checkArguments model = .ok () := by
  have husage := h.checkUsageList p.args false (checkArguments_inv hp).2
  rw [Pattern.checkArguments] at hp ⊢
  rw [h.args, hasInnerExpansion_relabelList, misplacesExpansionList_relabel]
  split at hp
  · exact Except.noConfusion rfl rfl (heq_of_eq hp)
  · rename_i hinner
    obtain ⟨⟨⟩, -, hmisplaced⟩ := except_bind_eq_ok.mp hp
    split at hmisplaced
    · exact Except.noConfusion rfl rfl (heq_of_eq hmisplaced)
    · rename_i hinner'
      rw [if_neg hinner, if_neg hinner']
      exact except_bind_eq_ok.mpr ⟨(), husage, rfl⟩

/-! ### Deducible parameters -/

theorem mem_deducible {id : ParamId} :
    id ∈ p.deducibleParameters ↔ id ∈ Term.deducibleOccurrencesList p.args := by
  rw [deducibleParameters, List.mem_eraseDups, List.mem_flatMap, Term.mem_deducibleOccurrencesList]

theorem checkDeducible_eq_ok :
    Declarations.checkDeducible p = .ok () ↔
      ∀ id q, p.parameters[id]? = some q → id ∈ p.deducibleParameters := by
  rw [Declarations.checkDeducible]
  constructor
  · intro h id q hq
    split at h
    · exact Except.noConfusion rfl rfl (heq_of_eq h)
    · rename_i hnone
      have hmem : (q, id) ∈ p.parameters.zipIdx := List.mk_mem_zipIdx_iff_getElem?.mpr hq
      simpa using List.find?_eq_none.mp hnone (q, id) hmem
  · intro h
    rw [List.find?_eq_none.mpr fun x hx => ?_]
    have hid := h x.2 x.1 (List.mk_mem_zipIdx_iff_getElem?.mp hx)
    simpa using hid

theorem Copies.checkDeducible (h : p.Copies model ρ q)
    (hp : Declarations.checkDeducible p = .ok ()) : Declarations.checkDeducible q = .ok () := by
  rw [checkDeducible_eq_ok] at hp ⊢
  intro id b hb
  have htraits := h.traits (ρ.symm id)
  rw [Equiv.apply_symm_apply] at htraits
  change (q.parameters[id]?).map _ = (p.parameters[ρ.symm id]?).map _ at htraits
  rw [hb] at htraits
  obtain ⟨a, ha, -⟩ := Option.map_eq_some_iff.mp htraits.symm
  have hmem := mem_deducible.mp (hp (ρ.symm id) a ha)
  rw [mem_deducible, h.args, Term.deducibleOccurrencesList_relabel]
  exact List.mem_map.mpr ⟨ρ.symm id, hmem, ρ.apply_symm_apply id⟩

end Pattern

theorem Role.isExplicit_eq_of_rank {r s : Role} (h : r.rank = s.rank) :
    r.isExplicit = s.isExplicit := by
  cases r <;> cases s <;> first | rfl | exact Rank.noConfusion h

namespace Declarations

variable {d : Declarations} {ρ : Equiv.Perm ParamId} {p q t : Pattern}

theorem checkNarrower_copy (ht : t.Grounded) (htwf : t.WellFormed d.model) (hp : p.Grounded)
    (hwf : p.WellFormed d.model) (h : p.Copies d.model ρ q)
    (hdefaults : ∀ slot ∈ p.slots, slot.default = none)
    (hdefaults' : ∀ slot ∈ q.slots, slot.default = none) (hok : d.checkNarrower t p = .ok ()) :
    d.checkNarrower t q = .ok () := by
  have hcompare : (((d.comparator .classLike).compare t q).run {}).1 =
      (((d.comparator .classLike).compare t p).run {}).1 :=
    Comparator.compare_copy ht htwf hp hwf h hdefaults hdefaults' {}
  rw [checkNarrower] at hok ⊢
  rw [hcompare]
  split at hok
  · exact Except.noConfusion rfl rfl (heq_of_eq hok)
  · rename_i hboth
    split at hok
    · rename_i hnarrower
      rw [if_neg hboth, if_pos hnarrower]
    · exact Except.noConfusion rfl rfl (heq_of_eq hok)

/-! ### The search for a duplicate -/

/-- The search stops at a pattern that declares the same, if not before. -/
theorem isSome_equivalentAmong (c : Comparator) {id : PatternId} (hp : p.PlaceholderFree)
    (hq : q.PlaceholderFree) (h : c.coincides p q = true) {entries : List (PatternId × Pattern)}
    (hmem : (id, p) ∈ entries) (supply : PlaceholderSupply) :
    ((equivalentAmong c q entries).run supply).1.isSome = true := by
  induction entries generalizing supply with
  | nil => exact absurd hmem List.not_mem_nil
  | cons e entries ih =>
    obtain ⟨i, s⟩ := e
    obtain ⟨found, supply', hfound⟩ :
        ∃ found supply', (c.equivalent s q).run supply = (found, supply') := ⟨_, _, rfl⟩
    rw [equivalentAmong, StateT.run_bind, hfound]
    cases found with
    | true => rfl
    | false =>
      rcases List.mem_cons.mp hmem with heq | hmem
      · obtain ⟨rfl, rfl⟩ := Prod.mk.inj heq
        obtain ⟨supply'', hrun⟩ := c.equivalent_run hp hq supply
        rw [h, hfound] at hrun
        exact Bool.noConfusion (Prod.mk.inj hrun).1
      · exact ih hmem supply'

theorem checkNew_eq_error {flavor : Flavor} {siblings : List PatternId} {id : PatternId}
    (hp : p.PlaceholderFree) (hq : q.PlaceholderFree)
    (h : (d.comparator flavor).coincides p q = true) (hid : id ∈ siblings)
    (hget : d.pattern? id = some p) :
    ∃ k, d.checkNew flavor siblings q = .error (.duplicatePattern q.name q.signature k) := by
  obtain ⟨k, hk⟩ := Option.isSome_iff_exists.mp
    (isSome_equivalentAmong (d.comparator flavor) hp hq h (mem_withIds.mpr ⟨hid, hget⟩) {})
  refine ⟨k, ?_⟩
  rw [checkNew, hk]

/-- A pattern is in the list of its family that its role says. -/
theorem Linked.exists_ranked (hd : d.Linked) {id : PatternId} (hget : d.pattern? id = some p) :
    ∃ f, d.family? p.name = some f ∧ id ∈ f.ranked p.role.rank := by
  obtain ⟨f, hf⟩ := hd.exists_family? hget
  exact ⟨f, hf, (hd.filed.files hf).mem_ranked.mpr ⟨p, hget, rfl, rfl⟩⟩

/-- Of two patterns in one list of a family, both are overloads or both are partial specializations,
unless they are explicit. -/
theorem Passed.roles (hd : d.Linked) (h : d.Passed q) {id : PatternId}
    (hget : d.pattern? id = some p) (hname : q.name = p.name) (hrank : q.role.rank = p.role.rank)
    (hexplicit : p.role.isExplicit = false) :
    (q.role = .overload ∧ p.role = .overload) ∨
      ∃ of of', q.role = .partialOf of ∧ p.role = .partialOf of' := by
  have hbases : q.role.isBase = true → p.role.isBase = true →
      q.role = .overload ∧ p.role = .overload :=
    fun hqbase hpbase => hd.overload_of_base h hqbase hget hname.symm hpbase
  rcases hprole : p.role with _ | _ | of' | _ <;> rcases hqrole : q.role with _ | _ | of | _ <;>
    simp [hprole, hqrole, Role.rank, Role.isBase, Role.isExplicit] at hrank hexplicit hbases ⊢

/-- Of two overloads or of two partial specializations, the later one declares something else. -/
theorem Passed.coincides_eq_false (hd : d.Linked) (h : d.Passed q) {id : PatternId}
    (hget : d.pattern? id = some p) (hname : q.name = p.name) (hrank : q.role.rank = p.role.rank)
    (hexplicit : p.role.isExplicit = false) (hp : p.PlaceholderFree) (hq : q.PlaceholderFree) :
    q.role.flavor = p.role.flavor ∧ (d.comparator q.role.flavor).coincides p q = false := by
  obtain ⟨f, hf, hmem⟩ := hd.exists_ranked hget
  rw [← hname] at hf
  rcases h.roles hd hget hname hrank hexplicit with ⟨hqrole, hprole⟩ | ⟨of, of', hqrole, hprole⟩
  · rw [hprole] at hmem
    rw [hqrole, hprole]
    refine ⟨rfl, Bool.eq_false_iff.mpr fun hcoincides => ?_⟩
    obtain ⟨k, hk⟩ := checkNew_eq_error hp hq hcoincides hmem hget
    obtain ⟨-, hnew⟩ := (checkOverload_inv (h.overload_inv hqrole)).2 f hf
    exact Except.noConfusion rfl rfl (heq_of_eq (hk.symm.trans hnew))
  · rw [hprole] at hmem
    rw [hqrole, hprole]
    refine ⟨rfl, Bool.eq_false_iff.mpr fun hcoincides => ?_⟩
    obtain ⟨k, hk⟩ := checkNew_eq_error hp hq hcoincides hmem hget
    obtain ⟨-, hpartial⟩ := h.partial_inv hqrole
    obtain ⟨-, -, -, -, -, -, -, -, hnew⟩ := checkPartial_inv hpartial
    rw [hf] at hnew
    exact Except.noConfusion rfl rfl (heq_of_eq (hk.symm.trans hnew))

/-! ### The refusal of a copy -/

section Refusal

variable (hd : d.Linked) {id : PatternId} (hget : d.pattern? id = some p) (hname : q.name = p.name)
  (hp : p.PlaceholderFree) (hq : q.PlaceholderFree)
  (hcoincides : (d.comparator p.role.flavor).coincides p q = true)
  (harguments : q.checkArguments d.model = .ok ())

include hd hget hname hp hq hcoincides harguments

theorem checkOverload_eq_error (hrole : p.role = .overload) :
    ∃ k, d.checkOverload q = .error (.duplicatePattern q.name q.signature k) := by
  obtain ⟨f, hf, hmem⟩ := hd.exists_ranked hget
  have hflavor := hd.flavors f id p hf hget (by rw [hrole]; rfl)
  rw [hrole] at hflavor hmem hcoincides
  rw [← hname] at hf
  obtain ⟨k, hk⟩ := checkNew_eq_error hp hq hcoincides hmem hget
  refine ⟨k, ?_⟩
  rw [checkOverload, harguments, hf]
  dsimp only [bind, Except.bind]
  rw [← hflavor]
  exact hk

theorem checkPartial_eq_error {of : PatternId} (hrole : p.role = .partialOf of) {t : Pattern}
    (ht : d.pattern? of = some t) (htname : t.name = q.name) (htrole : t.role = .primary)
    (hdefaults : ∀ slot ∈ q.slots, slot.default = none) (hdeducible : checkDeducible q = .ok ())
    (hnarrower : d.checkNarrower t q = .ok ()) :
    ∃ k, d.checkPartial q of = .error (.duplicatePattern q.name q.signature k) := by
  obtain ⟨f, hf, hmem⟩ := hd.exists_ranked hget
  rw [hrole] at hmem hcoincides
  rw [← hname] at hf
  obtain ⟨k, hk⟩ := checkNew_eq_error hp hq hcoincides hmem hget
  refine ⟨k, ?_⟩
  have htarget : d.target q of = .ok t := by rw [target, ht]; exact if_pos htname
  have hnone : (q.slots.findIdx? fun slot => slot.default.isSome) = none := by
    refine List.findIdx?_eq_none_iff.mpr fun slot hslot => ?_
    rw [hdefaults slot hslot]
    rfl
  rw [checkPartial, htarget]
  dsimp only [bind, Except.bind]
  rw [htrole, hnone]
  dsimp only
  rw [harguments, hdeducible, hnarrower, hf]
  exact hk

end Refusal

end Declarations

namespace Registry

variable {r : Registry} {p q : Pattern}

theorem register_eq_error (hfrozen : r.frozen = false)
    (hparameters : q.checkParameters r.declarations.model = .ok ()) {e : RegistrationError}
    (hcheck : (q.role = .overload ∧ r.declarations.checkOverload q = .error e) ∨
      ∃ of, q.role = .partialOf of ∧ r.declarations.checkPartial q of = .error e) :
    r.register q = .error e := by
  have haccept : r.declarations.accept q = .error e := by
    rw [Declarations.accept, hparameters]
    rcases hcheck with ⟨hrole, h⟩ | ⟨of, hrole, h⟩ <;> rw [hrole] <;>
      dsimp only [bind, Except.bind] <;> rw [h]
  rw [register, hfrozen, haccept]
  rfl

/-- What registration has checked of a partial specialization holds in the registry of today. -/
theorem Reachable.checkPartial_inv (h : r.Reachable) {id of : PatternId}
    (hget : r.declarations.pattern? id = some p) (hrole : p.role = .partialOf of) :
    (∀ slot ∈ p.slots, slot.default = none) ∧ Declarations.checkDeducible p = .ok () ∧
      ∃ t, r.declarations.pattern? of = some t ∧ t.name = p.name ∧ t.role = .primary ∧
        r.declarations.checkNarrower t p = .ok () := by
  obtain ⟨d, hmodel, hpassed, hheld⟩ := h.accepted hget
  obtain ⟨-, hpartial⟩ := hpassed.partial_inv hrole
  obtain ⟨t, ht, hname, hprimary, hdefaults, -, hdeducible, hnarrower, -⟩ :=
    Declarations.checkPartial_inv hpartial
  rw [Declarations.checkNarrower, Declarations.comparator, hmodel] at hnarrower
  exact ⟨hdefaults, hdeducible, t, hheld of t ht, hname, hprimary, hnarrower⟩

/-- A pattern declares something else than the overloads, or the partial specializations, that were
registered before it. -/
theorem Reachable.coincides_eq_false (h : r.Reachable) {i j : PatternId} (hlt : i < j)
    (hgetp : r.declarations.pattern? i = some p) (hgetq : r.declarations.pattern? j = some q)
    (hname : q.name = p.name) (hrank : q.role.rank = p.role.rank)
    (hexplicit : p.role.isExplicit = false) (hp : p.PlaceholderFree) (hq : q.PlaceholderFree) :
    q.role.flavor = p.role.flavor ∧
      (r.declarations.comparator q.role.flavor).coincides p q = false := by
  obtain ⟨r', hr', hmodel, hsize, hpassed, hheld⟩ := h.registered hgetq
  obtain ⟨p', hp'⟩ := Declarations.exists_pattern? (hsize ▸ hlt : i < r'.declarations.size)
  obtain rfl := Option.some.inj (hgetp.symm.trans (hheld i p' hp'))
  have hno := hpassed.coincides_eq_false hr'.linked hp' hname hrank hexplicit hp hq
  rwa [Declarations.comparator, hmodel] at hno

/-- **A family has no copies.**  A legible pattern takes itself; a copy of a pattern is recognized
exactly if the pattern takes itself; and then it is refused as a duplicate, so that no overload and
no partial specialization stands in a family together with a copy of it. -/
theorem Reachable.no_copies (h : r.Reachable)
    (hrefl : ∀ n, r.declarations.model.sameLeaf n n = true) {id : PatternId}
    (hget : r.declarations.pattern? id = some p)
    (hkind : p.role = .overload ∨ ∃ of, p.role = .partialOf of)
    (hgrounded : ∀ i t, r.declarations.pattern? i = some t → t.name = p.name →
      t.role.isExplicit = false → t.Grounded) :
    let model := r.declarations.model
    let c := r.declarations.comparator p.role.flavor
    (p.Legible model → c.takesItself p = true) ∧
    (∀ ρ q, p.Copies model ρ q → c.coincides p q = c.takesItself p) ∧
    (c.takesItself p = true → ∀ ρ q, p.Copies model ρ q → q.name = p.name →
      (∀ j, r.declarations.pattern? j = some q → q.role.rank = p.role.rank → j = id) ∧
      (r.frozen = false → q.role = p.role → q.checkParameters model = .ok () →
        (p.role = .overload ∨ ∀ slot ∈ q.slots, slot.default = none) →
        ∃ k, r.register q = .error (.duplicatePattern q.name q.signature k))) := by
  intro model c
  have hexplicit : p.role.isExplicit = false := by
    rcases hkind with hrole | ⟨of, hrole⟩ <;> rw [hrole] <;> rfl
  have hp : p.Grounded := hgrounded id p hget rfl hexplicit
  have hwf : p.WellFormed model := h.wellFormed hget hexplicit
  have hcoincides : ∀ ρ q, p.Copies model ρ q → c.coincides p q = c.takesItself p :=
    fun ρ q hcopy => Comparator.coincides_copy hp hwf hcopy
  refine ⟨fun hlegible => Comparator.takesItself_of_legible hrefl hp hwf hlegible, hcoincides, ?_⟩
  intro hitself ρ q hcopy hname
  have hqfree : q.PlaceholderFree := hcopy.placeholderFree hp.placeholderFree
  have hsame : c.coincides p q = true := (hcoincides ρ q hcopy).trans hitself
  constructor
  · -- of the two, the one that was declared later would have been refused
    intro j hgetq hrank
    rcases Nat.lt_trichotomy id j with hlt | heq | hgt
    · obtain ⟨hflavor, hno⟩ := h.coincides_eq_false hlt hget hgetq hname hrank hexplicit
        hp.placeholderFree hqfree
      rw [hflavor] at hno
      exact Bool.noConfusion (hsame.symm.trans hno)
    · exact heq.symm
    · have hqexplicit : q.role.isExplicit = false :=
        (Role.isExplicit_eq_of_rank hrank).trans hexplicit
      obtain ⟨-, hno⟩ := h.coincides_eq_false hgt hgetq hget hname.symm hrank.symm hqexplicit
        hqfree hp.placeholderFree
      rw [Comparator.coincides_comm] at hno
      exact Bool.noConfusion (hsame.symm.trans hno)
  · intro hfrozen hqrole hparameters hdefaults
    have harguments : q.checkArguments model = .ok () := hcopy.checkArguments hwf.arguments
    rcases hkind with hrole | ⟨of, hrole⟩
    · obtain ⟨k, hk⟩ := Declarations.checkOverload_eq_error h.linked hget hname hp.placeholderFree
        hqfree hsame harguments hrole
      exact ⟨k, register_eq_error hfrozen hparameters (.inl ⟨hqrole.trans hrole, hk⟩)⟩
    · obtain ⟨hpdefaults, hdeducible, t, ht, htname, htrole, hnarrower⟩ :=
        h.checkPartial_inv hget hrole
      have htexplicit : t.role.isExplicit = false := by rw [htrole]; rfl
      have htgrounded : t.Grounded := hgrounded of t ht htname htexplicit
      have htwf : t.WellFormed model := h.wellFormed ht htexplicit
      have hqdefaults : ∀ slot ∈ q.slots, slot.default = none := by
        refine hdefaults.resolve_left fun hoverload => ?_
        rw [hrole] at hoverload
        exact Role.noConfusion hoverload
      obtain ⟨k, hk⟩ := Declarations.checkPartial_eq_error h.linked hget hname hp.placeholderFree
        hqfree hsame harguments hrole ht (htname.trans hname.symm) htrole hqdefaults
        (hcopy.checkDeducible hdeducible)
        (Declarations.checkNarrower_copy htgrounded htwf hp hwf hcopy hpdefaults hqdefaults
          hnarrower)
      exact ⟨k, register_eq_error hfrozen hparameters (.inr ⟨of, hqrole.trans hrole, hk⟩)⟩

/-- `f(T, A<N, N+1>)` with its parameters the other way round. -/
theorem Reachable.no_copies_swapped :
    let model := AliasTable.empty.model
    let p := Pattern.overload "f"
      [{ name := "T", kind := .type }, { name := "N", kind := .value, valueType := some "int" }]
      [⟨.param 0, none⟩, ⟨.apply (.template "A") [.param 1, .offset (.param 1) 1], none⟩]
    let q := Pattern.overload "f"
      [{ name := "M", kind := .value, valueType := some "int" }, { name := "U", kind := .type }]
      [⟨.param 1, none⟩, ⟨.apply (.template "A") [.param 0, .offset (.param 0) 1], none⟩]
    let d := Registry.standard.declarations.record p
    let r : Registry := { declarations := d }
    r.Reachable ∧ (∀ n, model.sameLeaf n n = true) ∧ d.pattern? 0 = some p ∧
      (∀ i t, d.pattern? i = some t → t.name = p.name → t.role.isExplicit = false → t.Grounded) ∧
      p.Legible model ∧ p.Copies model (Equiv.swap 0 1) q ∧
      q.checkParameters model = .ok () ∧
      ∃ k, r.register q = .error (.duplicatePattern "f" q.signature k) := by
  intro model p q d r
  have haccepted : Registry.standard.registerAll [p] = .ok r := rfl
  have hr : r.Reachable := Registry.Reachable.registerAll (.empty model) haccepted
  have hrefl : ∀ n, model.sameLeaf n n = true := AliasTable.empty.sameLeaf_refl
  have hget : d.pattern? 0 = some p := rfl
  have hp : p.Grounded := ⟨by decide, by decide, rfl⟩
  have hgrounded : ∀ i t, d.pattern? i = some t → t.name = p.name → t.role.isExplicit = false →
      t.Grounded := by
    intro i t ht _ _
    obtain rfl := List.mem_singleton.mp (List.mem_of_getElem? ht)
    exact hp
  have hlegible : p.Legible model := ⟨by decide, rfl, by decide⟩
  have hcopy : p.Copies model (Equiv.swap 0 1) q := by
    refine Pattern.copies_of_table AliasTable.empty (fun id => ?_) (by decide)
    match id with
    | 0 => rfl
    | 1 => rfl
    | id + 2 => rw [Equiv.swap_apply_of_ne_of_ne (by simp) (by simp)]; rfl
  have hparameters : q.checkParameters model = .ok () := rfl
  obtain ⟨hitself, -, hrefused⟩ := hr.no_copies hrefl hget (.inl rfl) hgrounded
  obtain ⟨-, hregister⟩ := hrefused (hitself hlegible) _ q hcopy rfl
  exact ⟨hr, hrefl, hget, hgrounded, hlegible, hcopy, hparameters,
    hregister rfl rfl hparameters (.inl rfl)⟩

-- In `f(A<N+1>)` nothing says what `N` is, so a copy of it goes unnoticed.
example :
    let p := Pattern.overload "f" [{ name := "N", kind := .value }]
      [⟨.apply (.template "A") [.offset (.param 0) 1], none⟩]
    (Registry.standard.declarations.comparator .functionLike).takesItself p = false ∧
      Registry.standard.registerAll [p, p] =
        .ok { declarations := (Registry.standard.declarations.record p).record p } :=
  ⟨rfl, rfl⟩

end Registry

end TemplateResolution
