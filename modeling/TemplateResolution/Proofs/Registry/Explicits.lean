import TemplateResolution.Proofs.Pattern.TemplateArguments
import TemplateResolution.Proofs.Registry.Coherence

/-!
# Explicit specializations

An explicit specialization may be declared by template arguments or by an argument list.  It
is recorded with both: with all template arguments, those from defaults included, and with
the argument list of its target under them (`Reachable.explicit_inv`).  For a class-like
primary the two are the same list (`IsInstance.args_eq`).

Of two explicit specializations of one pattern, the later one was compared with the earlier
one when it was registered, by their template arguments.  So there is at most one for given
template arguments (`Reachable.explicit_unique`), and the search through the family finds
that one (`Reachable.explicitAt?_eq_some`).
-/

namespace TemplateResolution

namespace Pattern

/-- `p` is the instance of `t` at the template arguments `ts`: some arguments of the right kinds are
completed to `ts`, and the argument list is written out under them. -/
def IsInstance (model : TypeModel) (t p : Pattern) (ts : List Term) : Prop :=
  ∃ σ : Substitution, σ.RespectsKinds model t.parameters ∧
    (t.complete model σ).flatten t.parameters.length = some ts ∧
    p.slots = t.instantiate (t.complete model σ)

variable {model : TypeModel} {t p : Pattern} {ts : List Term}

/-- **Template arguments and argument list of an explicit specialization are the same,** if its
target is a primary. -/
theorem IsInstance.args_eq (h : IsInstance model t p ts) (hlists : t.ListsParameters model) :
    p.args = ts := by
  obtain ⟨σ, hσ, hts, hslots⟩ := h
  rw [args, hslots, map_term_instantiate]
  exact hlists.substList_args (complete_respectsForms hσ.forms) hts

end Pattern

namespace Declarations

variable {d : Declarations} {p q : Pattern} {of id : PatternId}

/-- The explicit specialization `id` of `of` is one at the template arguments `D`. -/
def SpecializesAt (d : Declarations) (of : PatternId) (D : List Term) (id : PatternId) : Prop :=
  ∃ p ts, d.pattern? id = some p ∧ p.role = .explicitOf of ts ∧ d.model.sameTerms ts D = true

/-! ### What was recorded -/

/-- The substitution is found from arguments of the right kinds, and completed. -/
theorem explicitSubstitution_inv {templateArgs : List Term} {σ : Substitution}
    (h : d.explicitSubstitution p q templateArgs = .ok σ) :
    ∃ τ : Substitution, τ.RespectsKinds d.model q.parameters ∧ σ = q.complete d.model τ := by
  rw [explicitSubstitution] at h
  split at h
  · split at h
    · rename_i τ hτ
      exact ⟨τ, Pattern.respectsKinds_of_match? .empty hτ, (Except.ok.inj h).symm⟩
    · exact Except.noConfusion rfl rfl (heq_of_eq h)
  · split at h
    · rename_i τ hτ
      refine ⟨τ, ?_, (Except.ok.inj h).symm⟩
      exact Pattern.respectsKinds_seedFrom q.parameters 0 templateArgs .empty τ rfl .empty hτ
    · exact Except.noConfusion rfl rfl (heq_of_eq h)

theorem Passed.explicit_cases (h : d.Passed p) {ts : List Term}
    (hrole : p.role = .explicitOf of ts) :
    ∃ t, d.pattern? of = some t ∧ t.IsInstance d.model p ts ∧
      ∀ f, d.family? p.name = some f → d.explicitAt? f of ts = none := by
  cases h with
  | primary h => simp [hrole] at h
  | overload h => simp [hrole] at h
  | partialOf _ h => simp [hrole] at h
  | explicitOf p' of' templateArgs hcompleted =>
    obtain ⟨t, σ, ts', ht, -, -, hσ, hts, rfl, hnone⟩ := completeExplicit_cases hcompleted
    obtain ⟨rfl, rfl⟩ := Role.explicitOf.inj hrole
    obtain ⟨τ, hτ, rfl⟩ := explicitSubstitution_inv hσ
    exact ⟨t, ht, ⟨τ, hτ, hts, rfl⟩, hnone⟩

/-! ### The search for an explicit specialization -/

theorem any_isExplicitAt_iff {D : List Term} :
    (d.pattern? id).any (isExplicitAt d.model of D) = true ↔ d.SpecializesAt of D id := by
  rw [Option.any_eq_true]
  constructor
  · rintro ⟨p, hp, hat⟩
    rw [isExplicitAt] at hat
    split at hat
    · rename_i target ts hrole
      obtain ⟨htarget, hsame⟩ := (Bool.and_eq_true _ _).mp hat
      exact ⟨p, ts, hp, of_decide_eq_true htarget ▸ hrole, hsame⟩
    · exact Bool.noConfusion hat
  · rintro ⟨p, ts, hp, hrole, hsame⟩
    exact ⟨p, hp, by simp [isExplicitAt, hrole, hsame]⟩

/-- What specializes a pattern explicitly is in the family of that pattern. -/
theorem Linked.mem_explicits (h : d.Linked) {t : Pattern} (ht : d.pattern? of = some t) {f : Family}
    (hf : d.family? t.name = some f) {D : List Term} (hid : d.SpecializesAt of D id) :
    id ∈ f.explicits := by
  obtain ⟨p, ts, hp, hrole, -⟩ := hid
  obtain ⟨-, -, t', ht', hname, -⟩ := h.explicits id of ts p hp hrole
  obtain rfl := Option.some.inj (ht.symm.trans ht')
  rw [(h.filed.files hf).explicits, mem_idsWhere]
  exact ⟨p, hp, by simp [hname, hrole, Role.isExplicit]⟩

theorem specializesAt_of_explicitAt? {f : Family} {D : List Term}
    (h : d.explicitAt? f of D = some id) : d.SpecializesAt of D id := by
  have hany := List.find?_some h
  exact any_isExplicitAt_iff.mp hany

theorem Linked.explicitAt?_eq_none (h : d.Linked) {t : Pattern} (ht : d.pattern? of = some t)
    {f : Family} (hf : d.family? t.name = some f) {D : List Term} :
    d.explicitAt? f of D = none ↔ ∀ id, ¬ d.SpecializesAt of D id := by
  rw [explicitAt?, List.find?_eq_none]
  constructor
  · intro hnone id hid
    exact hnone id (h.mem_explicits ht hf hid) (any_isExplicitAt_iff.mpr hid)
  · intro hnone id _ hany
    exact hnone id (any_isExplicitAt_iff.mp hany)

end Declarations

namespace Registry.Reachable

variable {r : Registry} (h : r.Reachable)
include h

/-- **An explicit specialization is the instance of its target at its template arguments.** -/
theorem explicit_inv {id of : PatternId} {p : Pattern} {ts : List Term}
    (hp : r.declarations.pattern? id = some p) (hrole : p.role = .explicitOf of ts) :
    ∃ t, r.declarations.pattern? of = some t ∧ t.name = p.name ∧
      (t.role = .primary ∨ t.role = .overload) ∧ t.IsInstance r.declarations.model p ts := by
  obtain ⟨-, -, t, ht, hname, hbase⟩ := h.linked.explicits id of ts p hp hrole
  obtain ⟨d, hmodel, hpassed, hheld⟩ := h.accepted hp
  obtain ⟨t', ht', hinstance, -⟩ := hpassed.explicit_cases hrole
  obtain rfl := Option.some.inj (ht.symm.trans (hheld of t' ht'))
  exact ⟨t, ht, hname, hbase, hmodel ▸ hinstance⟩

/-- Template arguments that were there already are refused. -/
theorem not_sameTerms_of_lt {i j of : PatternId} (hlt : i < j) {p q : Pattern} {ts us : List Term}
    (hp : r.declarations.pattern? i = some p) (hprole : p.role = .explicitOf of ts)
    (hq : r.declarations.pattern? j = some q) (hqrole : q.role = .explicitOf of us) :
    r.declarations.model.sameTerms ts us = false := by
  obtain ⟨r', hr', hmodel, hsize, hpassed, hheld⟩ := h.registered hq
  obtain ⟨p', hp'⟩ := Declarations.exists_pattern? (hsize ▸ hlt : i < r'.declarations.size)
  obtain rfl := Option.some.inj (hp.symm.trans (hheld i p' hp'))
  obtain ⟨-, -, t, ht, hname, -⟩ := hr'.linked.explicits i of ts p hp' hprole
  obtain ⟨-, t', ht', htname, -⟩ := hpassed.explicit_inv hqrole
  obtain rfl := Option.some.inj (ht.symm.trans ht')
  obtain ⟨f, hf⟩ := hr'.linked.exists_family? ht
  obtain ⟨-, -, -, hnone⟩ := hpassed.explicit_cases hqrole
  have hno := (hr'.linked.explicitAt?_eq_none ht hf).mp (hnone f (htname ▸ hf)) i
  rw [← hmodel, Bool.eq_false_iff]
  exact fun hsame => hno ⟨p, ts, hp', hprole, hsame⟩

variable (hrefl : ∀ n, r.declarations.model.sameLeaf n n = true)
  (hsymm : ∀ k l, r.declarations.model.sameLeaf k l = true →
    r.declarations.model.sameLeaf l k = true)
  (htrans : ∀ k l n, r.declarations.model.sameLeaf k l = true →
    r.declarations.model.sameLeaf l n = true → r.declarations.model.sameLeaf k n = true)
include hrefl hsymm htrans

/-- **A pattern has at most one explicit specialization for given template arguments.** -/
theorem explicit_unique {i j of : PatternId} {D : List Term}
    (hi : r.declarations.SpecializesAt of D i) (hj : r.declarations.SpecializesAt of D j) :
    i = j := by
  obtain ⟨p, ts, hp, hprole, hts⟩ := hi
  obtain ⟨q, us, hq, hqrole, hus⟩ := hj
  have hback : ∀ {as : List Term}, r.declarations.model.sameTerms as D = true →
      r.declarations.model.sameTerms D as = true :=
    fun hsame => Term.sameList_symm hrefl hsymm htrans hsame
  have hsame : r.declarations.model.sameTerms ts us = true :=
    Term.sameList_trans htrans ts D us hts (hback hus)
  have hsame' : r.declarations.model.sameTerms us ts = true :=
    Term.sameList_trans htrans us D ts hus (hback hts)
  rcases Nat.lt_trichotomy i j with hlt | heq | hgt
  · rw [h.not_sameTerms_of_lt hlt hp hprole hq hqrole] at hsame
    exact Bool.noConfusion hsame
  · exact heq
  · rw [h.not_sameTerms_of_lt hgt hq hqrole hp hprole] at hsame'
    exact Bool.noConfusion hsame'

/-- The search finds the only explicit specialization for the template arguments. -/
theorem explicitAt?_eq_some {of id : PatternId} {t : Pattern}
    (ht : r.declarations.pattern? of = some t) {f : Family}
    (hf : r.declarations.family? t.name = some f) {D : List Term} :
    r.declarations.explicitAt? f of D = some id ↔ r.declarations.SpecializesAt of D id := by
  constructor
  · exact Declarations.specializesAt_of_explicitAt?
  · intro hid
    cases hfound : r.declarations.explicitAt? f of D with
    | none => exact absurd hid ((h.linked.explicitAt?_eq_none ht hf).mp hfound id)
    | some i =>
      have hi := Declarations.specializesAt_of_explicitAt? hfound
      rw [h.explicit_unique hrefl hsymm htrans hi hid]

end Registry.Reachable

end TemplateResolution
