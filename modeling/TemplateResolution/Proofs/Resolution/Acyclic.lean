import TemplateResolution.Proofs.Registry.Coherence
import TemplateResolution.Proofs.Resolution.Dominance
import TemplateResolution.Proofs.Specificity.Order

/-!
# Class-like queries are never resolved in a circle

Overloads can beat each other in a circle.  In a class-like family whose members are
regular they cannot: whoever beats another comes before it in an order
(`precedes_of_transGen`).  So behind every candidate stands one that none beats, and if
there is only one of these, it comes before all others and a comparison says so directly
(`Reachable.classLike_ranking`).
-/

namespace TemplateResolution

open Relation

namespace Declarations

variable {d : Declarations} {rules : OrderingRules} {family : Family} {q : Query}
  {u v w : Candidate}

/-- What is reported as ambiguous are the candidates. -/
theorem ambiguity_of_resolve {a : Ambiguity} (h : d.resolve rules q = .ambiguous a) :
    ∃ family, d.family? q.name = some family ∧ a = (d.ranking rules family q).ambiguity := by
  rw [resolve] at h
  cases hfamily : d.family? q.name with
  | none => rw [hfamily] at h; exact Resolution.noConfusion h
  | some family =>
    refine ⟨family, rfl, ?_⟩
    rw [hfamily] at h
    have hamong : d.resolveAmong rules family q (d.siteArgs family q) = .ambiguous a := by
      rw [siteArgs]
      dsimp only at h
      cases hflavor : family.flavor with
      | functionLike => rw [hflavor] at h; exact h
      | classLike =>
        rw [hflavor] at h
        dsimp only at h
        split at h
        · exact Resolution.noConfusion h
        · exact h
    rcases hviable : d.viable family q with _ | ⟨x, _ | ⟨y, rest⟩⟩
    · rw [resolveAmong_nil hviable] at hamong
      exact Resolution.noConfusion hamong
    · rw [resolveAmong_singleton hviable] at hamong
      exact Resolution.noConfusion hamong
    · have hmany : 2 ≤ (d.viable family q).length := by simp [hviable]
      rw [resolveAmong_many hmany] at hamong
      split at hamong
      · exact Resolution.noConfusion hamong
      · exact (Resolution.ambiguous.inj hamong).symm

/-- Without a circle there is no cycle to report. -/
theorem cycle_eq_nil (hacyclic : ∀ u, ¬ TransGen (d.Beats rules family q) u u) :
    (d.ranking rules family q).ambiguity.cycle = [] := by
  have hnone : (d.ranking rules family q).edges.filter (d.ranking rules family q).onCycle = [] := by
    refine List.filter_eq_nil_iff.mpr fun e he hcycle => ?_
    obtain ⟨u, hu, v, hv, hmore, hless⟩ := exists_of_mem_edges he
    rw [SpecificityGraph.onCycle_iff ranking_closed he, hmore, hless, path_iff hv hu] at hcycle
    have hbeats : d.Beats rules family q u v := ⟨hu, hv, e, he, hmore, hless⟩
    exact hacyclic u ((TransGen.single hbeats).trans_left hcycle)
  rw [SpecificityGraph.ambiguity]
  dsimp only
  rw [hnone, ite_self]

/-! ### Class-like families -/

section ClassLike

variable (hrefl : ∀ n, d.model.sameLeaf n n = true)
  (hsymm : ∀ k l, d.model.sameLeaf k l = true → d.model.sameLeaf l k = true)
  (htrans : ∀ k l n, d.model.sameLeaf k l = true → d.model.sameLeaf l n = true →
    d.model.sameLeaf k n = true)
  (hflavor : family.flavor = .classLike)
  (hregular : ∀ c ∈ d.viable family q, c.pattern.Regular d.model)
  (hwf : ∀ c ∈ d.viable family q, c.pattern.WellFormed d.model)

include hrefl htrans hflavor hregular

/-- What beats another comes before it. -/
theorem precedes_of_beats (h : d.Beats rules family q u v) :
    u.pattern.Precedes d.model rules v.pattern := by
  obtain ⟨hu, hv, e, he, hmore, hless⟩ := h
  obtain ⟨x, hx, y, hy, supply, hedge⟩ := exists_comparison_of_mem_edges he
  rw [hflavor] at hedge
  rw [SpecificityGraph.edgeOf] at hedge
  split at hedge
  · rename_i hspecificity
    obtain rfl := Option.some.inj hedge
    rw [Pattern.aMoreSpecific_iff hrefl htrans (hregular x hx) (hregular y hy)] at hspecificity
    rwa [← eq_of_id_eq hx hu hmore, ← eq_of_id_eq hy hv hless]
  · rename_i hspecificity
    obtain rfl := Option.some.inj hedge
    rw [Pattern.bMoreSpecific_iff hrefl htrans (hregular x hx) (hregular y hy)] at hspecificity
    rwa [← eq_of_id_eq hy hu hmore, ← eq_of_id_eq hx hv hless]
  · exact absurd hedge (Option.some_ne_none e).symm

include hsymm hwf

/-- **Whoever stands above another along a chain comes before it.** -/
theorem precedes_of_transGen (h : TransGen (d.Beats rules family q) u v) :
    u.pattern.Precedes d.model rules v.pattern := by
  induction h with
  | single h => exact precedes_of_beats hrefl htrans hflavor hregular h
  | @tail v w hpath h ih =>
    obtain ⟨x, hux, -⟩ := TransGen.head'_iff.mp hpath
    have hu := hux.1
    have hv := h.1
    have hw := h.2.1
    exact ih.trans hrefl hsymm htrans (hregular u hu) (hwf u hu) (hregular v hv) (hwf v hv)
      (hregular w hw) (hwf w hw) (precedes_of_beats hrefl htrans hflavor hregular h)

theorem not_transGen_self (u : Candidate) : ¬ TransGen (d.Beats rules family q) u u := fun h =>
  (precedes_of_transGen hrefl hsymm htrans hflavor hregular hwf h).irrefl

/-- The only candidate that none beats comes before all others. -/
theorem precedes_of_best (hbest :
      ((d.viable family q).filter fun c => (d.ranking rules family q).isMaximal c.id) = [w])
    (hv : v ∈ d.viable family q) (hne : v ≠ w) : w.pattern.Precedes d.model rules v.pattern := by
  rcases beaten_by_best_or_cycle hbest hv hne with hpath | ⟨c, hcycle, -⟩
  · exact precedes_of_transGen hrefl hsymm htrans hflavor hregular hwf hpath
  · exact absurd hcycle (not_transGen_self hrefl hsymm htrans hflavor hregular hwf c)

end ClassLike

end Declarations

namespace Registry

/-- **Where the members of a class-like family are regular, no query finds its candidates in a
circle, and the one selected as the most specialized is ranked above each of the others.** -/
theorem Reachable.classLike_ranking {r : Registry} (hr : r.Reachable)
    (hrefl : ∀ n, r.declarations.model.sameLeaf n n = true)
    (hsymm : ∀ k l, r.declarations.model.sameLeaf k l = true →
      r.declarations.model.sameLeaf l k = true)
    (htrans : ∀ k l n, r.declarations.model.sameLeaf k l = true →
      r.declarations.model.sameLeaf l n = true → r.declarations.model.sameLeaf k n = true)
    {q : Query} {family : Family} (hfamily : r.declarations.family? q.name = some family)
    (hflavor : family.flavor = .classLike)
    (hregular : ∀ id ∈ family.members, ∀ p, r.declarations.pattern? id = some p →
      p.role.isExplicit = false → p.Regular r.declarations.model)
    (rules : OrderingRules) :
    (∀ a, r.declarations.resolve rules q = .ambiguous a → a.cycle = []) ∧
    ∀ s, r.declarations.resolve rules q = .resolved s → s.path = .mostSpecialized →
      ∀ v ∈ r.declarations.viable family q, v.id ≠ s.pattern →
        ∃ c, r.declarations.compare? rules s.pattern v.id = some c ∧
          c.specificity = .aMoreSpecific := by
  have hlinked := hr.linked
  have hmember : ∀ c ∈ r.declarations.viable family q,
      r.declarations.pattern? c.id = some c.pattern ∧ c.pattern.name = q.name ∧
        c.pattern.role.isExplicit = false := by
    intro c hc
    obtain ⟨hid, hcompetes, -⟩ := (Declarations.mem_viable hr.filed hfamily).mp hc
    rw [Pattern.competes, Bool.and_eq_true, decide_eq_true_iff] at hcompetes
    refine ⟨hid, hcompetes.1, ?_⟩
    cases hrole : c.pattern.role <;>
      simp [hrole, Role.isExplicit, Role.isBase, Role.isPartial] at hcompetes ⊢
  have hregular' : ∀ c ∈ r.declarations.viable family q,
      c.pattern.Regular r.declarations.model := by
    intro c hc
    obtain ⟨hid, hname, hrole⟩ := hmember c hc
    obtain ⟨hmem, hfname⟩ := hlinked.family?_eq_some.mp hfamily
    exact hregular c.id ((hlinked.mem_members hmem).mpr ⟨_, hid, hname.trans hfname.symm⟩) _ hid
      hrole
  have hwf : ∀ c ∈ r.declarations.viable family q,
      c.pattern.WellFormed r.declarations.model := by
    intro c hc
    obtain ⟨hid, -, hrole⟩ := hmember c hc
    exact hr.wellFormed hid hrole
  constructor
  · intro a ha
    obtain ⟨family', hfamily', rfl⟩ := Declarations.ambiguity_of_resolve ha
    obtain rfl := Option.some.inj (hfamily.symm.trans hfamily')
    exact Declarations.cycle_eq_nil
      (Declarations.not_transGen_self hrefl hsymm htrans hflavor hregular' hwf)
  · intro s hs hpath v hv hne
    obtain ⟨family', w, hfamily', -, hbest, rfl⟩ :=
      Declarations.exists_of_mostSpecialized hs hpath
    obtain rfl := Option.some.inj (hfamily.symm.trans hfamily')
    have hw : w ∈ r.declarations.viable family q := by
      have hmem : w ∈ (r.declarations.viable family q).filter fun c =>
          (r.declarations.ranking rules family q).isMaximal c.id :=
        hbest ▸ List.mem_singleton_self w
      exact List.mem_of_mem_filter hmem
    have hprecedes : w.pattern.Precedes r.declarations.model rules v.pattern :=
      Declarations.precedes_of_best hrefl hsymm htrans hflavor hregular' hwf hbest hv
        fun heq => hne (congrArg Candidate.id heq)
    obtain ⟨hwid, hwname, -⟩ := hmember w hw
    obtain ⟨hvid, hvname, -⟩ := hmember v hv
    refine ⟨_, ?_, (Pattern.aMoreSpecific_iff hrefl htrans (hregular' w hw) (hregular' v hv) none
      {}).mpr hprecedes⟩
    rw [Declarations.compare?, hwid, hvid]
    simp [hwname, hvname, hfamily, hflavor, Comparator.compare]

/-- Of `X<Ts...>`, `X<U*, Us...>` and `X<T, T>`, the arguments `(int*, int*)` go to the last.  The
second does not cover it, but has a pack. -/
theorem Reachable.classLike_ranking_pack :
    let model := AliasTable.empty.model
    let ts : Parameter := { name := "Ts", kind := .type, pack := true }
    let patterns := [Pattern.primary "X" [ts],
      .partialOf "X" 0 [{ name := "U", kind := .type }, ts]
        [.pointer (.param 0), .expansion (.param 1)],
      .partialOf "X" 0 [{ name := "T", kind := .type }] [.param 0, .param 0]]
    let d := patterns.foldl Declarations.record Registry.standard.declarations
    let family : Family :=
      { name := "X", flavor := .classLike, primaries := [0], partials := [1, 2] }
    let q : Query := { name := "X", args := [.pointer (.type "int"), .pointer (.type "int")] }
    Registry.Reachable { declarations := d } ∧ d.model = model ∧
      (∀ n, model.sameLeaf n n = true) ∧
      (∀ k l, model.sameLeaf k l = true → model.sameLeaf l k = true) ∧
      (∀ k l n, model.sameLeaf k l = true → model.sameLeaf l n = true →
        model.sameLeaf k n = true) ∧
      d.family? q.name = some family ∧ family.flavor = .classLike ∧
      (∀ id ∈ family.members, ∀ p, d.pattern? id = some p → p.role.isExplicit = false →
        p.Regular model) ∧
      ∃ s, d.resolve {} q = .resolved s ∧ s.path = .mostSpecialized ∧ s.pattern = 2 ∧
        (d.viable family q).map (·.id) = [0, 1, 2] ∧
        ∀ v ∈ d.viable family q, v.id ≠ 2 →
          ∃ c, d.compare? {} 2 v.id = some c ∧ c.specificity = .aMoreSpecific := by
  intro model ts patterns d family q
  have haccepted : Registry.standard.registerAll patterns = .ok { declarations := d } := rfl
  have hr : Registry.Reachable { declarations := d } :=
    Registry.Reachable.registerAll (.empty AliasTable.empty.model) haccepted
  have hrefl : ∀ n, model.sameLeaf n n = true := AliasTable.empty.sameLeaf_refl
  have hsymm : ∀ k l, model.sameLeaf k l = true → model.sameLeaf l k = true :=
    fun _ _ => AliasTable.empty.sameLeaf_symm
  have htrans : ∀ k l n, model.sameLeaf k l = true → model.sameLeaf l n = true →
      model.sameLeaf k n = true := fun _ _ _ => AliasTable.empty.sameLeaf_trans
  have hfamily : d.family? q.name = some family := rfl
  have hpatterns : ∀ p ∈ patterns, p.Regular model := by
    have hall : ∀ p ∈ patterns, p.PlaceholderFree ∧ Term.offsetsList p.args = [] ∧
        (∀ id ∈ Term.occurrencesList p.args, id < p.parameters.length) ∧
        (∀ slot ∈ p.slots, slot.default = none) ∧
        (∀ q ∈ p.parameters, model.argumentKind q = .value → q.valueType = none) ∧
        Term.expandsPacksList (p.isPack model) p.args = true := by decide
    intro p hp
    obtain ⟨hfree, hoffsets, hdeclared, hdefaults, htypes, hexpansions⟩ := hall p hp
    exact ⟨hfree, hoffsets, hdeclared, hdefaults, htypes, hexpansions⟩
  have hregular : ∀ id ∈ family.members, ∀ p, d.pattern? id = some p →
      p.role.isExplicit = false → p.Regular model :=
    fun id _ p hp _ => hpatterns p (List.mem_of_getElem? hp)
  let σ := Substitution.empty.insert 0 (.single (.pointer (.type "int")))
  have hs : d.resolve {} q = .resolved ⟨2, σ, .mostSpecialized, some 0⟩ := rfl
  obtain ⟨-, hbest⟩ :=
    hr.classLike_ranking hrefl hsymm htrans hfamily rfl hregular {}
  exact ⟨hr, rfl, hrefl, hsymm, htrans, hfamily, rfl, hregular, _, hs, rfl, rfl, rfl,
    hbest _ hs rfl⟩

end Registry

end TemplateResolution
