import TemplateResolution.Proofs.Registry.Explicits
import TemplateResolution.Proofs.Resolution.Defaults
import TemplateResolution.Proofs.Resolution.Dominance

/-!
# Queries and explicit specializations

Explicit specializations do not compete.  In a class-like family one of them is selected if
its argument list is that of the query, defaults written out.  There is at most one such
(`isExplicitFor_unique`), so it is no matter that the resolver takes the first
(`explicit_found`).

In a function-like family the overloads are resolved as if there were no explicit
specializations.  Then the selected overload is replaced by its explicit specialization at
the template arguments that were deduced, if there is one (`functionLike_explicit`).
-/

namespace TemplateResolution

namespace Declarations

variable {d : Declarations} {rules : OrderingRules} {family : Family} {q : Query}

/-! ### Class-like families -/

/-- The explicit specialization `id` has the name and the completed arguments of the query. -/
def IsExplicitFor (d : Declarations) (family : Family) (q : Query) (id : PatternId) : Prop :=
  ∃ p, d.pattern? id = some p ∧ p.name = q.name ∧ p.role.isExplicit = true ∧
    d.model.sameTerms p.args (d.completeArgs family q.args) = true

theorem selectExplicit_eq_some {args : List Term} {id : PatternId} {s : Selection} :
    d.selectExplicit args id = some s ↔ ∃ p of ts, d.pattern? id = some p ∧
      p.role = .explicitOf of ts ∧ d.model.sameTerms p.args args = true ∧
      s = ⟨id, d.primarySubstitution of ts, .explicit, some of⟩ := by
  rw [selectExplicit]
  constructor
  · intro h
    split at h
    · exact absurd h (Option.some_ne_none s).symm
    · rename_i p hp
      split at h
      · rename_i of ts hrole
        split at h
        · rename_i hsame
          exact ⟨p, of, ts, hp, hrole, hsame, (Option.some.inj h).symm⟩
        · exact absurd h (Option.some_ne_none s).symm
      · exact absurd h (Option.some_ne_none s).symm
  · rintro ⟨p, of, ts, hp, hrole, hsame, rfl⟩
    simp only [hp, hrole, hsame, if_true]

theorem Filed.mem_explicits (h : d.Filed) (hf : d.family? q.name = some family) {id : PatternId} :
    id ∈ family.explicits ↔
      ∃ p, d.pattern? id = some p ∧ p.name = q.name ∧ p.role.isExplicit = true := by
  rw [(h.files hf).explicits, mem_idsWhere]
  simp

/-- **What is found first is the only one to be found.** -/
theorem explicitSelection_of_unique (h : d.Filed) (hf : d.family? q.name = some family)
    (hclass : family.flavor = .classLike) (hq : q.primaryOnly = false) {id : PatternId}
    (hid : d.IsExplicitFor family q id) (hunique : ∀ j, d.IsExplicitFor family q j → j = id) :
    ∃ p of ts, d.pattern? id = some p ∧ p.role = .explicitOf of ts ∧
      d.explicitSelection family q =
        some ⟨id, d.primarySubstitution of ts, .explicit, some of⟩ := by
  obtain ⟨p, hp, hname, hexplicit, hsame⟩ := hid
  obtain ⟨of, ts, hrole⟩ : ∃ of ts, p.role = .explicitOf of ts := by
    cases hrole : p.role with
    | explicitOf of ts => exact ⟨of, ts, rfl⟩
    | _ => rw [hrole] at hexplicit; exact Bool.noConfusion hexplicit
  refine ⟨p, of, ts, hp, hrole, ?_⟩
  have hselected := selectExplicit_eq_some.mpr ⟨p, of, ts, hp, hrole, hsame, rfl⟩
  have hmem : id ∈ family.explicits := (h.mem_explicits hf).mpr ⟨p, hp, hname, hexplicit⟩
  rw [explicitSelection, hclass, hq, siteArgs, hclass]
  dsimp only
  rw [if_neg Bool.false_ne_true]
  cases hfound : family.explicits.findSome? (d.selectExplicit (d.completeArgs family q.args)) with
  | none =>
    rw [List.findSome?_eq_none_iff.mp hfound id hmem] at hselected
    exact absurd hselected (Option.some_ne_none _).symm
  | some s =>
    obtain ⟨j, hj, hs⟩ := List.exists_of_findSome?_eq_some hfound
    obtain ⟨p', hp', hname', hexplicit'⟩ := (h.mem_explicits hf).mp hj
    obtain ⟨p'', of', ts', hp'', -, hsame', -⟩ := selectExplicit_eq_some.mp hs
    obtain rfl := Option.some.inj (hp'.symm.trans hp'')
    obtain rfl := hunique j ⟨p', hp', hname', hexplicit', hsame'⟩
    rw [← hs, hselected]

end Declarations

namespace Registry.Reachable

variable {r : Registry} (hr : r.Reachable)
  (hrefl : ∀ n, r.declarations.model.sameLeaf n n = true)
  (hsymm : ∀ k l, r.declarations.model.sameLeaf k l = true →
    r.declarations.model.sameLeaf l k = true)
  (htrans : ∀ k l n, r.declarations.model.sameLeaf k l = true →
    r.declarations.model.sameLeaf l n = true → r.declarations.model.sameLeaf k n = true)

section Primary

variable {of : PatternId} {p : Pattern} (hp : r.declarations.pattern? of = some p)
  (hprimary : p.role = .primary) (hslots : p.slots = Pattern.primarySlots p.parameters)
  {family : Family} {q : Query} (hname : p.name = q.name)

include hr hp hprimary hslots in
theorem primary_lists : p.ListsParameters r.declarations.model := by
  have hwf := hr.wellFormed hp (by rw [hprimary]; rfl)
  exact Pattern.listsParameters hslots hwf.arguments

include hr hp hprimary hslots hname in
/-- An explicit specialization in the family of a primary specializes that primary, at its own
argument list. -/
theorem specializesAt_of_isExplicitFor {id : PatternId}
    (hid : r.declarations.IsExplicitFor family q id) :
    r.declarations.SpecializesAt of (r.declarations.completeArgs family q.args) id := by
  obtain ⟨e, he, hename, hexplicit, hsame⟩ := hid
  cases hrole : e.role with
  | explicitOf of' ts =>
    obtain ⟨t, ht, htname, hbase, hinstance⟩ := hr.explicit_inv he hrole
    obtain rfl : of' = of := hr.linked.sole of of' p t hp hprimary ht
      (htname.trans (hename.trans hname.symm)) (Role.isBase_iff.mpr hbase)
    obtain rfl := Option.some.inj (hp.symm.trans ht)
    have hargs := hinstance.args_eq (primary_lists hr hp hprimary hslots)
    exact ⟨e, ts, he, hrole, hargs ▸ hsame⟩
  | _ => rw [hrole] at hexplicit; exact Bool.noConfusion hexplicit

include hr hp hprimary hslots hname hrefl hsymm htrans in
theorem isExplicitFor_unique {i j : PatternId} (hi : r.declarations.IsExplicitFor family q i)
    (hj : r.declarations.IsExplicitFor family q j) : i = j :=
  hr.explicit_unique hrefl hsymm htrans
    (specializesAt_of_isExplicitFor hr hp hprimary hslots hname hi)
    (specializesAt_of_isExplicitFor hr hp hprimary hslots hname hj)

end Primary

include hr in
/-- A list of template arguments with which an explicit specialization was recorded is complete. -/
theorem completeArgs_explicit {id of : PatternId} {e p : Pattern} {ts : List Term}
    (he : r.declarations.pattern? id = some e) (hrole : e.role = .explicitOf of ts)
    (hp : r.declarations.pattern? of = some p) (hprimary : p.role = .primary)
    (hslots : p.slots = Pattern.primarySlots p.parameters) {family : Family}
    (hf : r.declarations.family? e.name = some family) :
    r.declarations.completeArgs family e.args = e.args := by
  obtain ⟨t, ht, hname, -, hinstance⟩ := hr.explicit_inv he hrole
  obtain rfl := Option.some.inj (hp.symm.trans ht)
  have hlists := primary_lists hr hp hprimary hslots
  rw [hinstance.args_eq hlists]
  obtain ⟨σ, hσ, hts, -⟩ := hinstance
  obtain ⟨hmem, hfname⟩ := hr.linked.family?_eq_some.mp hf
  have hhead : family.primaries.head?.bind r.declarations.pattern? = some p := by
    rw [hr.linked.primaries_eq hmem hp (hname.trans hfname.symm) hprimary]
    exact hp
  exact Declarations.completeArgs_flatten hhead hlists.packLast
    (Pattern.complete_respectsForms hσ.forms) hts

include hr hrefl hsymm htrans in
/-- **An explicit specialization of a primary is found, and no other one.**  A query with its
argument list selects it.  Whatever a query of that family is, at most one explicit specialization
has its completed arguments, and unless the query leaves specializations out, that one is
selected. -/
theorem explicit_found {id of : PatternId} {e p : Pattern} {ts : List Term}
    (he : r.declarations.pattern? id = some e) (hrole : e.role = .explicitOf of ts)
    (hp : r.declarations.pattern? of = some p) (hprimary : p.role = .primary)
    (hslots : p.slots = Pattern.primarySlots p.parameters) :
    ∃ family, r.declarations.family? e.name = some family ∧ family.flavor = .classLike ∧
      (∀ rules, ∃ σ, r.declarations.resolve rules { name := e.name, args := e.args } =
        .resolved ⟨id, σ, .explicit, some of⟩) ∧
      ∀ q, q.name = e.name → ∀ i, r.declarations.IsExplicitFor family q i →
        (∀ j, r.declarations.IsExplicitFor family q j → j = i) ∧
          (q.primaryOnly = false →
            ∀ rules, (r.declarations.resolve rules q).selected = some i) := by
  obtain ⟨t, ht, hname, -⟩ := hr.explicit_inv he hrole
  obtain rfl := Option.some.inj (hp.symm.trans ht)
  obtain ⟨family, hf⟩ := hr.linked.exists_family? he
  have hclass : family.flavor = .classLike := by
    have hflavor := hr.linked.flavors family of p (hname ▸ hf) hp (by rw [hprimary]; rfl)
    rw [hprimary] at hflavor
    exact hflavor.symm
  have hunique : ∀ q, q.name = e.name → ∀ i, r.declarations.IsExplicitFor family q i →
      ∀ j, r.declarations.IsExplicitFor family q j → j = i := by
    intro q hq i hi j hj
    exact isExplicitFor_unique hr hrefl hsymm htrans hp hprimary hslots (hname.trans hq.symm) hj hi
  refine ⟨family, hf, hclass, fun rules => ?_, fun q hq i hi => ⟨hunique q hq i hi, ?_⟩⟩
  · have hid : r.declarations.IsExplicitFor family { name := e.name, args := e.args } id := by
      refine ⟨e, he, rfl, by rw [hrole]; rfl, ?_⟩
      rw [completeArgs_explicit hr he hrole hp hprimary hslots hf]
      exact Term.sameList_refl hrefl e.args
    obtain ⟨e', of', ts', he', hrole', hselected⟩ :=
      Declarations.explicitSelection_of_unique hr.filed hf hclass rfl hid (hunique _ rfl id hid)
    obtain rfl := Option.some.inj (he.symm.trans he')
    obtain ⟨rfl, rfl⟩ := Role.explicitOf.inj (hrole.symm.trans hrole')
    refine ⟨r.declarations.primarySubstitution of ts, ?_⟩
    rw [Declarations.resolve_eq_match (q := { name := e.name, args := e.args }) rules hf, hselected]
  · intro hprimaryOnly rules
    have hf' : r.declarations.family? q.name = some family := hq ▸ hf
    obtain ⟨-, of', ts', -, -, hselected⟩ := Declarations.explicitSelection_of_unique hr.filed hf'
      hclass hprimaryOnly hi (hunique q hq i hi)
    rw [Declarations.resolve_eq_match rules hf', hselected]
    rfl

/-- `X<int>` is specialized explicitly, which is to say `X<int, P<int>>`, and found under both
names. -/
theorem explicit_found_default :
    let parameters : List Parameter := [{ name := "T", kind := .type },
      { name := "U", kind := .type, default := some (.apply (.template "P") [.param 0]) },
      { name := "Vs", kind := .type, pack := true }]
    let primary := Pattern.primary "X" parameters
    let int : Term := .type "int"
    let pair : Term := .apply (.template "P") [int]
    let e : Pattern :=
      { name := "X", role := .explicitOf 0 [int, pair], slots := [⟨int, none⟩, ⟨pair, none⟩] }
    let d := [primary, e].foldl Declarations.record Registry.standard.declarations
    Registry.standard.registerAll [primary, .explicitAt "X" 0 [int]] = .ok { declarations := d } ∧
      (∀ n, d.model.sameLeaf n n = true) ∧
      (∀ k l, d.model.sameLeaf k l = true → d.model.sameLeaf l k = true) ∧
      (∀ k l n, d.model.sameLeaf k l = true → d.model.sameLeaf l n = true →
        d.model.sameLeaf k n = true) ∧
      d.pattern? 1 = some e ∧ d.pattern? 0 = some primary ∧ primary.role = .primary ∧
      primary.slots = Pattern.primarySlots primary.parameters ∧
      (∃ σ, d.resolve {} { name := "X", args := [int, pair] } =
        .resolved ⟨1, σ, .explicit, some 0⟩) ∧
      (d.resolve {} { name := "X", args := [int] }).selected = some 1 := by
  intro parameters primary int pair e d
  have haccepted : Registry.standard.registerAll [primary, .explicitAt "X" 0 [int]] =
      .ok { declarations := d } := rfl
  have hr : Registry.Reachable { declarations := d } :=
    Registry.Reachable.registerAll (.empty AliasTable.empty.model) haccepted
  have hrefl : ∀ n, d.model.sameLeaf n n = true := AliasTable.empty.sameLeaf_refl
  have hsymm : ∀ k l, d.model.sameLeaf k l = true → d.model.sameLeaf l k = true :=
    fun k l => AliasTable.empty.sameLeaf_symm
  have htrans : ∀ k l n, d.model.sameLeaf k l = true → d.model.sameLeaf l n = true →
      d.model.sameLeaf k n = true := fun k l n => AliasTable.empty.sameLeaf_trans
  have he : d.pattern? 1 = some e := rfl
  have hp : d.pattern? 0 = some primary := rfl
  obtain ⟨family, hfamily, -, hfound, honly⟩ :=
    explicit_found hr hrefl hsymm htrans he rfl hp rfl rfl
  have hknown : d.family? "X" =
      some { name := "X", flavor := .classLike, primaries := [0], explicits := [1] } := rfl
  obtain rfl := Option.some.inj (hfamily.symm.trans hknown)
  obtain ⟨-, hselected⟩ := honly { name := "X", args := [int] } rfl 1 ⟨e, he, rfl, rfl, rfl⟩
  exact ⟨haccepted, hrefl, hsymm, htrans, he, hp, rfl, rfl, hfound {}, hselected rfl {}⟩

end Registry.Reachable

/-! ### Function-like families -/

namespace Declarations

variable {d : Declarations} {rules : OrderingRules} {family : Family} {q : Query}

theorem Linked.role_of_functionLike (h : d.Linked) (hf : d.family? q.name = some family)
    (hfunction : family.flavor = .functionLike) {id : PatternId} {p : Pattern}
    (hp : d.pattern? id = some p) (hname : p.name = q.name) :
    p.role = .overload ∨ p.role.isExplicit = true := by
  obtain ⟨hmem, hfname⟩ := h.family?_eq_some.mp hf
  obtain ⟨p', hp', hrole⟩ := h.coherent.functionLike family hmem hfunction id
    ((h.mem_members hmem).mpr ⟨p, hp, hname.trans hfname.symm⟩)
  obtain rfl := Option.some.inj (hp.symm.trans hp')
  exact hrole

/-- All that competes in a function-like family are its overloads. -/
theorem Linked.contenders_functionLike (h : d.Linked) (hf : d.family? q.name = some family)
    (hfunction : family.flavor = .functionLike) (primaryOnly : Bool) :
    family.contenders primaryOnly = ascending family.primaries := by
  have hnone : family.partials = [] := by
    rw [List.eq_nil_iff_forall_not_mem]
    intro id hid
    obtain ⟨p, hp, hname, hrank⟩ := (h.filed.files hf).mem_ranked.mp
      (show id ∈ family.ranked .partials from hid)
    have hrole := h.role_of_functionLike hf hfunction hp hname
    cases hprole : p.role <;> simp [hprole, Role.rank, Role.isExplicit] at hrank hrole
  rw [Family.contenders, hnone, List.append_nil, ite_self]

/-- So it is the same patterns that are matched, whether specializations are left out or not. -/
theorem Linked.screening_functionLike (h : d.Linked) (hf : d.family? q.name = some family)
    (hfunction : family.flavor = .functionLike) (b : Bool) :
    d.screening family { q with primaryOnly := b } = d.screening family q := by
  rw [screening, screening, h.contenders_functionLike hf hfunction,
    h.contenders_functionLike hf hfunction]
  rfl

theorem Linked.overload_of_viable (h : d.Linked) (hf : d.family? q.name = some family)
    (hfunction : family.flavor = .functionLike) {w : Candidate} (hw : w ∈ d.viable family q) :
    d.pattern? w.id = some w.pattern ∧ w.pattern.name = q.name ∧ w.pattern.role = .overload := by
  obtain ⟨hregistered, hcompetes, -⟩ := (mem_viable h.filed hf).mp hw
  obtain ⟨hname, hrole⟩ := (Bool.and_eq_true _ _).mp hcompetes
  have hname := of_decide_eq_true hname
  have hroles := h.role_of_functionLike hf hfunction hregistered hname
  refine ⟨hregistered, hname, hroles.resolve_right fun hexplicit => ?_⟩
  cases hprole : w.pattern.role <;>
    simp [hprole, Role.isBase, Role.isPartial, Role.isExplicit] at hrole hexplicit

/-- **Whether explicit specializations are left out does not matter to the competition** between the
overloads: the same one wins, or none does. -/
theorem Linked.resolve_functionLike (h : d.Linked) (hf : d.family? q.name = some family)
    (hfunction : family.flavor = .functionLike) (rules : OrderingRules) :
    (∃ o : Resolution, o.selected = none ∧
      ∀ b, d.resolve rules { q with primaryOnly := b } = o) ∨
    ∃ path w, path ≠ .explicit ∧ d.pattern? w.id = some w.pattern ∧ w.pattern.name = q.name ∧
      w.pattern.role = .overload ∧ ∀ b, d.resolve rules { q with primaryOnly := b } =
        .resolved (d.select family b path w) := by
  have hresolve : ∀ b, d.resolve rules { q with primaryOnly := b } =
      d.resolveAmong rules family { q with primaryOnly := b }
        (d.siteArgs family { q with primaryOnly := b }) := by
    intro b
    rw [resolve, siteArgs, hf]
    dsimp only
    rw [hfunction]
  have hviable : ∀ b, d.viable family { q with primaryOnly := b } = d.viable family q := by
    intro b
    rw [viable, viable, h.screening_functionLike hf hfunction]
  have hranking : ∀ b, d.ranking rules family { q with primaryOnly := b } =
      d.ranking rules family q := by
    intro b
    rw [ranking, ranking, hviable]
  rcases hcandidates : d.viable family q with _ | ⟨u, _ | ⟨v, rest⟩⟩
  · refine .inl ⟨.unmatched ⟨true, (d.screening family q).rejected⟩, rfl, fun b => ?_⟩
    rw [hresolve, resolveAmong_nil ((hviable b).trans hcandidates),
      h.screening_functionLike hf hfunction]
  · obtain ⟨hregistered, hname, hrole⟩ := h.overload_of_viable hf hfunction (w := u)
      (by rw [hcandidates]; exact List.mem_singleton_self u)
    refine .inr ⟨.soleCandidate, u, SelectionPath.noConfusion, hregistered, hname, hrole,
      fun b => ?_⟩
    rw [hresolve, resolveAmong_singleton ((hviable b).trans hcandidates)]
  · have hmany : ∀ b, 2 ≤ (d.viable family { q with primaryOnly := b }).length := by
      intro b
      rw [hviable, hcandidates, List.length_cons, List.length_cons]
      omega
    have hmatch := fun b => (hresolve b).trans (resolveAmong_many (hmany b))
    simp only [hviable, hranking] at hmatch
    rcases hbest : (d.viable family q).filter fun c =>
        (d.ranking rules family q).isMaximal c.id with _ | ⟨w, _ | ⟨w', others⟩⟩
    · simp only [hbest] at hmatch
      exact .inl ⟨_, rfl, hmatch⟩
    · simp only [hbest] at hmatch
      obtain ⟨hregistered, hname, hrole⟩ := h.overload_of_viable hf hfunction
        (List.mem_of_mem_filter (by rw [hbest]; exact List.mem_singleton_self w))
      exact .inr ⟨.mostSpecialized, w, SelectionPath.noConfusion, hregistered, hname, hrole, hmatch⟩
    · simp only [hbest] at hmatch
      exact .inl ⟨_, rfl, hmatch⟩

theorem select_true (d : Declarations) (family : Family) (path : SelectionPath) (w : Candidate) :
    d.select family true path w =
      ⟨w.id, w.pattern.complete d.model w.substitution, path, w.pattern.specializes⟩ := by
  rw [select]
  simp

/-- What is selected unless explicit specializations are left out. -/
theorem select_false (hfunction : family.flavor = .functionLike) (path : SelectionPath)
    (w : Candidate) {s : Selection} (hs : s = d.select family true path w) :
    d.select family false path w =
      match (s.substitution.flatten w.pattern.parameters.length).bind
        (d.explicitAt? family s.pattern) with
      | some id => ⟨id, s.substitution, .explicit, some s.pattern⟩
      | none => s := by
  rw [hs, select_true, select, hfunction]
  rfl

/-- The explicit specialization `id` stands for the overload `w` that was selected: it is one of
`w`, at the template arguments that the selection binds. -/
def StandsFor (d : Declarations) (s : Selection) (w : Pattern) (id : PatternId) : Prop :=
  ∃ D, s.substitution.flatten w.parameters.length = some D ∧ d.SpecializesAt s.pattern D id

end Declarations

/-- The search for an explicit specialization finds what stands for the selected overload. -/
theorem Registry.Reachable.explicitAt?_eq_some_iff_standsFor {r : Registry} (hr : r.Reachable)
    (hrefl : ∀ n, r.declarations.model.sameLeaf n n = true)
    (hsymm : ∀ k l, r.declarations.model.sameLeaf k l = true →
      r.declarations.model.sameLeaf l k = true)
    (htrans : ∀ k l n, r.declarations.model.sameLeaf k l = true →
      r.declarations.model.sameLeaf l n = true → r.declarations.model.sameLeaf k n = true)
    {s : Selection} {w : Pattern} (hw : r.declarations.pattern? s.pattern = some w)
    {family : Family} (hf : r.declarations.family? w.name = some family) {id : PatternId} :
    (s.substitution.flatten w.parameters.length).bind
        (r.declarations.explicitAt? family s.pattern) = some id ↔
      r.declarations.StandsFor s w id := by
  rw [Option.bind_eq_some_iff]
  refine exists_congr fun D => and_congr_right fun _ => ?_
  exact hr.explicitAt?_eq_some hrefl hsymm htrans hw hf

/-- **Explicit specializations do not take part in overload resolution.**  A query with and without
them comes to the same overload, or to none with the same report.  If it comes to one, its explicit
specialization at the template arguments that were deduced is selected instead, with the same
substitution, exactly if there is one, and there is at most one. -/
theorem Registry.Reachable.functionLike_explicit {r : Registry} (hr : r.Reachable)
    (hrefl : ∀ n, r.declarations.model.sameLeaf n n = true)
    (hsymm : ∀ k l, r.declarations.model.sameLeaf k l = true →
      r.declarations.model.sameLeaf l k = true)
    (htrans : ∀ k l n, r.declarations.model.sameLeaf k l = true →
      r.declarations.model.sameLeaf l n = true → r.declarations.model.sameLeaf k n = true)
    (rules : OrderingRules) (q : Query) {family : Family}
    (hfamily : r.declarations.family? q.name = some family)
    (hfunction : family.flavor = .functionLike) :
    let full := r.declarations.resolve rules { q with primaryOnly := false }
    let plain := r.declarations.resolve rules { q with primaryOnly := true }
    (plain.selected = none → full = plain) ∧
      ∀ s, plain = .resolved s → ∃ w, r.declarations.pattern? s.pattern = some w ∧
        w.role = .overload ∧
        ((∀ id, ¬ r.declarations.StandsFor s w id) → full = plain) ∧
        (∀ id, full = .resolved ⟨id, s.substitution, .explicit, some s.pattern⟩ ↔
          r.declarations.StandsFor s w id) ∧
        ∀ i j, r.declarations.StandsFor s w i → r.declarations.StandsFor s w j → i = j := by
  intro full plain
  rcases hr.linked.resolve_functionLike hfamily hfunction rules with
    ⟨o, hnone, hsame⟩ | ⟨path, w, hpath, hw, hname, hrole, hselect⟩
  · refine ⟨fun _ => (hsame false).trans (hsame true).symm, fun s hs => ?_⟩
    have hselected : plain.selected = none := by
      rw [show plain = o from hsame true, hnone]
    rw [hs] at hselected
    exact absurd hselected (Option.some_ne_none _)
  · have hplain : plain = .resolved (r.declarations.select family true path w) := hselect true
    refine ⟨fun hselected => ?_, fun s hs => ?_⟩
    · rw [hplain] at hselected
      exact absurd hselected (Option.some_ne_none _)
    · have hselection : s = r.declarations.select family true path w :=
        Resolution.resolved.inj (hs.symm.trans hplain)
      have hwinner := hselection.trans (r.declarations.select_true family path w)
      have hpattern : r.declarations.pattern? s.pattern = some w.pattern := by
        rw [hwinner]
        exact hw
      have hstands : ∀ id, (s.substitution.flatten w.pattern.parameters.length).bind
          (r.declarations.explicitAt? family s.pattern) = some id ↔
            r.declarations.StandsFor s w.pattern id := by
        intro id
        exact hr.explicitAt?_eq_some_iff_standsFor hrefl hsymm htrans hpattern (hname ▸ hfamily)
      have hfull : full = .resolved (r.declarations.select family false path w) := hselect false
      rw [Declarations.select_false hfunction path w hselection] at hfull
      have hunique : ∀ i j, r.declarations.StandsFor s w.pattern i →
          r.declarations.StandsFor s w.pattern j → i = j := by
        intro i j hi hj
        exact Option.some.inj (((hstands i).mpr hi).symm.trans ((hstands j).mpr hj))
      refine ⟨w.pattern, hpattern, hrole, fun hnone => ?_, fun id => ⟨fun hid => ?_, fun hid => ?_⟩,
        hunique⟩
      · cases hfound : (s.substitution.flatten w.pattern.parameters.length).bind
            (r.declarations.explicitAt? family s.pattern) with
        | none => rw [hfull, hfound, hs]
        | some k => exact absurd ((hstands k).mp hfound) (hnone k)
      · refine (hstands id).mp ?_
        rw [hfull] at hid
        have hselected := Resolution.resolved.inj hid
        split at hselected
        · rename_i k hfound
          rw [hfound, (Selection.mk.inj hselected).1]
        · -- without an explicit specialization, the path would be that of an overload
          rw [hwinner] at hselected
          exact absurd (congrArg Selection.path hselected) hpath
      · rw [hfull, (hstands id).mpr hid]

/-- `f(T, Us...)` is selected for an `int`, a `bool` and a `char`, and `f<int, bool, char>` instead
of it if that is there. -/
theorem Registry.Reachable.functionLike_explicit_pack :
    let variadic := Pattern.overload "f"
      [{ name := "T", kind := .type }, { name := "Us", kind := .type, pack := true }]
      [⟨.param 0, none⟩, ⟨.expansion (.param 1), none⟩]
    let pointer := Pattern.overload "f" [{ name := "T", kind := .type }]
      [⟨.pointer (.param 0), none⟩]
    let ts : List Term := [.type "int", .type "bool", .type "char"]
    let explicit : Pattern :=
      { name := "f", role := .explicitOf 0 ts, slots := ts.map ({ term := · }) }
    let d := [variadic, pointer, explicit].foldl Declarations.record Registry.standard.declarations
    let q : Query := { name := "f", args := ts }
    let family : Family :=
      { name := "f", flavor := .functionLike, primaries := [0, 1], explicits := [2] }
    let σ := (Substitution.empty.insert 0 (.single (.type "int"))).insert 1
      (.pack [.type "bool", .type "char"])
    let s : Selection := ⟨0, σ, .soleCandidate, none⟩
    Registry.Reachable { declarations := d } ∧ (∀ n, d.model.sameLeaf n n = true) ∧
      (∀ k l, d.model.sameLeaf k l = true → d.model.sameLeaf l k = true) ∧
      (∀ k l n, d.model.sameLeaf k l = true → d.model.sameLeaf l n = true →
        d.model.sameLeaf k n = true) ∧
      d.family? q.name = some family ∧ family.flavor = .functionLike ∧
      d.resolve {} { q with primaryOnly := true } = .resolved s ∧
      d.resolve {} { q with primaryOnly := false } = .resolved ⟨2, σ, .explicit, some 0⟩ ∧
      ∀ id, d.StandsFor s variadic id → id = 2 := by
  intro variadic pointer ts explicit d q family σ s
  have haccepted : Registry.standard.registerAll [variadic, pointer, .explicitAt "f" 0 ts] =
      .ok { declarations := d } := rfl
  have hr : Registry.Reachable { declarations := d } :=
    Registry.Reachable.registerAll (.empty AliasTable.empty.model) haccepted
  have hrefl : ∀ n, d.model.sameLeaf n n = true := AliasTable.empty.sameLeaf_refl
  have hsymm : ∀ k l, d.model.sameLeaf k l = true → d.model.sameLeaf l k = true :=
    fun k l => AliasTable.empty.sameLeaf_symm
  have htrans : ∀ k l n, d.model.sameLeaf k l = true → d.model.sameLeaf l n = true →
      d.model.sameLeaf k n = true := fun k l n => AliasTable.empty.sameLeaf_trans
  have hfamily : d.family? q.name = some family := rfl
  have hplain : d.resolve {} { q with primaryOnly := true } = .resolved s := rfl
  have hstands : d.StandsFor s variadic 2 := ⟨ts, rfl, explicit, ts, rfl, rfl, rfl⟩
  obtain ⟨-, hresolved⟩ := hr.functionLike_explicit hrefl hsymm htrans {} q hfamily rfl
  obtain ⟨w, hw, -, -, hiff, hunique⟩ := hresolved s hplain
  obtain rfl : variadic = w := Option.some.inj hw
  exact ⟨hr, hrefl, hsymm, htrans, hfamily, rfl, hplain, (hiff 2).mpr hstands,
    fun id hid => hunique id 2 hid hstands⟩

end TemplateResolution
