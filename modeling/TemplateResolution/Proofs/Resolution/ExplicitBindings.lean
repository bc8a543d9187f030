import TemplateResolution.Proofs.Resolution.Explicits

/-!
# What an explicit selection binds

With an explicit specialization of a primary, a substitution for the parameters of the primary
is reported.  It is not the one by which the specialization was completed when it was
registered: the template arguments are bound once more, from the list, and nothing is
completed.  The list does not show an empty pack, so an empty pack stays unbound; and an
expansion among the elements of a pack is not taken as a template argument, so then nothing
is bound at all.  In every other case the substitution binds all parameters and gives the
argument list of the specialization (`explicit_binds_iff`).

Without expansions, completion would make up for the empty pack.
-/

namespace TemplateResolution

namespace Declarations

variable {d : Declarations}

section Primary

variable {of : PatternId} {p : Pattern} (hp : d.pattern? of = some p)
include hp

theorem primarySubstitution_of_seed? {D : List Term} {seed : Substitution}
    (hseed : p.seed? d.model D = some seed) : d.primarySubstitution of D = seed := by
  rw [primarySubstitution, hp, Option.bind_some, hseed, Option.getD_some]

theorem respectsKinds_primarySubstitution (D : List Term) :
    (d.primarySubstitution of D).RespectsKinds d.model p.parameters := by
  cases hseed : p.seed? d.model D with
  | none =>
    rw [primarySubstitution, hp, Option.bind_some, hseed]
    exact .empty
  | some seed =>
    rw [primarySubstitution_of_seed? hp hseed]
    exact Pattern.respectsKinds_seedFrom p.parameters 0 D .empty seed rfl .empty hseed

variable (hlast : Parameter.PackLast d.model p.parameters) {τ : Substitution}
  (hτ : τ.RespectsKinds d.model p.parameters) {D : List Term}
  (hD : τ.flatten p.parameters.length = some D)
include hlast hτ hD

/-- Template arguments bound once more are the same, unless a pack is empty or holds an
expansion. -/
theorem flatten_primarySubstitution :
    (d.primarySubstitution of D).flatten p.parameters.length =
      if p.parameters.length ≤ D.length ∧ ∀ t ∈ D, t.isExpansion = false then some D else none := by
  have htaken := Pattern.isSome_seed?_iff hlast hτ hD
  cases hseed : p.seed? d.model D with
  | some seed =>
    have hplain := htaken.mp (by rw [hseed]; rfl)
    rw [primarySubstitution_of_seed? hp hseed, Pattern.flatten_seed hlast hτ.forms hD hseed]
    simp only [and_iff_left (a := p.parameters.length ≤ D.length) hplain]
  | none =>
    have hexpansion : ¬ ∀ t ∈ D, t.isExpansion = false := by
      intro hplain
      have hsome := htaken.mpr hplain
      rw [hseed] at hsome
      exact Bool.noConfusion hsome
    have hnothing : d.primarySubstitution of D = .empty := by
      rw [primarySubstitution, hp, Option.bind_some, hseed, Option.getD_none]
    rw [hnothing, if_neg fun h => hexpansion h.2, ← Option.not_isSome_iff_eq_none,
      Substitution.isSome_flatten]
    intro hall
    -- only without parameters nothing would have to be bound, and then there is no argument
    have hzero : p.parameters.length = 0 := by
      by_contra hne
      exact Bool.noConfusion (hall 0 (by omega))
    rw [hzero] at hD
    obtain rfl : [] = D := Option.some.inj hD
    exact hexpansion fun _ ht => absurd ht List.not_mem_nil

theorem flatten_complete_primarySubstitution (hplain : ∀ t ∈ D, t.isExpansion = false) :
    (p.complete d.model (d.primarySubstitution of D)).flatten p.parameters.length = some D := by
  have hsome := (Pattern.isSome_seed?_iff hlast hτ hD).mpr hplain
  obtain ⟨seed, hseed⟩ := Option.isSome_iff_exists.mp hsome
  rw [primarySubstitution_of_seed? hp hseed]
  exact Pattern.flatten_complete_seed hlast hτ.forms hD hseed

end Primary

/-- What is selected on the explicit path in a class-like family was found by its argument list. -/
theorem exists_explicit_of_path {rules : OrderingRules} {family : Family} {q : Query}
    (hf : d.family? q.name = some family) (hclass : family.flavor = .classLike) {s : Selection}
    (hs : d.resolve rules q = .resolved s) (hpath : s.path = .explicit) :
    ∃ e of ts, s.pattern ∈ family.explicits ∧ d.pattern? s.pattern = some e ∧
      e.role = .explicitOf of ts ∧ s.specializes = some of ∧
      s.substitution = d.primarySubstitution of ts := by
  rw [resolve_eq_match rules hf] at hs
  cases hselected : d.explicitSelection family q with
  | some selection =>
    rw [hselected] at hs
    obtain rfl := Resolution.resolved.inj hs
    rw [explicitSelection, hclass] at hselected
    dsimp only at hselected
    split at hselected
    · exact absurd hselected (Option.some_ne_none _).symm
    · obtain ⟨id, hmem, hid⟩ := List.exists_of_findSome?_eq_some hselected
      obtain ⟨e, of, ts, he, hrole, -, rfl⟩ := selectExplicit_eq_some.mp hid
      exact ⟨e, of, ts, hmem, he, hrole, rfl, rfl⟩
  | none =>
    rw [hselected] at hs
    -- a candidate is selected on another path
    rcases exists_of_resolveAmong hs with ⟨v, -, rfl⟩ | ⟨w, -, -, rfl⟩
    · rw [select_classLike hclass] at hpath
      exact SelectionPath.noConfusion hpath
    · rw [select_classLike hclass] at hpath
      exact SelectionPath.noConfusion hpath

end Declarations

/-- **What is bound by a selected explicit specialization of a primary.**  All parameters of the
primary are bound exactly if there is a template argument for each of them, so that no pack is
empty, and none of the template arguments is an expansion.  Then the substitution turns the
argument list of the primary into that of the specialization.  As long as there is no expansion,
it does so when it is completed. -/
theorem Registry.Reachable.explicit_binds_iff {r : Registry} (hr : r.Reachable)
    (hprimaries : ∀ p ∈ r.declarations.patterns, p.role = .primary →
      p.slots = Pattern.primarySlots p.parameters ∧
        p.DefaultsRespectKinds r.declarations.model)
    (rules : OrderingRules) (q : Query) {family : Family}
    (hfamily : r.declarations.family? q.name = some family) (hclass : family.flavor = .classLike)
    {s : Selection} (hs : r.declarations.resolve rules q = .resolved s)
    (hpath : s.path = .explicit) :
    ∃ e p of ts, r.declarations.pattern? s.pattern = some e ∧ e.role = .explicitOf of ts ∧
      s.specializes = some of ∧ r.declarations.pattern? of = some p ∧ p.role = .primary ∧
      ((s.substitution.flatten p.parameters.length).isSome = true ↔
        p.parameters.length ≤ ts.length ∧ ∀ t ∈ ts, t.isExpansion = false) ∧
      ((s.substitution.flatten p.parameters.length).isSome = true →
        Term.substList s.substitution p.args = e.args) ∧
      ((∀ t ∈ ts, t.isExpansion = false) →
        let σ := p.complete r.declarations.model s.substitution
        (σ.flatten p.parameters.length).isSome = true ∧ Term.substList σ p.args = e.args) := by
  obtain ⟨e, of, ts, hmem, he, hrole, hspecializes, hsubstitution⟩ :=
    Declarations.exists_explicit_of_path hfamily hclass hs hpath
  obtain ⟨p, hp, hname, hbase, hinstance⟩ := hr.explicit_inv he hrole
  have hprimary : p.role = .primary := by
    obtain ⟨e', he', hname', -⟩ := (hr.filed.mem_explicits hfamily).mp hmem
    obtain rfl := Option.some.inj (he.symm.trans he')
    refine hbase.resolve_right fun hoverload => ?_
    have hfunction :=
      Declarations.flavor_of_overload hr.linked hfamily hp (hname.trans hname') hoverload
    exact Flavor.noConfusion (hclass.symm.trans hfunction)
  obtain ⟨hslots, hdefaults⟩ := hprimaries p (List.mem_of_getElem? hp) hprimary
  have hlists := primary_lists hr hp hprimary hslots
  have hargs := hinstance.args_eq hlists
  obtain ⟨σ, hσ, hts, -⟩ := hinstance
  have hτ := Pattern.complete_respectsKinds hdefaults hσ
    ((Substitution.isSome_flatten _ _).mp (by rw [hts]; rfl))
  have hflatten := Declarations.flatten_primarySubstitution hp hlists.packLast hτ hts
  have hkinds := Declarations.respectsKinds_primarySubstitution hp ts
  refine ⟨e, p, of, ts, he, hrole, hspecializes, hp, hprimary, ?_, fun hbinds => ?_,
    fun hplain => ?_⟩
  · rw [hsubstitution, hflatten]
    split
    · rename_i hcondition
      exact ⟨fun _ => hcondition, fun _ => rfl⟩
    · rename_i hcondition
      exact ⟨fun h => Bool.noConfusion h, fun h => absurd h hcondition⟩
  · rw [hsubstitution] at hbinds ⊢
    rw [hflatten] at hbinds
    split at hbinds
    · rename_i hcondition
      rw [if_pos hcondition] at hflatten
      rw [hargs]
      exact hlists.substList_args hkinds.forms hflatten
    · exact Bool.noConfusion hbinds
  · intro τ
    have hcomplete : τ.flatten p.parameters.length = some ts := by
      rw [show τ = p.complete r.declarations.model (r.declarations.primarySubstitution of ts) from
        congrArg _ hsubstitution]
      exact Declarations.flatten_complete_primarySubstitution hp hlists.packLast hτ hts hplain
    have hforms : τ.RespectsForms r.declarations.model p.parameters := by
      refine Pattern.complete_respectsForms ?_
      rw [hsubstitution]
      exact hkinds.forms
    rw [hargs, hcomplete]
    exact ⟨rfl, hlists.substList_args hforms hcomplete⟩

/-- The explicit specializations `X<int, P<int>>` and `X<int, bool, char>`: the pack of the
primary is empty for the first, and is left out of the substitution. -/
theorem Registry.Reachable.explicit_binds_iff_pair :
    let primary := Pattern.primary "X" [{ name := "T", kind := .type },
      { name := "U", kind := .type, default := some (.apply (.template "P") [.param 0]) },
      { name := "Vs", kind := .type, pack := true }]
    let int : Term := .type "int"
    let pair : Term := .apply (.template "P") [int]
    let instanceAt (ts : List Term) : Pattern :=
      { name := "X", role := .explicitOf 0 ts, slots := ts.map ({ term := · }) }
    let short := instanceAt [int, pair]
    let long := instanceAt [int, .type "bool", .type "char"]
    let d := [primary, short, long].foldl Declarations.record Registry.standard.declarations
    let family : Family :=
      { name := "X", flavor := .classLike, primaries := [0], explicits := [1, 2] }
    let σ := (Substitution.empty.insert 0 (.single int)).insert 1 (.single pair)
    let τ := ((Substitution.empty.insert 0 (.single int)).insert 1
      (.single (.type "bool"))).insert 2 (.pack [.type "char"])
    Registry.Reachable { declarations := d } ∧
      (∀ p ∈ d.patterns, p.role = .primary → p.slots = Pattern.primarySlots p.parameters ∧
        p.DefaultsRespectKinds d.model) ∧
      d.family? "X" = some family ∧ family.flavor = .classLike ∧
      d.resolve {} { name := "X", args := [int] } = .resolved ⟨1, σ, .explicit, some 0⟩ ∧
      ¬ (σ.flatten 3).isSome = true ∧
      Term.substList (primary.complete d.model σ) primary.args = short.args ∧
      d.resolve {} { name := "X", args := long.args } = .resolved ⟨2, τ, .explicit, some 0⟩ ∧
      (τ.flatten 3).isSome = true ∧ Term.substList τ primary.args = long.args := by
  intro primary int pair instanceAt short long d family σ τ
  have haccepted : Registry.standard.registerAll [primary, .explicitAt "X" 0 [int],
      .explicitFor "X" 0 long.args] = .ok { declarations := d } := rfl
  have hr : Registry.Reachable { declarations := d } :=
    Registry.Reachable.registerAll (.empty AliasTable.empty.model) haccepted
  have hdefaults : primary.DefaultsRespectKinds d.model := by
    intro id q t hq hpack hdefault ρ _ _
    match id with
    | 0 =>
      obtain rfl := Option.some.inj hq
      exact absurd hdefault (Option.some_ne_none t).symm
    | 1 =>
      obtain rfl := Option.some.inj hq
      obtain rfl := Option.some.inj hdefault
      rfl
    | 2 =>
      obtain rfl := Option.some.inj hq
      exact Bool.noConfusion hpack
    | id + 3 => exact absurd hq (Option.some_ne_none q).symm
  have hprimaries : ∀ p ∈ d.patterns, p.role = .primary →
      p.slots = Pattern.primarySlots p.parameters ∧ p.DefaultsRespectKinds d.model := by
    intro p hp hrole
    have hmem : p ∈ [primary, short, long] := hp
    simp only [List.mem_cons, List.not_mem_nil, or_false] at hmem
    rcases hmem with rfl | rfl | rfl
    · exact ⟨rfl, hdefaults⟩
    · exact Role.noConfusion hrole
    · exact Role.noConfusion hrole
  have hfamily : d.family? "X" = some family := rfl
  have hshort : d.resolve {} { name := "X", args := [int] } =
      .resolved ⟨1, σ, .explicit, some 0⟩ := rfl
  have hlong : d.resolve {} { name := "X", args := long.args } =
      .resolved ⟨2, τ, .explicit, some 0⟩ := rfl
  refine ⟨hr, hprimaries, hfamily, rfl, hshort, ?_⟩
  obtain ⟨e, p, of, ts, he, hrole, hof, hp, -, hbinds, -, hcomplete⟩ :=
    hr.explicit_binds_iff hprimaries {} { name := "X", args := [int] } hfamily rfl hshort rfl
  obtain rfl : short = e := Option.some.inj he
  obtain ⟨rfl, rfl⟩ := Role.explicitOf.inj hrole
  obtain rfl : primary = p := Option.some.inj hp
  refine ⟨fun hsome => absurd (hbinds.mp hsome).1 (by decide), (hcomplete (by decide)).2, hlong, ?_⟩
  obtain ⟨e, p, of, ts, he, hrole, hof, hp, -, hbinds, hgives, -⟩ :=
    hr.explicit_binds_iff hprimaries {} { name := "X", args := long.args } hfamily rfl hlong rfl
  obtain rfl : long = e := Option.some.inj he
  obtain ⟨rfl, rfl⟩ := Role.explicitOf.inj hrole
  obtain rfl : primary = p := Option.some.inj hp
  have hsome : (τ.flatten 3).isSome = true := hbinds.mpr (by decide)
  exact ⟨hsome, hgives hsome⟩

end TemplateResolution
