import TemplateResolution.Proofs.Pattern.TemplateArguments
import TemplateResolution.Proofs.Resolution.Frame

/-!
# Writing out defaults

In a class-like family, arguments that are left out are completed from the defaults of the
primary before anything else is done with them.  What comes of this is a list of template
arguments for the primary, and such a list is complete (`completeArgs_flatten`).  So it makes
no difference to a query whether the defaults are written out (`resolve_completeArgs`).

The list may be one short of the number of parameters, because an empty pack contributes
nothing to it; and a default may be of the wrong kind, and then the list is not accepted as
template arguments.  In both cases the resolver tries to complete the list once more, and
nothing is added to it.
-/

namespace TemplateResolution

/-- Within a class-like family the use-site makes no difference to a comparison. -/
theorem Comparator.compareAt_classLike (c : Comparator) (h : c.flavor = .classLike) (a b : Pattern)
    (site : Option UseSite) : c.compareAt a b site = c.compare a b := by
  have hheed : ∀ site, c.heed site = none := by
    intro site
    rw [heed, h, if_neg Flavor.noConfusion]
  simp only [compare, compareAt, sideAt, conversionsAt, hheed]

namespace Declarations

variable {d : Declarations} {rules : OrderingRules} {family : Family} {q : Query}

theorem graph_classLike (rules : OrderingRules) (arity arity' : Nat) (viable : List Candidate) :
    d.graph rules .classLike arity viable = d.graph rules .classLike arity' viable := by
  have hcompare : ∀ x y : Candidate, compareCandidates ⟨d.model, rules, .classLike⟩ arity x y =
      compareCandidates ⟨d.model, rules, .classLike⟩ arity' x y := by
    intro x y
    rw [compareCandidates, compareCandidates, Comparator.compareAt_classLike _ rfl,
      Comparator.compareAt_classLike _ rfl]
  simp only [graph, hcompare]

/-- What leads a class-like family is its primary. -/
theorem Linked.exists_primary (h : d.Linked) {name : String} (hf : d.family? name = some family)
    (hclass : family.flavor = .classLike) :
    ∃ p, family.primaries.head?.bind d.pattern? = some p ∧ p.name = name ∧ p.role = .primary := by
  obtain ⟨hmem, hfname⟩ := h.family?_eq_some.mp hf
  obtain ⟨id, p, hprimaries, hp, hrole, -⟩ := h.coherent.classLike family hmem hclass
  obtain ⟨p', hp', hname, -⟩ := (h.mem_ranked hmem (k := .bases)).mp
    (show id ∈ family.primaries by rw [hprimaries]; exact List.mem_singleton_self id)
  obtain rfl := Option.some.inj (hp.symm.trans hp')
  refine ⟨p, ?_, hname.trans hfname, hrole⟩
  rw [hprimaries]
  exact hp

section Completion

variable {p : Pattern} (hp : family.primaries.head?.bind d.pattern? = some p)
  (hlast : Parameter.PackLast d.model p.parameters)
include hp hlast

/-- **A list of template arguments for the primary is complete.** -/
theorem completeArgs_flatten {σ : Substitution} (hσ : σ.RespectsForms d.model p.parameters)
    {D : List Term} (hD : σ.flatten p.parameters.length = some D) :
    d.completeArgs family D = D := by
  rw [completeArgs, hp]
  dsimp only
  split
  · split
    · rfl
    · rename_i seed hseed
      rw [Pattern.flatten_complete_seed hlast hσ hD hseed, Option.getD_some]
  · rfl

theorem completeArgs_idem (args : List Term) :
    d.completeArgs family (d.completeArgs family args) = d.completeArgs family args := by
  have hunfold : d.completeArgs family args = args ∨
      ∃ seed D, p.seed? d.model args = some seed ∧
        (p.complete d.model seed).flatten p.parameters.length = some D ∧
        d.completeArgs family args = D := by
    rw [completeArgs, hp]
    dsimp only
    split
    · split
      · exact .inl rfl
      · rename_i seed hseed
        cases hD : (p.complete d.model seed).flatten p.parameters.length with
        | none => exact .inl rfl
        | some D => exact .inr ⟨seed, D, hseed, hD, rfl⟩
    · exact .inl rfl
  rcases hunfold with hsame | ⟨seed, D, hseed, hD, hargs⟩
  · rw [hsame, hsame]
  · have hkinds : seed.RespectsKinds d.model p.parameters :=
      Pattern.respectsKinds_seedFrom p.parameters 0 args .empty seed rfl .empty hseed
    rw [hargs]
    exact completeArgs_flatten hp hlast (Pattern.complete_respectsForms hkinds.forms) hD

end Completion

/-- What a query of a class-like family resolves to depends on its completed arguments only. -/
theorem resolve_eq_of_completeArgs (rules : OrderingRules) (hf : d.family? q.name = some family)
    (hclass : family.flavor = .classLike) {args : List Term}
    (hargs : d.completeArgs family args = d.completeArgs family q.args) :
    d.resolve rules { q with args } = d.resolve rules q := by
  rw [resolve, resolve, hf]
  dsimp only
  rw [hclass]
  dsimp only
  rw [hargs, resolveAmong, resolveAmong, hclass]
  dsimp only
  simp only [graph_classLike rules args.length q.args.length]

end Declarations

/-- **Writing out the defaults changes nothing.**  The completed arguments of a query of a
class-like family are complete, and a query with these arguments resolves to the same. -/
theorem Registry.Reachable.resolve_completeArgs {r : Registry} (hr : r.Reachable)
    (rules : OrderingRules) (q : Query) {family : Family}
    (hfamily : r.declarations.family? q.name = some family) (hclass : family.flavor = .classLike)
    (hprimary : ∀ p ∈ r.declarations.patterns, p.name = q.name → p.role = .primary →
      p.slots = Pattern.primarySlots p.parameters) :
    let args := r.declarations.completeArgs family q.args
    r.declarations.completeArgs family args = args ∧
      r.declarations.resolve rules { q with args } = r.declarations.resolve rules q := by
  intro args
  obtain ⟨p, hp, hname, hrole⟩ := hr.linked.exists_primary hfamily hclass
  obtain ⟨id, -, hid⟩ := Option.bind_eq_some_iff.mp hp
  have hwf := hr.wellFormed hid (by rw [hrole]; rfl)
  have hslots := hprimary p (List.mem_of_getElem? hid) hname hrole
  have hidem : r.declarations.completeArgs family args = args :=
    Declarations.completeArgs_idem hp (Pattern.listsParameters hslots hwf.arguments).packLast q.args
  exact ⟨hidem, Declarations.resolve_eq_of_completeArgs rules hfamily hclass hidem⟩

/-- `X<int>` stands for `X<int, P<int>>`.  The primary has a pack behind the two parameters, so the
completed list is one short and is completed again. -/
theorem Registry.Reachable.resolve_completeArgs_pair :
    let parameters : List Parameter := [{ name := "T", kind := .type },
      { name := "U", kind := .type, default := some (.apply (.template "P") [.param 0]) },
      { name := "Vs", kind := .type, pack := true }]
    let d := Registry.standard.declarations.record (Pattern.primary "X" parameters)
    let family : Family := { name := "X", flavor := .classLike, primaries := [0] }
    let q : Query := { name := "X", args := [.type "int"] }
    let args : List Term := [.type "int", .apply (.template "P") [.type "int"]]
    Registry.Reachable { declarations := d } ∧ d.family? q.name = some family ∧
      family.flavor = .classLike ∧
      (∀ p ∈ d.patterns, p.name = q.name → p.role = .primary →
        p.slots = Pattern.primarySlots p.parameters) ∧
      d.completeArgs family q.args = args ∧ d.completeArgs family args = args ∧
      d.resolve {} { q with args } = d.resolve {} q := by
  intro parameters d family q args
  have haccepted : Registry.standard.registerAll [Pattern.primary "X" parameters] =
      .ok { declarations := d } := rfl
  have hr : Registry.Reachable { declarations := d } :=
    Registry.Reachable.registerAll (.empty AliasTable.empty.model) haccepted
  have hfamily : d.family? q.name = some family := rfl
  have hprimary : ∀ p ∈ d.patterns, p.name = q.name → p.role = .primary →
      p.slots = Pattern.primarySlots p.parameters := by decide
  have hargs : d.completeArgs family q.args = args := rfl
  exact ⟨hr, hfamily, rfl, hprimary, hargs, hr.resolve_completeArgs {} q hfamily rfl hprimary⟩

end TemplateResolution
