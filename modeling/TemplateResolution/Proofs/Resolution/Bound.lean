import TemplateResolution.Proofs.Matching.Bindings
import TemplateResolution.Proofs.Pattern.TemplateArguments
import TemplateResolution.Proofs.Registry.Copies
import TemplateResolution.Proofs.Resolution.Frame

/-!
# The parameters that a selection binds

Registration checks that every parameter of a partial specialization occurs where it can
be deduced.  An occurrence inside an expansion counts, and yet it is met only if the
expansion has a target.  So the check is not enough: `template<typename T, typename... Us>`
`X<Pair<T, Us>...>` passes it and takes an empty argument list, from which nothing is
deduced for `T`.

`classLike_binds_iff` says that nothing else goes wrong.  A selection among the patterns of a
class-like family leaves a parameter unbound exactly if its pack is empty and the parameter
occurs inside the expansions over that pack only.
-/

namespace TemplateResolution

namespace Term

theorem exists_of_mem_outerOccurrencesList {id : ParamId} {ts : List Term} :
    id ∈ outerOccurrencesList ts ↔ ∃ t ∈ ts, id ∈ t.outerOccurrences := by
  induction ts with
  | nil => simp [outerOccurrencesList]
  | cons t ts ih => simp [outerOccurrencesList, ih]

mutual

/-- What occurs outside the expansions and the offsets is deducible. -/
theorem mem_deducible_of_mem_outer {id : ParamId} : ∀ t : Term, id ∈ t.outerOccurrences →
    id ∈ t.deducibleOccurrences
  | param _, h => h
  | expansion _, h | offset _ _, h | placeholder _, h | type _, h | value _ _, h
  | template _, h => absurd h List.not_mem_nil
  | pointer inner, h | qualified _ inner, h | reference _ inner, h =>
    mem_deducible_of_mem_outer inner h
  | apply head args, h => by
    rw [deducibleOccurrences, List.mem_append]
    exact (List.mem_append.mp h).imp (mem_deducible_of_mem_outer head)
      (mem_deducibleList_of_mem_outer args)

theorem mem_deducibleList_of_mem_outer {id : ParamId} : ∀ ts : List Term,
    id ∈ outerOccurrencesList ts → id ∈ deducibleOccurrencesList ts
  | [], h => h
  | t :: ts, h => by
    rw [deducibleOccurrencesList, List.mem_append]
    exact (List.mem_append.mp h).imp (mem_deducible_of_mem_outer t)
      (mem_deducibleList_of_mem_outer ts)

end

end Term

namespace Pattern

variable {model : TypeModel} {p : Pattern}

/-- The parameters of a primary stand in its argument list themselves, packs expanded. -/
theorem isPack_or_outer_of_primarySlots (hslots : p.slots = primarySlots p.parameters)
    (harguments : p.checkArguments model = .ok ()) {id : ParamId} {q : Parameter}
    (hq : p.parameter? id = some q) :
    model.isPack q = true ∨ id ∈ Term.outerOccurrencesList p.args := by
  cases hpack : model.isPack q with
  | true => exact .inl rfl
  | false =>
    have harg := arg_of_primarySlots hslots hq
    rw [← (listsParameters hslots harguments).isPack q (List.mem_of_getElem? hq), hpack,
      if_neg Bool.false_ne_true] at harg
    refine .inr (Term.exists_of_mem_outerOccurrencesList.mpr ⟨_, List.mem_of_getElem? harg, ?_⟩)
    exact List.mem_singleton_self id

end Pattern

namespace Declarations

variable {d : Declarations} {rules : OrderingRules} {family : Family} {q : Query}

theorem exists_explicit_of_selectExplicit {args : List Term} {id : PatternId} {s : Selection}
    (h : d.selectExplicit args id = some s) :
    ∃ explicit, d.pattern? s.pattern = some explicit ∧ explicit.role.isExplicit = true := by
  rw [selectExplicit] at h
  split at h
  · exact absurd h (Option.some_ne_none s).symm
  · rename_i explicit hexplicit
    split at h
    · rename_i of templateArgs hrole
      split at h
      · rw [← Option.some.inj h]
        exact ⟨explicit, hexplicit, by rw [hrole]; rfl⟩
      · exact absurd h (Option.some_ne_none s).symm
    · exact absurd h (Option.some_ne_none s).symm

/-- A selection among the candidates starts from one of them. -/
theorem exists_winner {s : Selection}
    (hs : d.resolveAmong rules family q (d.siteArgs family q) = .resolved s) :
    ∃ path, ∃ w ∈ d.viable family q, s = d.select family q.primaryOnly path w := by
  rcases exists_of_resolveAmong hs with ⟨v, hsole, rfl⟩ | ⟨w, -, hbest, rfl⟩
  · exact ⟨_, v, hsole ▸ List.mem_singleton_self v, rfl⟩
  · exact ⟨_, w, List.mem_of_mem_filter (hbest ▸ List.mem_singleton_self w), rfl⟩

/-- What is selected among the patterns that compete is a candidate, with its own substitution. -/
theorem exists_candidate (hf : d.family? q.name = some family)
    (hclass : family.flavor = .classLike) {s : Selection} (hs : d.resolve rules q = .resolved s)
    {p : Pattern} (hp : d.pattern? s.pattern = some p) (hrole : p.role.isExplicit = false) :
    ∃ w ∈ d.viable family q, s.pattern = w.id ∧
      s.substitution = w.pattern.complete d.model w.substitution := by
  have hexplicit : ∀ selection, d.explicitSelection family q = some selection →
      ∃ explicit, d.pattern? selection.pattern = some explicit ∧
        explicit.role.isExplicit = true := by
    intro selection h
    rw [explicitSelection, hclass] at h
    dsimp only at h
    split at h
    · exact absurd h (Option.some_ne_none _).symm
    · obtain ⟨id, -, hid⟩ := List.exists_of_findSome?_eq_some h
      exact exists_explicit_of_selectExplicit hid
  rw [resolve_eq_match rules hf] at hs
  split at hs
  · rename_i selection hselected
    obtain rfl := Resolution.resolved.inj hs
    obtain ⟨explicit, hp', hexplicit⟩ := hexplicit selection hselected
    obtain rfl := Option.some.inj (hp.symm.trans hp')
    rw [hrole] at hexplicit
    exact Bool.noConfusion hexplicit
  · obtain ⟨path, w, hw, rfl⟩ := exists_winner hs
    rw [select_classLike hclass]
    exact ⟨w, hw, rfl, rfl⟩

end Declarations

namespace Pattern

variable {model : TypeModel} {p : Pattern}

/-- The parameters that a structural match leaves open.  Each occurs inside an expansion that had no
targets. -/
theorem match?_binds_iff (hwf : p.WellFormed model)
    (hdefaults : ∀ slot ∈ p.slots, slot.default = none)
    (hdeducible : ∀ id x, p.parameter? id = some x → model.isPack x = true ∨
      id ∈ Term.deducibleOccurrencesList p.args)
    {targets : List Term} {τ : Substitution}
    (hmatch : p.match? model .structural .empty targets = some τ) :
    ((p.complete model τ).flatten p.parameters.length).isSome = true ↔
      ∀ pack, (p.complete model τ).get? pack = some (.pack []) →
        ∀ id x, p.parameter? id = some x → model.isPack x = true ∨ x.default.isSome = true ∨
          id ∈ Term.outerOccurrencesList p.args := by
  obtain ⟨xs, hread, hpacks, hsuits, hbound, hlengths⟩ :=
    exists_reading_of_match? hdefaults hmatch
  have hkept : ∀ id b, τ.get? id = some b → (p.complete model τ).get? id = some b :=
    fun _ _ h => get?_completeFrom_of_some p.parameters 0 h
  rw [Substitution.isSome_flatten]
  constructor
  · intro hall pack hempty id x hx
    have hlt : id < p.parameters.length := (List.getElem?_eq_some_iff.mp hx).1
    rcases (isSome_get?_complete τ id).mp (hall id hlt) with hτ | ⟨x', hx', hdefault⟩
    · obtain ⟨f, hf, hbinds⟩ := (hbound id).mp hτ
      cases f with
      | clue c =>
        -- a place outside all expansions
        rcases hbinds with ⟨found, heq⟩ | ⟨u, hu⟩
        · exact Finding.noConfusion heq
        · obtain rfl := List.mem_singleton.mp hu
          exact .inr (.inr ((Matching.bind_mem_readList_iff _ _ _ _ hread).mp ⟨u, hf⟩))
      | elements pack' found =>
        have hpack' : p.isPack model pack' = true := hpacks _ hf
        rcases Finding.binds_elements.mp hbinds with rfl | ⟨y, hy, -⟩
        · obtain ⟨x', hx', hpack⟩ := (Option.any_eq_true _ _).mp hpack'
          obtain rfl := Option.some.inj (hx.symm.trans hx')
          exact .inl hpack
        · -- the only pack is not empty
          obtain rfl : pack' = pack :=
            hwf.isPack_unique pack' pack hpack' (kinded_complete hsuits.packs pack [] hempty)
          obtain ⟨ts, hts, hlength⟩ := hlengths pack' found hf
          obtain rfl : ts = [] :=
            Binding.pack.inj (Option.some.inj ((hkept pack' _ hts).symm.trans hempty))
          rw [List.length_eq_zero_iff.mp hlength.symm] at hy
          exact absurd hy List.not_mem_nil
    · obtain rfl := Option.some.inj (hx.symm.trans hx')
      rcases (Bool.or_eq_true _ _).mp hdefault with hpack | hdefault
      · exact .inl hpack
      · exact .inr (.inl hdefault)
  · intro hopen id hlt
    obtain ⟨x, hx⟩ : ∃ x, p.parameter? id = some x := ⟨_, List.getElem?_eq_getElem hlt⟩
    have hmet : id ∈ Term.outerOccurrencesList p.args → (τ.get? id).isSome = true := by
      intro houter
      obtain ⟨u, hu⟩ := (Matching.bind_mem_readList_iff _ _ _ _ hread).mpr houter
      exact (hbound id).mpr ⟨_, hu, .inr ⟨u, List.mem_singleton_self _⟩⟩
    refine (isSome_get?_complete τ id).mpr ?_
    rcases hdeducible id x hx with hpack | hoccurs
    · exact .inr ⟨x, hx, by rw [hpack, Bool.true_or]⟩
    · rcases Matching.binds_of_readList _ _ _ _ hread hoccurs with hbinds | ⟨pack, hnone⟩
      · exact .inl ((hbound id).mpr hbinds)
      · obtain ⟨ts, hts, hlength⟩ := hlengths pack [] hnone
        obtain rfl := List.length_eq_zero_iff.mp hlength
        rcases hopen pack (hkept pack _ hts) id x hx with hpack | hdefault | houter
        · exact .inr ⟨x, hx, by rw [hpack, Bool.true_or]⟩
        · exact .inr ⟨x, hx, by rw [hdefault, Bool.or_true]⟩
        · exact .inl (hmet houter)

end Pattern

/-- **What a class-like selection leaves unbound.**  A selected primary has all its parameters
bound.  A selected partial specialization has them bound unless its pack is empty and one of them
occurs inside expansions only. -/
theorem Registry.Reachable.classLike_binds_iff {r : Registry} (hr : r.Reachable)
    (hprimaries : ∀ p ∈ r.declarations.patterns, p.role = .primary →
      p.slots = Pattern.primarySlots p.parameters)
    (rules : OrderingRules) (q : Query) (hexplicit : q.explicitArgs = []) {family : Family}
    (hfamily : r.declarations.family? q.name = some family) (hclass : family.flavor = .classLike)
    {s : Selection} (hs : r.declarations.resolve rules q = .resolved s) {p : Pattern}
    (hp : r.declarations.pattern? s.pattern = some p) (hrole : p.role.isExplicit = false) :
    (p.role = .primary → (s.substitution.flatten p.parameters.length).isSome = true) ∧
      ((s.substitution.flatten p.parameters.length).isSome = true ↔
        ∀ pack, s.substitution.get? pack = some (.pack []) → ∀ id x, p.parameter? id = some x →
          r.declarations.model.isPack x = true ∨ x.default.isSome = true ∨
            id ∈ Term.outerOccurrencesList p.args) := by
  obtain ⟨w, hw, hid, hsubstitution⟩ := Declarations.exists_candidate hfamily hclass hs hp hrole
  obtain ⟨hregistered, hcompetes, htakes⟩ := (Declarations.mem_viable hr.filed hfamily).mp hw
  obtain rfl : w.pattern = p := Option.some.inj (hregistered.symm.trans (hid ▸ hp))
  have hmatch : w.pattern.match? r.declarations.model .structural .empty
      (r.declarations.siteArgs family q) = some w.substitution := by
    rw [hclass, hexplicit, Pattern.screen, Pattern.seed?, Pattern.seedFrom] at htakes
    dsimp only at htakes
    split at htakes
    · exact Except.noConfusion rfl rfl (heq_of_eq htakes)
    · rename_i σ hσ
      rw [← Except.ok.inj htakes]
      exact hσ
  have hwf := hr.wellFormed hregistered hrole
  rw [hsubstitution]
  obtain ⟨hname, -⟩ := (Bool.and_eq_true _ _).mp hcompetes
  cases hplace : w.pattern.role with
  | primary =>
    have hslots := hprimaries _ (List.mem_of_getElem? hregistered) hplace
    have hdefaults : ∀ slot ∈ w.pattern.slots, slot.default = none := by
      intro slot hslot
      rw [hslots, Pattern.primarySlots] at hslot
      obtain ⟨i, hi, rfl⟩ := List.mem_mapIdx.mp hslot
      rfl
    have houter : ∀ id x, w.pattern.parameter? id = some x →
        r.declarations.model.isPack x = true ∨ id ∈ Term.outerOccurrencesList w.pattern.args :=
      fun id x hx => Pattern.isPack_or_outer_of_primarySlots hslots hwf.arguments hx
    have hiff := Pattern.match?_binds_iff hwf hdefaults
      (fun id x hx => (houter id x hx).imp_right (Term.mem_deducibleList_of_mem_outer _)) hmatch
    refine ⟨fun _ => hiff.mpr fun _ _ id x hx => ?_, hiff⟩
    exact (houter id x hx).imp_right .inr
  | overload =>
    have hflavor := hr.linked.flavors family w.id w.pattern
      (of_decide_eq_true hname ▸ hfamily) hregistered (by rw [hplace]; rfl)
    rw [hplace, hclass] at hflavor
    exact Flavor.noConfusion hflavor
  | partialOf of =>
    obtain ⟨hdefaults, hdeducible, -⟩ := hr.checkPartial_inv hregistered hplace
    rw [Pattern.checkDeducible_eq_ok] at hdeducible
    refine ⟨fun h => Role.noConfusion h, ?_⟩
    exact Pattern.match?_binds_iff hwf hdefaults
      (fun id x hx => .inr (Pattern.mem_deducible.mp (hdeducible id x hx))) hmatch
  | explicitOf of templateArgs =>
    rw [hplace] at hrole
    exact Bool.noConfusion hrole

/-- `X<Pair<T, Us>...>` is selected for an empty argument list, with `T` unbound. -/
theorem Registry.Reachable.classLike_binds_iff_pairs :
    let variadic : List Parameter := [{ name := "Ts", kind := .type, pack := true }]
    let primary := Pattern.primary "X" variadic
    let parameters : List Parameter :=
      [{ name := "T", kind := .type }, { name := "Us", kind := .type, pack := true }]
    let pairs := Pattern.partialOf "X" 0 parameters
      [.expansion (.apply (.template "Pair") [.param 0, .param 1])]
    let d := [primary, pairs].foldl Declarations.record Registry.standard.declarations
    let family : Family := { name := "X", flavor := .classLike, primaries := [0], partials := [1] }
    let q : Query := { name := "X" }
    let s : Selection :=
      ⟨1, Substitution.empty.insert 1 (.pack []), .mostSpecialized, some 0⟩
    Registry.Reachable { declarations := d } ∧
      (∀ p ∈ d.patterns, p.role = .primary → p.slots = Pattern.primarySlots p.parameters) ∧
      q.explicitArgs = [] ∧ d.family? q.name = some family ∧ family.flavor = .classLike ∧
      d.resolve {} q = .resolved s ∧ d.pattern? s.pattern = some pairs ∧
      pairs.role.isExplicit = false ∧ s.substitution.flatten pairs.parameters.length = none := by
  intro variadic primary parameters pairs d family q s
  have haccepted : Registry.standard.registerAll [primary, pairs] = .ok { declarations := d } := rfl
  have hr : Registry.Reachable { declarations := d } :=
    Registry.Reachable.registerAll (.empty AliasTable.empty.model) haccepted
  have hprimaries : ∀ p ∈ d.patterns, p.role = .primary →
      p.slots = Pattern.primarySlots p.parameters := by decide
  have hfamily : d.family? q.name = some family := rfl
  have hresolve : d.resolve {} q = .resolved s := rfl
  have hpattern : d.pattern? s.pattern = some pairs := rfl
  refine ⟨hr, hprimaries, rfl, hfamily, rfl, hresolve, hpattern, rfl, ?_⟩
  have hbinds := (hr.classLike_binds_iff hprimaries {} q rfl hfamily rfl hresolve hpattern rfl).2
  -- `T` is no pack, has no default and occurs inside the expansion only
  have hopen : ¬ (s.substitution.flatten pairs.parameters.length).isSome = true := by
    intro hsome
    exact absurd (hbinds.mp hsome 1 rfl 0 { name := "T", kind := .type } rfl) (by decide)
  rwa [Option.not_isSome_iff_eq_none] at hopen

end TemplateResolution
