import TemplateResolution.Proofs.Registry.Accepted
import TemplateResolution.Proofs.Specificity.Image
import TemplateResolution.Proofs.Specificity.Unrolling

/-!
# More specialized patterns take less

When a comparison finds that `b` reproduces `a`, one match of `b` against the image of
`a` stands for all argument lists that `a` takes: each of them fits the image, and `b`
takes whatever fits what it took (`takes_of_image`).

For a pattern `a` without packs nothing more is needed (`match?_of_aFromB`).  A pack of
`a` is represented by one placeholder although its elements may all be different, so
there `b` must not have tied one of its own parameters to that placeholder
(`KeepsPacksApart`, `partial_subset`).
-/

namespace TemplateResolution

/-! ### One match for all lists -/

section

variable {model : TypeModel} (hrefl : ∀ n, model.sameLeaf n n = true)
  (hsymm : ∀ k l, model.sameLeaf k l = true → model.sameLeaf l k = true)
  (htrans : ∀ k l n, model.sameLeaf k l = true → model.sameLeaf l n = true →
    model.sameLeaf k n = true)
  {a b : Pattern}

namespace Pattern

theorem placeholdersList_args {p : Pattern} (h : p.PlaceholderFree) :
    Term.placeholdersList p.args = [] := by
  refine Term.placeholdersList_eq_nil.mpr fun t ht => ?_
  obtain ⟨slot, hslot, rfl⟩ := List.mem_map.mp ht
  exact h slot hslot

/-- A comparison within a class-like family says that `b` reproduces `a` if `b` takes the image. -/
theorem exists_match_image (ha : a.PlaceholderFree) (hb : b.PlaceholderFree)
    {rules : OrderingRules} {supply : PlaceholderSupply}
    (h : (((Comparator.mk model rules .classLike).compare a b).run supply).1.aFromB = true) :
    ∃ τ, b.match? model .structural .empty (a.image model) = some τ := by
  have houtcome := Comparator.compareAt_run_fst ⟨model, rules, .classLike⟩ ha hb none supply
  rw [Comparator.compare, houtcome] at h
  exact Option.isSome_iff_exists.mp h

/-- The image of a pattern without packs mentions no parameter. -/
theorem occurrences_image (hnone : ∀ id, a.isPack model id = false)
    (hdeclared : ∀ id ∈ Term.occurrencesList a.args, id < a.parameters.length) :
    ∀ s ∈ a.image model, s.occurrences = [] := by
  have hpackFree : (PlaceholderSupply.frozen model a.parameters).PackFree := fun id us hus =>
    Bool.eq_false_iff.mp (hnone id)
      (Matching.kinded_frozen (m := Matching.structural model a.parameters) id us hus)
  have hnil : Term.occurrencesList (a.image model) = [] := by
    rw [image, Term.substList, Substitution.occurrencesList_applyList hpackFree,
      List.flatMap_eq_nil_iff]
    intro id hid
    have hq := List.getElem?_eq_getElem (hdeclared id hid)
    have hpack := hnone id
    rw [isPack, parameter?, hq, Option.any_some] at hpack
    rw [Substitution.atParam, PlaceholderSupply.frozen_single hq hpack]
    rfl
  intro s hs
  refine List.eq_nil_iff_forall_not_mem.mpr fun id hid => ?_
  have hmem : id ∈ Term.occurrencesList (a.image model) := Term.mem_occurrencesList.mpr ⟨s, hs, hid⟩
  rw [hnil] at hmem
  exact List.not_mem_nil hmem

include hrefl hsymm htrans in
/-- **A pattern that takes the image of another takes what the other takes,** unless it has tied a
parameter inside an expansion to a pack. -/
theorem takes_of_image (ha : a.PlaceholderFree) (hb : b.PlaceholderFree)
    (hadefaults : ∀ slot ∈ a.slots, slot.default = none)
    (hbdefaults : ∀ slot ∈ b.slots, slot.default = none)
    (htypes : ∀ q ∈ b.parameters, model.argumentKind q = .value → q.valueType = none)
    (hunique : ∀ i j, a.isPack model i = true → a.isPack model j = true → i = j)
    (hoffsets : (Term.offsetsList a.args = [] ∧ Term.offsetsList b.args = []) ∨
      ((∀ id, a.isPack model id = false) ∧
        ∀ id ∈ Term.occurrencesList a.args, id < a.parameters.length))
    {τ : Substitution} (hτ : b.match? model .structural .empty (a.image model) = some τ)
    (hout : ∀ inner ∈ Term.expansionsList b.args, ∀ id ∈ inner.occurrences, ∀ u,
      τ.get? id = some (.single u) → ∀ pack ∈ u.thaw.occurrences, a.isPack model pack = false)
    {targets : List Term} (htargets : ∀ t ∈ targets, t.IsArgument)
    (h : (a.match? model .structural .empty targets).isSome = true) :
    (b.match? model .structural .empty targets).isSome = true := by
  obtain ⟨σ, hσ⟩ := Option.isSome_iff_exists.mp h
  have hallowed : (Matching.structural model a.parameters).OffsetsAllowed false
      (Term.offsetsList a.args) := hoffsets.imp And.left fun hnone => ⟨rfl, hnone.1⟩
  obtain ⟨hfits, hsuits⟩ := image_fits hrefl htrans (placeholdersList_args ha) hadefaults hunique
    hallowed htargets hσ
  have hruns : ∃ pk es, σ.RunsOver pk es := by
    by_cases hpack : ∃ id us, σ.get? id = some (.pack us)
    · obtain ⟨pk, es, hpk⟩ := hpack
      refine ⟨pk, es, fun id us hus => ?_⟩
      obtain rfl := hunique id pk (hsuits.packs id us hus) (hsuits.packs pk es hpk)
      exact ⟨rfl, Binding.pack.inj (Option.some.inj (hus.symm.trans hpk))⟩
    · exact ⟨0, [], fun id us hus => absurd ⟨id, us, hus⟩ hpack⟩
  obtain ⟨pk, es, hruns⟩ := hruns
  have hclosed : Term.offsetsList b.args = [] ∨
      (σ.PackFree ∧ ∀ s ∈ a.image model, s.occurrences = []) := by
    rcases hoffsets with ⟨-, hnil⟩ | ⟨hnone, hdeclared⟩
    · exact .inl hnil
    · exact .inr ⟨fun id us hus => Bool.eq_false_iff.mp (hnone id) (hsuits.packs id us hus),
        occurrences_image hnone hdeclared⟩
  refine match?_of_fits hrefl hsymm htrans (placeholdersList_args hb) hbdefaults htypes hruns
    (isNormal_image model a) (fun t ht => (htargets t ht).normal) hclosed hfits hτ ?_
  intro hpk inner hinner id hid u hu hmem
  have hnot := hout inner hinner id hid u hu pk hmem
  exact Bool.eq_false_iff.mp hnot (hsuits.packs pk es hpk)

end Pattern

end

/-! ### Patterns without packs -/

/-- **If `a` has no pack and `b` reproduces it, `b` takes every argument list that `a` takes.** -/
theorem Comparator.match?_of_aFromB {model : TypeModel} (hrefl : ∀ n, model.sameLeaf n n = true)
    (hsymm : ∀ k l, model.sameLeaf k l = true → model.sameLeaf l k = true)
    (htrans : ∀ k l n, model.sameLeaf k l = true → model.sameLeaf l n = true →
      model.sameLeaf k n = true)
    {a b : Pattern} (ha : a.PlaceholderFree) (hb : b.PlaceholderFree)
    (hadefaults : ∀ slot ∈ a.slots, slot.default = none)
    (hbdefaults : ∀ slot ∈ b.slots, slot.default = none)
    (hdeclared : ∀ id ∈ Term.occurrencesList a.args, id < a.parameters.length)
    (hpacks : ∀ q ∈ a.parameters, model.isPack q = false)
    (htypes : ∀ q ∈ b.parameters, model.argumentKind q = .value → q.valueType = none)
    (rules : OrderingRules) (supply : PlaceholderSupply)
    (hcompare : (((Comparator.mk model rules .classLike).compare a b).run supply).1.aFromB = true)
    {targets : List Term} (hnormal : ∀ t ∈ targets, t.isNormal = true)
    (hclosed : ∀ t ∈ targets, t.occurrences = [])
    (h : (a.match? model .structural .empty targets).isSome = true) :
    (b.match? model .structural .empty targets).isSome = true := by
  have hnone : ∀ id, a.isPack model id = false := by
    intro id
    rw [Pattern.isPack, Pattern.parameter?]
    cases hq : a.parameters[id]? with
    | none => rfl
    | some q => exact hpacks q (List.mem_of_getElem? hq)
  obtain ⟨τ, hτ⟩ := Pattern.exists_match_image ha hb hcompare
  have hunique : ∀ i j, a.isPack model i = true → a.isPack model j = true → i = j := by
    intro i j hi
    rw [hnone i] at hi
    exact Bool.noConfusion hi
  exact Pattern.takes_of_image hrefl hsymm htrans ha hb hadefaults hbdefaults htypes hunique
    (.inr ⟨hnone, hdeclared⟩) hτ (fun _ _ _ _ _ _ pack _ => hnone pack)
    (fun t ht => ⟨hnormal t ht, hclosed t ht⟩) h

/-- `X<U*, M, M+1, Vs...>` takes `(const int*, 3, 4, 7)`, since it takes all that
`X<const T*, N, N+1, 7>` takes. -/
theorem Comparator.match?_of_aFromB_pointers :
    let model := AliasTable.empty.model
    let a := Pattern.partialOf "X" 0
      [{ name := "T", kind := .type }, { name := "N", kind := .value }]
      [.pointer (.qualified .const (.param 0)), .param 1, .offset (.param 1) 1, .value 7 "int"]
    let b := Pattern.partialOf "X" 0
      [{ name := "U", kind := .type }, { name := "M", kind := .value },
        { name := "Vs", kind := .value, pack := true }]
      [.pointer (.param 0), .param 1, .offset (.param 1) 1, .expansion (.param 2)]
    let targets : List Term := [.pointer (.qualified .const (.type "int")), .value 3 "int",
      .value 4 "int", .value 7 "int"]
    (∀ n, model.sameLeaf n n = true) ∧
      (∀ k l, model.sameLeaf k l = true → model.sameLeaf l k = true) ∧
      (∀ k l n, model.sameLeaf k l = true → model.sameLeaf l n = true →
        model.sameLeaf k n = true) ∧
      a.PlaceholderFree ∧ b.PlaceholderFree ∧
      (∀ slot ∈ a.slots, slot.default = none) ∧ (∀ slot ∈ b.slots, slot.default = none) ∧
      (∀ id ∈ Term.occurrencesList a.args, id < a.parameters.length) ∧
      (∀ q ∈ a.parameters, model.isPack q = false) ∧
      (∀ q ∈ b.parameters, model.argumentKind q = .value → q.valueType = none) ∧
      (((Comparator.mk model {} .classLike).compare a b).run {}).1.aFromB = true ∧
      (∀ t ∈ targets, t.isNormal = true) ∧ (∀ t ∈ targets, t.occurrences = []) ∧
      (a.match? model .structural .empty targets).isSome = true ∧
      (b.match? model .structural .empty targets).isSome = true := by
  intro model a b targets
  have hrefl : ∀ n, model.sameLeaf n n = true := AliasTable.empty.sameLeaf_refl
  have hsymm : ∀ k l, model.sameLeaf k l = true → model.sameLeaf l k = true :=
    fun _ _ => AliasTable.empty.sameLeaf_symm
  have htrans : ∀ k l n, model.sameLeaf k l = true → model.sameLeaf l n = true →
      model.sameLeaf k n = true := fun _ _ _ => AliasTable.empty.sameLeaf_trans
  have ha : a.PlaceholderFree := by decide
  have hb : b.PlaceholderFree := by decide
  have hadefaults : ∀ slot ∈ a.slots, slot.default = none := by decide
  have hbdefaults : ∀ slot ∈ b.slots, slot.default = none := by decide
  have hdeclared : ∀ id ∈ Term.occurrencesList a.args, id < a.parameters.length := by decide
  have hpacks : ∀ q ∈ a.parameters, model.isPack q = false := by decide
  have htypes : ∀ q ∈ b.parameters, model.argumentKind q = .value → q.valueType = none := by decide
  have hcompare : (((Comparator.mk model {} .classLike).compare a b).run {}).1.aFromB = true := rfl
  have hnormal : ∀ t ∈ targets, t.isNormal = true := by decide
  have hclosed : ∀ t ∈ targets, t.occurrences = [] := by decide
  have h : (a.match? model .structural .empty targets).isSome = true := rfl
  exact ⟨hrefl, hsymm, htrans, ha, hb, hadefaults, hbdefaults, hdeclared, hpacks, htypes, hcompare,
    hnormal, hclosed, h, match?_of_aFromB hrefl hsymm htrans ha hb hadefaults hbdefaults hdeclared
      hpacks htypes {} {} hcompare hnormal hclosed h⟩

/-! ### Patterns with packs -/

/-- No parameter that `b` mentions inside an expansion, the pack of `b` apart, was bound to a term
with the placeholder of a pack of `a`. -/
def Pattern.KeepsPacksApart (model : TypeModel) (a b : Pattern) : Prop :=
  ∀ τ, b.match? model .structural .empty (a.image model) = some τ →
    ∀ inner ∈ Term.expansionsList b.args, ∀ id ∈ inner.occurrences, ∀ u,
      τ.get? id = some (.single u) → ∀ pack ∈ u.thaw.occurrences, a.isPack model pack = false

namespace Registry

/-- **Between partial specializations over types, the more specialized one takes a subset,** where
the comparison has kept the packs of the one apart from the other parameters of the other. -/
theorem Reachable.partial_subset {r : Registry} (h : r.Reachable) {table : AliasTable}
    (hmodel : r.declarations.model = table.model) {i j of : PatternId} {a b : Pattern}
    (ha : r.declarations.pattern? i = some a) (hb : r.declarations.pattern? j = some b)
    (harole : a.role = .partialOf of) (hbrole : b.role = .partialOf of)
    (htypes : ∀ q ∈ a.parameters ++ b.parameters, q.kind = .type)
    (hafree : a.PlaceholderFree) (hbfree : b.PlaceholderFree)
    (haoffsets : Term.offsetsList a.args = []) (hboffsets : Term.offsetsList b.args = [])
    {supply : PlaceholderSupply} {found : Comparison}
    (hfound : (((r.declarations.comparator .classLike).compare a b).run supply).1 = found)
    (hspecificity : found.specificity = .aMoreSpecific) (hbasis : found.basis = .deduction)
    (hapart : a.KeepsPacksApart table.model b)
    {targets : List Term} (hnormal : ∀ t ∈ targets, t.isNormal = true)
    (hclosed : ∀ t ∈ targets, t.occurrences = [])
    (hmatch : (a.match? table.model .structural .empty targets).isSome = true) :
    (b.match? table.model .structural .empty targets).isSome = true := by
  obtain ⟨haparameters, hadefaults, -⟩ := h.partial_inv ha harole
  obtain ⟨-, hbdefaults, -⟩ := h.partial_inv hb hbrole
  rw [hmodel] at haparameters
  have hunique : ∀ i j, a.isPack table.model i = true → a.isPack table.model j = true → i = j :=
    fun _ _ => Pattern.isPack_unique haparameters
  have hvalues : ∀ q ∈ b.parameters, table.model.argumentKind q = .value → q.valueType = none := by
    intro q hq hkind
    have hq' : q.kind = .value := by
      rw [TypeModel.argumentKind] at hkind
      split at hkind
      · exact hkind
      · exact hkind
    rw [htypes q (List.mem_append_right _ hq)] at hq'
    exact ParamKind.noConfusion hq'
  have hcomparator : r.declarations.comparator .classLike = ⟨table.model, {}, .classLike⟩ := by
    rw [Declarations.comparator, hmodel]
  rw [hcomparator] at hfound
  have haFromB := Comparator.aFromB_of_deduction hfound hspecificity hbasis
  rw [← hfound] at haFromB
  obtain ⟨τ, hτ⟩ := Pattern.exists_match_image hafree hbfree haFromB
  exact Pattern.takes_of_image table.sameLeaf_refl (fun _ _ => table.sameLeaf_symm)
    (fun _ _ _ => table.sameLeaf_trans) hafree hbfree hadefaults hbdefaults hvalues hunique
    (.inl ⟨haoffsets, hboffsets⟩) hτ (hapart τ hτ) (fun t ht => ⟨hnormal t ht, hclosed t ht⟩) hmatch

/-- `X<T, Pair<T, Us>...>` takes `(int, Pair<int, char*>, Pair<int, bool*>)`, since it takes all
that `X<int, Pair<int, Ts*>...>` takes: in the comparison `T` was bound to `int`. -/
theorem Reachable.partial_subset_pairs :
    let model := AliasTable.empty.model
    let pair (x y : Term) := Term.apply (.template "Pair") [x, y]
    let x := Pattern.primary "X" [{ name := "Ts", kind := .type, pack := true }]
    let a := Pattern.partialOf "X" 0 [{ name := "Ts", kind := .type, pack := true }]
      [.type "int", .expansion (pair (.type "int") (.pointer (.param 0)))]
    let b := Pattern.partialOf "X" 0
      [{ name := "T", kind := .type }, { name := "Us", kind := .type, pack := true }]
      [.param 0, .expansion (pair (.param 0) (.param 1))]
    let d := [x, a, b].foldl Declarations.record Registry.standard.declarations
    let targets := [.type "int", pair (.type "int") (.pointer (.type "char")),
      pair (.type "int") (.pointer (.type "bool"))]
    let found := (((d.comparator .classLike).compare a b).run {}).1
    Registry.Reachable { declarations := d } ∧ d.model = model ∧ d.pattern? 1 = some a ∧
      d.pattern? 2 = some b ∧ a.role = .partialOf 0 ∧ b.role = .partialOf 0 ∧
      (∀ q ∈ a.parameters ++ b.parameters, q.kind = .type) ∧
      a.PlaceholderFree ∧ b.PlaceholderFree ∧ Term.offsetsList a.args = [] ∧
      Term.offsetsList b.args = [] ∧ found.specificity = .aMoreSpecific ∧
      found.basis = .deduction ∧ a.KeepsPacksApart model b ∧
      (∀ t ∈ targets, t.isNormal = true) ∧ (∀ t ∈ targets, t.occurrences = []) ∧
      (a.match? model .structural .empty targets).isSome = true ∧
      (b.match? model .structural .empty targets).isSome = true := by
  intro model pair x a b d targets found
  have haccepted : Registry.standard.registerAll [x, a, b] = .ok { declarations := d } := rfl
  have hr : Registry.Reachable { declarations := d } :=
    Registry.Reachable.registerAll (.empty AliasTable.empty.model) haccepted
  have ha : d.pattern? 1 = some a := rfl
  have hb : d.pattern? 2 = some b := rfl
  have harole : a.role = .partialOf 0 := rfl
  have htypes : ∀ q ∈ a.parameters ++ b.parameters, q.kind = .type := by decide
  have hafree : a.PlaceholderFree := by decide
  have hbfree : b.PlaceholderFree := by decide
  have hspecificity : found.specificity = .aMoreSpecific := rfl
  have hbasis : found.basis = .deduction := rfl
  have hapart : a.KeepsPacksApart model b := by
    let σ := (Substitution.empty.insert 0 (.single (.type "int"))).insert 1
      (.pack [.expansion (.pointer (.placeholder ⟨0, .type⟩))])
    have himage : b.match? model .structural .empty (a.image model) = some σ := rfl
    intro τ hτ inner hinner id hid u hu
    obtain rfl := Option.some.inj (himage.symm.trans hτ)
    obtain rfl := List.mem_singleton.mp hinner
    have hid' : id = 0 ∨ id = 1 := by simpa [pair, Term.occurrences, Term.occurrencesList] using hid
    rcases hid' with rfl | rfl
    · obtain rfl := Binding.single.inj (Option.some.inj hu)
      exact fun pack hpack => absurd hpack List.not_mem_nil
    · exact Binding.noConfusion (Option.some.inj hu)
  have hnormal : ∀ t ∈ targets, t.isNormal = true := by decide
  have hclosed : ∀ t ∈ targets, t.occurrences = [] := by decide
  have hmatch : (a.match? model .structural .empty targets).isSome = true := rfl
  exact ⟨hr, rfl, ha, hb, harole, rfl, htypes, hafree, hbfree, rfl, rfl, hspecificity, hbasis,
    hapart, hnormal, hclosed, hmatch, Reachable.partial_subset hr rfl ha hb harole rfl htypes
      hafree hbfree rfl rfl rfl hspecificity hbasis hapart hnormal hclosed hmatch⟩

/-- The condition is needed.  `X<Pair<T, Us>...>` is found to reproduce `X<Pair<Ts, int>...>`, with
`T` bound to the placeholder of `Ts`, but `T` cannot be both `char` and `bool`. -/
example :
    let model := AliasTable.empty.model
    let pair (x y : Term) := Term.apply (.template "Pair") [x, y]
    let a := Pattern.partialOf "X" 0 [{ name := "Ts", kind := .type, pack := true }]
      [.expansion (pair (.param 0) (.type "int"))]
    let b := Pattern.partialOf "X" 0
      [{ name := "T", kind := .type }, { name := "Us", kind := .type, pack := true }]
      [.expansion (pair (.param 0) (.param 1))]
    let targets := [pair (.type "char") (.type "int"), pair (.type "bool") (.type "int")]
    let found := (((Comparator.mk model {} .classLike).compare a b).run {}).1
    found.specificity = .aMoreSpecific ∧ found.basis = .deduction ∧
      (a.match? model .structural .empty targets).isSome = true ∧
      b.match? model .structural .empty targets = none :=
  ⟨rfl, rfl, rfl, rfl⟩

end Registry

end TemplateResolution
