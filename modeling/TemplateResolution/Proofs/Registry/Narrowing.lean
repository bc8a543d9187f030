import TemplateResolution.Proofs.Matching.Primary
import TemplateResolution.Proofs.Registry.Accepted
import TemplateResolution.Proofs.Specificity.Image

/-!
# Partial specializations narrow their primary

Registration accepts a partial specialization if its primary takes its image.  A primary
asks for nothing but the kinds of the arguments and the types of constants, and what
a pattern takes is of the kinds of its image (`kinds_of_readList`).  So whatever a
partial specialization takes is taken by the primary too, if the constants in it are of
the types that the primary declares (`partial_narrows`).

The types have to be asked for, since a placeholder for a constant has none; and a
partial specialization that was accepted by the pack rule alone is not narrower at all.
-/

namespace TemplateResolution

namespace Term

variable {kind : ParamKind} {s t : Term}

theorem isTypeLike_refer (k : RefKind) (t : Term) : (t.refer k).isTypeLike = true := by
  cases t <;> rfl

/-- With qualifiers, a term is a type. -/
theorem isTypeLike_qualify {quals : Qualifiers} (hquals : quals.isEmpty = false) (t : Term) :
    (t.qualify quals).isTypeLike = true := by
  cases t with
  | qualified existing inner =>
    rw [qualify_qualified hquals]
    rfl
  | reference k inner =>
    rw [qualify_reference]
    rfl
  | _ =>
    rw [qualify_eq_of_plain rfl rfl hquals]
    rfl

theorem eq_type_of_admits (ht : t.isTypeLike = true) (h : kind.admits t = true) :
    kind = .type := by
  cases kind with
  | type => rfl
  | value => cases t <;> simp_all [ParamKind.admits, isTypeLike]
  | nested => cases t <;> simp_all [ParamKind.admits, isTypeLike]

/-- A type is of no kind but one, so any two types are of the same kinds. -/
theorem kinds_of_isTypeLike (hs : s.isTypeLike = true) (ht : t.isTypeLike = true) :
    s.isExpansion = false ∧
      ∀ kind : ParamKind, kind.admits s = true → kind.admits t = true := by
  have htype : ParamKind.type.admits s = true := hs
  refine ⟨isExpansion_of_admits htype, fun kind hkind => ?_⟩
  rw [eq_type_of_admits hs hkind]
  exact ht

/-! ### Lists of the kinds of others -/

/-- Every term of the second list is of the kinds of the term at its place in the first, where an
expansion stands for any number of terms. -/
inductive KeepsKinds : List Term → List Term → Prop
  | nil : KeepsKinds [] []
  | cons {s t : Term} {ss ts : List Term} (hs : s.isExpansion = false)
      (hkinds : ∀ kind : ParamKind, kind.admits s = true → kind.admits t = true)
      (hrest : KeepsKinds ss ts) : KeepsKinds (s :: ss) (t :: ts)
  | block {s : Term} {block ss ts : List Term}
      (hkinds : ∀ t ∈ block, ∀ kind : ParamKind, kind.admits s = true →
        kind.admits t.expanded = true)
      (hrest : KeepsKinds ss ts) : KeepsKinds (expansion s :: ss) (block ++ ts)

variable {ss ts : List Term}

theorem KeepsKinds.admits_all (h : KeepsKinds ss ts)
    (hss : ∀ s ∈ ss, kind.admits s.expanded = true) : ∀ t ∈ ts, kind.admits t.expanded = true := by
  induction h with
  | nil => exact fun t ht => absurd ht List.not_mem_nil
  | @cons s t ss ts hs hkinds _ ih =>
    obtain ⟨hhead, htail⟩ := List.forall_mem_cons.mp hss
    rw [expanded_eq_self hs] at hhead
    have ht := hkinds kind hhead
    refine List.forall_mem_cons.mpr ⟨?_, ih htail⟩
    rwa [expanded_eq_self (isExpansion_of_admits ht)]
  | @block s block ss ts hkinds _ ih =>
    obtain ⟨hhead, htail⟩ := List.forall_mem_cons.mp hss
    intro t ht
    rcases List.mem_append.mp ht with ht | ht
    · exact hkinds t ht kind hhead
    · exact ih htail t ht

/-- Parameters that meet a list in kind meet every list of its kinds. -/
theorem KeepsKinds.eachMeets {model : TypeModel} (qs : List Parameter) :
    ∀ {ss ts : List Term}, KeepsKinds ss ts →
      Parameter.eachMeets model (fun q s => (model.argumentKind q).admits s) qs ss = true →
      Parameter.eachMeets model (fun q t => (model.argumentKind q).admits t) qs ts = true := by
  induction qs with
  | nil =>
    intro ss ts h hmeets
    obtain rfl := List.isEmpty_iff.mp hmeets
    cases h
    rfl
  | cons q qs ih =>
    intro ss ts h hmeets
    cases hpack : model.isPack q with
    | true =>
      rw [Parameter.eachMeets_pack hpack, Bool.and_eq_true] at hmeets ⊢
      have hall := h.admits_all (List.all_eq_true.mp hmeets.1)
      exact ⟨List.all_eq_true.mpr hall, hmeets.2⟩
    | false =>
      cases h with
      | nil =>
        rw [Parameter.eachMeets_cons_nil hpack] at hmeets
        exact Bool.noConfusion hmeets
      | cons hs hkinds hrest =>
        rw [Parameter.eachMeets_cons hpack, Bool.and_eq_true] at hmeets ⊢
        exact ⟨hkinds _ hmeets.1, ih hrest hmeets.2⟩
      | block hkinds hrest =>
        rw [Parameter.eachMeets_cons hpack, Bool.and_eq_true] at hmeets
        exact Bool.noConfusion (isExpansion_of_admits hmeets.1)

end Term

namespace Matching

variable {m : Matching} {σ : Substitution} {leaf : String → String → Bool}

/-- What a pattern takes is of every kind of which the pattern with placeholders is. -/
theorem kinds_of_read (hmode : m.mode = .structural) {k : Nat} {inside : Bool}
    {g w : Substitution} (hg : m.Freezes σ inside g w) :
    ∀ (a t : Term) (xs : List Finding), t.isNormal = true → m.read a t k = some xs →
      (∀ f ∈ xs, f.HoldsFrom m leaf σ w inside) →
      (a.subst g).isExpansion = false ∧
        ∀ kind : ParamKind, kind.admits (a.subst g) = true → kind.admits t = true
  | .param id, t, xs, _, h, hholds => by
    obtain rfl := Option.some.inj h
    obtain ⟨haccepts, u, hu, -⟩ := hholds _ (List.mem_singleton_self _)
    obtain ⟨q, hq, hacc⟩ := (Option.any_eq_true _ _).mp haccepts
    rw [Term.subst, Substitution.apply, Substitution.atParam, hg.single id q u hq hu]
    refine ⟨rfl, fun kind hkind => ?_⟩
    rw [Term.eq_of_admits_placeholder hkind]
    exact m.model.admits_of_accepts hacc
  | .offset base delta, t, xs, _, h, hholds => by
    obtain rfl := Option.some.inj h
    have hsame : ((base.subst σ).plus delta).same leaf t = true :=
      hholds _ (List.mem_singleton_self _)
    refine ⟨Term.isExpansion_plus _ delta, fun kind hkind => ?_⟩
    rw [Term.eq_value_of_admits_plus hkind, ← Term.admits_eq_of_same hsame]
    exact Term.admits_plus _ delta
  | .qualified quals inner, t, xs, ht, h, hholds => by
    rw [read_qualified hmode] at h
    split at h
    · rename_i hincludes
      cases hempty : quals.isEmpty with
      | true =>
        have hinner := kinds_of_read hmode hg inner (t.withoutQuals quals) xs
          (Term.isNormal_withoutQuals ht quals) h hholds
        obtain rfl := Qualifiers.isEmpty_iff.mp hempty
        rwa [Term.withoutQuals_none ht] at hinner
      | false =>
        have ht := Term.isTypeLike_of_quals (Term.isEmpty_of_includes hincludes hempty)
        exact Term.kinds_of_isTypeLike (Term.isTypeLike_qualify hempty _) ht
    · exact absurd h (Option.some_ne_none xs).symm
  | .reference k inner, t, xs, _, h, _ => by
    cases t <;> simp only [read, reduceCtorEq] at h
    exact Term.kinds_of_isTypeLike (Term.isTypeLike_refer k (inner.subst g)) rfl
  | .placeholder _, t, xs, _, h, _ => by
    cases t <;> simp only [read, reduceCtorEq] at h
    split at h
    · rename_i heq
      rw [heq]
      exact ⟨rfl, fun kind hkind => hkind⟩
    · exact absurd h (Option.some_ne_none xs).symm
  | .expansion inner, t, xs, _, h, _ => by cases t <;> simp [read] at h
  | .type _, t, xs, _, h, _ | .pointer _, t, xs, _, h, _ | .apply _ _, t, xs, _, h, _ => by
    cases t <;> simp only [read, reduceCtorEq] at h
    exact Term.kinds_of_isTypeLike rfl rfl
  | .template _, t, xs, _, h, _ | .value _ _, t, xs, _, h, _ => by
    cases t <;> simp only [read, reduceCtorEq] at h
    exact ⟨rfl, fun kind hkind => by cases kind <;> exact hkind⟩

/-- **What a pattern takes keeps the kinds of the pattern with placeholders.** -/
theorem kinds_of_readList (hmode : m.mode = .structural) (hσ : m.Suits σ) {k : Nat}
    {as : List Term} : ∀ {ts : List Term} {xs : List Finding}, (∀ t ∈ ts, t.isNormal = true) →
      m.readList as ts k = some xs → (∀ f ∈ xs, f.HoldsFrom m leaf σ σ false) →
      Term.KeepsKinds (Term.substList (PlaceholderSupply.frozen m.model m.parameters) as) ts := by
  induction as with
  | nil =>
    intro ts xs _ h _
    cases ts with
    | nil => exact .nil
    | cons t ts => exact absurd h (Option.some_ne_none xs).symm
  | cons a as ih =>
    intro ts xs hts h hholds
    by_cases hexp : a.isExpansion = true
    · obtain ⟨inner, rfl⟩ := Term.exists_of_isExpansion hexp
      obtain ⟨pack, found, ys, hpackOf, hread, hys, rfl⟩ := readList_expansion_eq_some.mp h
      obtain ⟨⟨-, es, -, helements⟩, htail⟩ := List.forall_mem_cons.mp hholds
      obtain ⟨q, hq, hisPack⟩ := exists_parameter (List.find?_some hpackOf)
      have hblock : ∀ t ∈ ts, ∀ kind : ParamKind,
          kind.admits (inner.subst (m.frozenElement pack q)) = true →
            kind.admits t.expanded = true := by
        intro t ht
        obtain ⟨x, hx, rfl, hi⟩ := (exists_mem_of_forall₂ hread).1 t ht
        obtain ⟨e, -, he⟩ := (exists_mem_of_forall₂ helements).2 x hx
        have hnormal := Term.isNormal_expanded (hts x.1 ht)
        exact (kinds_of_read hmode (hσ.freezes_element hq e) inner _ _ hnormal hi he.holdsFrom).2
      have hrest := ih (fun _ ht => absurd ht List.not_mem_nil) hys htail
      rw [Term.substList_cons, substList_frozen hpackOf hq hisPack, ← List.append_nil ts]
      exact .block hblock hrest
    · rw [Bool.not_eq_true] at hexp
      obtain ⟨t, ts, ys, zs, rfl, hys, hzs, rfl⟩ := (readList_cons_eq_some hexp).mp h
      obtain ⟨hhead, htail⟩ := Finding.holdsFrom_join hholds
      obtain ⟨htnormal, hnormal⟩ := List.forall_mem_cons.mp hts
      have hfirst := kinds_of_read hmode hσ.freezes a t ys htnormal hys hhead
      rw [Term.substList, Substitution.applyList_cons hexp]
      exact .cons hfirst.1 hfirst.2 (ih hnormal hzs htail)

end Matching

/-- What a pattern takes keeps the kinds of its image. -/
theorem Pattern.keepsKinds_image {model : TypeModel} (hrefl : ∀ n, model.sameLeaf n n = true)
    (htrans : ∀ k l n, model.sameLeaf k l = true → model.sameLeaf l n = true →
      model.sameLeaf k n = true)
    {p : Pattern} (hslots : ∀ slot ∈ p.slots, slot.default = none) {targets : List Term}
    (hnormal : ∀ t ∈ targets, t.isNormal = true)
    (h : (p.match? model .structural .empty targets).isSome = true) :
    Term.KeepsKinds (p.image model) targets := by
  obtain ⟨σ, hσ⟩ := Option.isSome_iff_exists.mp h
  obtain ⟨xs, hxs, hholds, hsuits, -⟩ := Matching.exists_reading hrefl htrans hslots hσ
  exact Matching.kinds_of_readList rfl hsuits hnormal hxs fun f hf => (hholds f hf).holdsFrom

namespace Registry

/-- **What a partial specialization takes is taken by its primary, if and only if the constants are
of the types that the primary declares.**  Where a pack has decided the comparison of the two, the
primary has to reproduce the partial specialization nevertheless. -/
theorem Reachable.partial_narrows {r : Registry} (h : r.Reachable) {table : AliasTable}
    (hmodel : r.declarations.model = table.model) {i of : PatternId} {p q : Pattern}
    (hp : r.declarations.pattern? i = some p) (hrole : p.role = .partialOf of)
    (hq : r.declarations.pattern? of = some q)
    (hslots : q.slots = Pattern.primarySlots q.parameters)
    {found : Comparison}
    (hfound : (((r.declarations.comparator .classLike).compare q p).run {}).1 = found)
    (hpack : found.basis = .pack → found.bFromA = true)
    {targets : List Term} (hnormal : ∀ t ∈ targets, t.isNormal = true)
    (hmatch : (p.match? table.model .structural .empty targets).isSome = true) :
    (q.match? table.model .structural .empty targets).isSome = true ↔
      Parameter.eachMeets table.model table.model.typeAgrees q.parameters targets = true := by
  have hpacks : ∀ x ∈ q.parameters, table.model.isPack x = x.pack := fun _ _ => rfl
  obtain ⟨-, hdefaults, q', hq', -, hspecificity⟩ := h.partial_inv hp hrole
  obtain rfl := Option.some.inj (hq.symm.trans hq')
  rw [hfound] at hspecificity
  have hcomparator : r.declarations.comparator .classLike = ⟨table.model, {}, .classLike⟩ := by
    rw [Declarations.comparator, hmodel]
  rw [hcomparator] at hfound
  have hbFromA : found.bFromA = true := by
    by_cases hbasis : found.basis = .pack
    · exact hpack hbasis
    · exact Comparator.bFromA_of_bMoreSpecific hfound hspecificity hbasis
  have himage : (q.match? table.model .structural .empty (p.image table.model)).isSome = true := by
    rw [← hfound] at hbFromA
    exact hbFromA
  have hmeets : ∀ ts, (q.match? table.model .structural .empty ts).isSome =
      (Parameter.eachMeets table.model (fun x t => (table.model.argumentKind x).admits t)
          q.parameters ts &&
        Parameter.eachMeets table.model table.model.typeAgrees q.parameters ts) := by
    intro ts
    rw [Pattern.match?_primary hslots hpacks, ← Parameter.eachMeets_and]
    simp only [← TypeModel.accepts_eq]
  rw [hmeets, Bool.and_eq_true] at himage
  have hkeeps := Pattern.keepsKinds_image table.sameLeaf_refl
    (fun _ _ _ => table.sameLeaf_trans) hdefaults hnormal hmatch
  rw [hmeets, hkeeps.eachMeets q.parameters himage.1, Bool.true_and]

/-- `X<U*, M, const Us...>` takes `(char*, 3, const bool, const char)`, and so does the primary
`X<T, int N, Ts...>`, since `3` is an `int`. -/
theorem Reachable.partial_narrows_pointers :
    let model := AliasTable.empty.model
    let q := Pattern.primary "X" [{ name := "T", kind := .type },
      { name := "N", kind := .value, valueType := some "int" },
      { name := "Ts", kind := .type, pack := true }]
    let p := Pattern.partialOf "X" 0
      [{ name := "U", kind := .type }, { name := "M", kind := .value },
        { name := "Us", kind := .type, pack := true }]
      [.pointer (.param 0), .param 1, .expansion (.qualified .const (.param 2))]
    let d := [q, p].foldl Declarations.record Registry.standard.declarations
    let targets : List Term := [.pointer (.type "char"), .value 3 "int",
      .qualified .const (.type "bool"), .qualified .const (.type "char")]
    let found := (((d.comparator .classLike).compare q p).run {}).1
    Registry.Reachable { declarations := d } ∧ d.model = model ∧ d.pattern? 1 = some p ∧
      p.role = .partialOf 0 ∧ d.pattern? 0 = some q ∧
      q.slots = Pattern.primarySlots q.parameters ∧
      (found.basis = .pack → found.bFromA = true) ∧ (∀ t ∈ targets, t.isNormal = true) ∧
      (p.match? model .structural .empty targets).isSome = true ∧
      ((q.match? model .structural .empty targets).isSome = true ↔
        Parameter.eachMeets model model.typeAgrees q.parameters targets = true) := by
  intro model q p d targets found
  have haccepted : Registry.standard.registerAll [q, p] = .ok { declarations := d } := rfl
  have hr : Registry.Reachable { declarations := d } :=
    Registry.Reachable.registerAll (.empty AliasTable.empty.model) haccepted
  have hp : d.pattern? 1 = some p := rfl
  have hq : d.pattern? 0 = some q := rfl
  have hpack : found.basis = .pack → found.bFromA = true := fun _ => rfl
  have hnormal : ∀ t ∈ targets, t.isNormal = true := by decide
  have hmatch : (p.match? model .structural .empty targets).isSome = true := rfl
  exact ⟨hr, rfl, hp, rfl, hq, rfl, hpack, hnormal, hmatch,
    Reachable.partial_narrows hr rfl hp rfl hq rfl rfl hpack hnormal hmatch⟩

/-- A pack can decide against the primary without cause.  `X<3>` was registered for the primary
`X<typename... Ts>`, which cannot take it. -/
example :
    let model := AliasTable.empty.model
    let q := Pattern.primary "X" [{ name := "Ts", kind := .type, pack := true }]
    let p := Pattern.partialOf "X" 0 [] [.value 3 "int"]
    let d := [q, p].foldl Declarations.record Registry.standard.declarations
    Registry.standard.registerAll [q, p] = .ok { declarations := d } ∧
      (((d.comparator .classLike).compare q p).run {}).1.basis = .pack ∧
      (p.match? model .structural .empty [.value 3 "int"]).isSome = true ∧
      q.match? model .structural .empty [.value 3 "int"] = none :=
  ⟨rfl, rfl, rfl, rfl⟩

end Registry

end TemplateResolution
