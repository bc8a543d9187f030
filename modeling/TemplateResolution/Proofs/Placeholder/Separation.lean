import TemplateResolution.Proofs.Pattern.Seeding
import TemplateResolution.Proofs.Specificity.Image

/-!
# Placeholders tell argument lists apart

The orders of a family rest on images, so two argument lists that differ must have images that
differ.  They do, because an image can be read back: `thaw` turns every placeholder into its
parameter again, and what comes out is the list as it is built, its decorations merged and its
offsets computed (`thaw_apply`).  On reduced terms there is nothing to merge or to compute, so the
list itself comes out.  It does not matter where packs and expansions stand in it: a pack is one
expansion under placeholders, and outside expansions it stays the parameter that it is.

Nor does it matter how many placeholders the supply has issued before.  Whatever is asked of it,
the placeholders that it issues are numbered consecutively (`issueAll_run`), and so no two of them
are the same.
-/

namespace TemplateResolution

/-! ### Reading back -/

namespace Substitution

/-- What is bound are placeholders with the numbers of their parameters, one to each. -/
def StandsIn (σ : Substitution) : Prop :=
  ∀ id b, σ.get? id = some b → ∃ kind,
    b = .single (.placeholder ⟨id, kind⟩) ∨ b = .pack [.expansion (.placeholder ⟨id, kind⟩)]

variable {σ : Substitution}

/-- A pack that is bound to a placeholder has one element, and that is seen as the placeholder. -/
theorem StandsIn.exists_element (hσ : σ.StandsIn) {pack : ParamId} {us : List Term}
    (h : σ.get? pack = some (.pack us)) :
    ∃ u, us = [.expansion u] ∧ (σ.atElement pack (.expansion u)).StandsIn := by
  obtain ⟨kind, heq | heq⟩ := hσ pack _ h
  · exact Binding.noConfusion heq
  · refine ⟨_, Binding.pack.inj heq, fun id b hb => ?_⟩
    rw [atElement, get?_insert] at hb
    split at hb
    · rename_i hid
      subst hid
      exact ⟨kind, .inl (Option.some.inj hb).symm⟩
    · exact hσ id b hb

mutual

/-- **A term is read back as it is built,** if it has no placeholders of its own. -/
theorem thaw_apply : ∀ (t : Term) {σ : Substitution}, σ.StandsIn → t.PlaceholderFree →
    (apply t σ).thaw = apply t .empty
  | .param id, σ, hσ, _ => by
    rw [apply, apply, atParam]
    split
    · rename_i u hu
      obtain ⟨kind, heq | heq⟩ := hσ id _ hu
      · obtain rfl := Binding.single.inj heq
        rfl
      · exact Binding.noConfusion heq
    · rfl
  | .placeholder _, _, _, hfree => absurd hfree (List.cons_ne_nil _ _)
  | .type _, _, _, _ | .value _ _, _, _, _ | .template _, _, _, _ => rfl
  | .apply head args, _, hσ, hfree => by
    obtain ⟨hhead, hargs⟩ := List.append_eq_nil_iff.mp hfree
    rw [apply, apply, Term.thaw, thaw_apply head hσ hhead, thawList_applyList args hσ hargs]
  | .pointer inner, _, hσ, hfree | .expansion inner, _, hσ, hfree => by
    rw [apply, apply, Term.thaw, thaw_apply inner hσ hfree]
  | .qualified quals inner, _, hσ, hfree => by
    rw [apply, apply, Term.thaw_qualify, thaw_apply inner hσ hfree]
  | .reference kind inner, _, hσ, hfree => by
    rw [apply, apply, Term.thaw_refer, thaw_apply inner hσ hfree]
  | .offset base delta, _, hσ, hfree => by
    rw [apply, apply, Term.thaw_plus, thaw_apply base hσ hfree]

theorem thawList_applyList : ∀ (ts : List Term) {σ : Substitution}, σ.StandsIn →
    Term.placeholdersList ts = [] → Term.thawList (applyList ts σ) = applyList ts .empty
  | [], _, _, _ => rfl
  | t :: ts, σ, hσ, hfree => by
    obtain ⟨ht, hts⟩ := List.append_eq_nil_iff.mp hfree
    have hrest := thawList_applyList ts hσ hts
    rw [packFree_empty.applyList_cons]
    by_cases hexp : t.isExpansion = true
    · obtain ⟨inner, rfl⟩ := Term.exists_of_isExpansion hexp
      rw [applyList]
      rcases hbound : σ.boundPack inner with _ | ⟨pack, us⟩
      · have hinner := thaw_apply inner hσ ht
        dsimp only
        rw [Term.thawList, Term.thaw, hinner, hrest]
        rfl
      · -- the pack has one element, so that the expansion stays one term
        obtain ⟨u, rfl, helement⟩ := hσ.exists_element (boundPack_inv hbound).2
        have hinner := thaw_apply inner helement ht
        change Term.thawList (.expansion (apply inner (σ.atElement pack (.expansion u))) ::
          applyList ts σ) = _
        rw [Term.thawList, Term.thaw, hinner, hrest]
        rfl
    · rw [Bool.not_eq_true] at hexp
      rw [applyList_cons hexp, Term.thawList, thaw_apply t hσ ht, hrest]

end

end Substitution

theorem Term.rename_injective {f : Nat → Nat} (hf : Function.Injective f) :
    Function.Injective (Term.rename f) := by
  intro t u h
  rw [← Term.same_beq_iff, ← Term.same_rename hf, Term.same_beq_iff]
  exact h

namespace PlaceholderSupply

theorem standsIn_frozen (model : TypeModel) (parameters : List Parameter) :
    (frozen model parameters).StandsIn := by
  intro id b hb
  obtain ⟨q, -, ⟨-, rfl⟩ | ⟨-, rfl⟩⟩ := exists_of_get?_frozen hb
  · exact ⟨_, .inl rfl⟩
  · exact ⟨_, .inr rfl⟩

/-- A supply that has issued placeholders before binds what a new one binds, renamed. -/
theorem fresh_run (model : TypeModel) (p : Pattern) (supply : PlaceholderSupply) :
    (fresh model p).run supply =
      ((frozen model p.parameters).rename (· + supply.issued),
        ⟨supply.issued + p.parameters.length⟩) := by
  obtain ⟨k⟩ := supply
  have hshift := bindFrom_shift model k p.parameters 0 .empty 0
  rwa [Substitution.rename_empty, Nat.zero_add] at hshift

/-- The instance under the placeholders of any supply. -/
theorem substList_fresh (model : TypeModel) (p : Pattern) (supply : PlaceholderSupply)
    {ts : List Term} (hts : ∀ t ∈ ts, t.PlaceholderFree) :
    Term.substList ((fresh model p).run supply).1 ts =
      (Term.substList (frozen model p.parameters) ts).map (Term.rename (· + supply.issued)) := by
  have happly := Substitution.applyList_rename (f := (· + supply.issued)) ts
    (frozen model p.parameters)
  rw [Term.renameList_eq_map, Term.renameList_eq_map,
    Term.map_rename_of_placeholderFree hts] at happly
  rw [fresh_run]
  exact happly

theorem map_thaw_substList_frozen (model : TypeModel) (parameters : List Parameter)
    {ts : List Term} (hts : ∀ t ∈ ts, t.PlaceholderFree) :
    (Term.substList (frozen model parameters) ts).map Term.thaw = ts.map (Term.subst .empty) := by
  rw [← Term.thawList_eq_map, ← Substitution.packFree_empty.substList]
  exact Substitution.thawList_applyList ts (standsIn_frozen model parameters)
    (Term.placeholdersList_eq_nil.mpr hts)

theorem length_substList_fresh (model : TypeModel) (p : Pattern) (supply : PlaceholderSupply)
    {ts : List Term} (hts : ∀ t ∈ ts, t.PlaceholderFree) :
    (Term.substList ((fresh model p).run supply).1 ts).length = ts.length := by
  have hthaw := congrArg List.length (map_thaw_substList_frozen model p.parameters hts)
  rw [List.length_map, List.length_map] at hthaw
  rw [substList_fresh model p supply hts, List.length_map, hthaw]

/-- Lists are confused only if they are built alike. -/
theorem map_subst_empty_of_substList_fresh {model : TypeModel} {p : Pattern}
    {supply : PlaceholderSupply}
    {ts us : List Term} (hts : ∀ t ∈ ts, t.PlaceholderFree) (hus : ∀ u ∈ us, u.PlaceholderFree)
    (h : Term.substList ((fresh model p).run supply).1 ts =
      Term.substList ((fresh model p).run supply).1 us) :
    ts.map (Term.subst .empty) = us.map (Term.subst .empty) := by
  have hinj : Function.Injective (· + supply.issued) := fun i j h => Nat.add_right_cancel h
  rw [substList_fresh model p supply hts, substList_fresh model p supply hus] at h
  have hfrozen := List.map_injective_iff.mpr (Term.rename_injective hinj) h
  rw [← map_thaw_substList_frozen model p.parameters hts,
    ← map_thaw_substList_frozen model p.parameters hus, hfrozen]

end PlaceholderSupply

/-! ### Everything a supply is asked for -/

namespace Substitution

variable {σ : Substitution} {id : ParamId}

/-- Every placeholder that is bound, in the order of the bindings. -/
def placeholders (σ : Substitution) : List Placeholder :=
  σ.bindings.flatMap fun entry => Term.placeholdersList entry.2.terms

theorem ids_insert_of_notMem (h : id ∉ σ.ids) (b : Binding) :
    (σ.insert id b).ids = σ.ids ++ [id] := by
  rw [ids, insert, insertInto_of_notMem h, List.map_append]
  rfl

theorem placeholders_insert_of_notMem (h : id ∉ σ.ids) (b : Binding) :
    (σ.insert id b).placeholders = σ.placeholders ++ Term.placeholdersList b.terms := by
  rw [placeholders, insert, insertInto_of_notMem h, List.flatMap_append, List.flatMap_singleton]
  rfl

end Substitution

namespace PlaceholderSupply

/-- A request is for one placeholder, or for one for each parameter of a pattern. -/
inductive Request where
  | one (kind : ParamKind)
  | each (model : TypeModel) (p : Pattern)

/-- The placeholders that a request uses up. -/
def issue : Request → StateM PlaceholderSupply (List Placeholder)
  | .one kind => do return [← next kind]
  | .each model p => do return (← fresh model p).placeholders

/-- The placeholders that are used up by one request after the other. -/
def issueAll : List Request → StateM PlaceholderSupply (List Placeholder)
  | [] => pure []
  | request :: requests => do
    let tokens ← issue request
    return tokens ++ (← issueAll requests)

theorem placeholdersList_bindingFor (model : TypeModel) (q : Parameter) (token : Placeholder) :
    Term.placeholdersList (bindingFor model q token).terms = [token] := by
  rw [bindingFor]
  split <;> rfl

theorem placeholders_bindFrom (model : TypeModel) (ps : List Parameter) :
    ∀ (id : ParamId) (σ : Substitution) (n : Nat), (∀ j ∈ σ.ids, j < id) →
      ((bindFrom model id ps σ).run ⟨n⟩).1.placeholders.map (·.id) =
        σ.placeholders.map (·.id) ++ List.range' n ps.length := by
  induction ps with
  | nil => exact fun _ σ _ _ => (List.append_nil _).symm
  | cons p ps ih =>
    intro id σ n hids
    have hnew : id ∉ σ.ids := fun hid => Nat.lt_irrefl id (hids id hid)
    have hbelow : ∀ j ∈ (σ.insert id (bindingFor model p ⟨n, model.argumentKind p⟩)).ids,
        j < id + 1 := by
      intro j hj
      rw [Substitution.ids_insert_of_notMem hnew] at hj
      rcases List.mem_append.mp hj with hj | hj
      · exact Nat.lt_succ_of_lt (hids j hj)
      · obtain rfl := List.mem_singleton.mp hj
        exact Nat.lt_succ_self j
    rw [bindFrom_cons, ih (id + 1) _ (n + 1) hbelow,
      Substitution.placeholders_insert_of_notMem hnew, placeholdersList_bindingFor,
      List.map_append, List.append_assoc, List.length_cons, List.range'_succ]
    rfl

/-- **One request is answered with the next numbers.** -/
theorem issue_run (request : Request) (supply : PlaceholderSupply) :
    ((issue request).run supply).1.map (·.id) =
        List.range' supply.issued ((issue request).run supply).1.length ∧
      ((issue request).run supply).2.issued =
        supply.issued + ((issue request).run supply).1.length := by
  obtain ⟨n⟩ := supply
  cases request with
  | one kind => exact ⟨rfl, rfl⟩
  | each model p =>
    have hids : ((issue (.each model p)).run ⟨n⟩).1.map (·.id) =
        List.range' n p.parameters.length :=
      placeholders_bindFrom model p.parameters 0 .empty n fun _ hj => absurd hj List.not_mem_nil
    have hlength : ((issue (.each model p)).run ⟨n⟩).1.length = p.parameters.length := by
      rw [← List.length_map (f := (·.id)), hids, List.length_range']
    rw [hlength]
    exact ⟨hids, congrArg (·.2.issued) (fresh_run model p ⟨n⟩)⟩

/-- **So is one request after the other.** -/
theorem issueAll_run (requests : List Request) : ∀ supply : PlaceholderSupply,
    ((issueAll requests).run supply).1.map (·.id) =
      List.range' supply.issued ((issueAll requests).run supply).1.length := by
  induction requests with
  | nil => exact fun _ => rfl
  | cons request requests ih =>
    intro supply
    obtain ⟨hids, hissued⟩ := issue_run request supply
    have hrest := ih ((issue request).run supply).2
    have hrun : ((issueAll (request :: requests)).run supply).1 =
        ((issue request).run supply).1 ++
          ((issueAll requests).run ((issue request).run supply).2).1 := rfl
    rw [hissued] at hrest
    rw [hrun, List.map_append, hids, hrest, List.length_append, List.range'_append_1]

theorem issueAll_nodup (requests : List Request) (supply : PlaceholderSupply) :
    ((issueAll requests).run supply).1.Nodup := by
  refine List.Nodup.of_map (·.id) ?_
  rw [issueAll_run]
  exact List.nodup_range'

/-- **Placeholders tell argument lists apart.**  Whatever a supply has issued before, the
placeholders that it gives for the parameters of a pattern make different lists of reduced terms
different, item by item; and it never issues a placeholder twice. -/
theorem fresh_tells_apart (model : TypeModel) (p : Pattern) (supply : PlaceholderSupply) :
    let σ := ((fresh model p).run supply).1
    (∀ ts us : List Term, (∀ t ∈ ts, t.IsReduced ∧ t.PlaceholderFree) →
      (∀ u ∈ us, u.IsReduced ∧ u.PlaceholderFree) →
      (Term.substList σ ts = Term.substList σ us ↔ ts = us)) ∧
    (∀ ts : List Term, (∀ t ∈ ts, t.PlaceholderFree) →
      (Term.substList σ ts).length = ts.length) ∧
    ∀ requests, ((issueAll requests).run supply).1.Nodup := by
  refine ⟨fun ts us hts hus => ⟨fun h => ?_, congrArg _⟩,
    fun ts hts => length_substList_fresh model p supply hts,
    fun requests => issueAll_nodup requests supply⟩
  have hbuilt := map_subst_empty_of_substList_fresh (fun t ht => (hts t ht).2)
    (fun u hu => (hus u hu).2) h
  have hself : ∀ vs : List Term, (∀ v ∈ vs, v.IsReduced ∧ v.PlaceholderFree) →
      vs.map (Term.subst .empty) = vs := fun vs hvs =>
    (List.map_congr_left fun v hv => (hvs v hv).1.subst_empty).trans (List.map_id' vs)
  rwa [hself ts hts, hself us hus] at hbuilt

/-- With five placeholders issued, `const T, Tuple<Pair<Ts, Tuple<Ts...>>..., T&>` and the same with
`T&&` become different lists of two terms; the pack is one placeholder, outside the inner expansion
and inside of it. -/
theorem fresh_tells_apart_nested :
    let model := AliasTable.empty.model
    let p := Pattern.primary "X" [{ name := "T", kind := .type },
      { name := "Ts", kind := .type, pack := true }]
    let σ := ((fresh model p).run ⟨5⟩).1
    let pairs : Term → Term → Term := fun u v =>
      .expansion (.apply (.template "Pair") [u, .apply (.template "Tuple") [.expansion v]])
    let ts : RefKind → List Term := fun kind => [.qualified .const (.param 0),
      .apply (.template "Tuple") [pairs (.param 1) (.param 1), .reference kind (.param 0)]]
    (∀ kind, ∀ t ∈ ts kind, t.IsReduced ∧ t.PlaceholderFree) ∧
      Term.substList σ (ts .lvalue) = [.qualified .const (.placeholder ⟨5, .type⟩),
        .apply (.template "Tuple") [pairs (.placeholder ⟨6, .type⟩) (.placeholder ⟨6, .type⟩),
          .reference .lvalue (.placeholder ⟨5, .type⟩)]] ∧
      Term.substList σ (ts .lvalue) ≠ Term.substList σ (ts .rvalue) ∧
      (Term.substList σ (ts .lvalue)).length = 2 ∧
      ((issueAll [.each model p, .one .value, .each model p]).run ⟨5⟩).1.Nodup := by
  intro model p σ pairs ts
  obtain ⟨happart, hlength, hnodup⟩ := fresh_tells_apart model p ⟨5⟩
  have hts : ∀ kind, ∀ t ∈ ts kind, t.IsReduced ∧ t.PlaceholderFree := by
    rintro (_ | _) <;> decide
  have hne : ts .lvalue ≠ ts .rvalue := by decide
  exact ⟨hts, rfl, mt (happart _ _ (hts _) (hts _)).mp hne,
    hlength _ fun t ht => (hts _ t ht).2, hnodup _⟩

end PlaceholderSupply

end TemplateResolution
