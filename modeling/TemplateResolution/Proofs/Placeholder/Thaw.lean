import TemplateResolution.Proofs.Placeholder.Renaming
import TemplateResolution.Proofs.Substitution.Congruence
import TemplateResolution.Proofs.Substitution.PackFree

/-!
# Realizing placeholders

A comparison replaces the parameters of a pattern by placeholders, each with the
number of its parameter.  `thaw` reads every placeholder as that parameter again, and
`realize` puts in its place what a substitution binds the parameter to.

Realizing goes through everything that builds terms.  So what a pattern became under
a substitution with placeholders in it becomes, when it is realized, what the pattern
becomes under the realized substitution (`realize_subst`).
-/

namespace TemplateResolution

namespace Term

mutual

/-- The term with every placeholder read as the parameter of its number. -/
def thaw : Term → Term
  | placeholder token => param token.id
  | apply head args => apply (thaw head) (thawList args)
  | pointer inner => pointer (thaw inner)
  | qualified quals inner => qualified quals (thaw inner)
  | reference kind inner => reference kind (thaw inner)
  | expansion inner => expansion (thaw inner)
  | offset base delta => offset (thaw base) delta
  | param id => param id
  | type name => type name
  | value number ty => value number ty
  | template name => template name

def thawList : List Term → List Term
  | [] => []
  | t :: ts => thaw t :: thawList ts

end

theorem thawList_eq_map (ts : List Term) : thawList ts = ts.map thaw := by
  induction ts with
  | nil => rfl
  | cons t ts ih => rw [thawList, ih, List.map_cons]

@[simp] theorem isExpansion_thaw (t : Term) : t.thaw.isExpansion = t.isExpansion := by
  cases t <;> rfl

@[simp] theorem expandedLike_thaw (t element : Term) :
    (t.expandedLike element).thaw = t.expandedLike element.thaw := by
  cases t <;> rfl

@[simp] theorem thaw_qualify (t : Term) (quals : Qualifiers) :
    (t.qualify quals).thaw = t.thaw.qualify quals := by
  cases hquals : quals.isEmpty with
  | true => rw [qualify_eq_self hquals, qualify_eq_self hquals]
  | false =>
    cases t with
    | qualified existing inner =>
      rw [qualify_qualified hquals, thaw, thaw, qualify_qualified hquals]
    | reference kind inner => rw [qualify_reference, thaw, qualify_reference]
    | _ =>
      rw [qualify_eq_of_plain rfl rfl hquals, thaw, thaw]
      exact (qualify_eq_of_plain rfl rfl hquals).symm

@[simp] theorem thaw_refer (t : Term) (kind : RefKind) :
    (t.refer kind).thaw = t.thaw.refer kind := by
  cases t <;> rfl

@[simp] theorem thaw_plus (t : Term) (delta : Int) : (t.plus delta).thaw = t.thaw.plus delta := by
  cases t with
  | value number ty =>
    rw [thaw, plus]
    split <;> rfl
  | _ => rfl

mutual

theorem same_thaw {leaf : String → String → Bool} :
    ∀ a b : Term, a.same leaf b = true → a.thaw.same leaf b.thaw = true
  | placeholder _, b, h => by
    cases b <;> simp only [same, Bool.false_eq_true, beq_iff_eq] at h
    simp [thaw, same, h]
  | param _, b, h | type _, b, h | value _ _, b, h | template _, b, h => by
    cases b <;> simp only [same, Bool.false_eq_true] at h
    simpa [thaw, same] using h
  | apply head args, b, h => by
    cases b <;> simp only [same, Bool.false_eq_true, Bool.and_eq_true] at h
    simp [thaw, same, same_thaw head _ h.1, sameList_thawList args _ h.2]
  | pointer a, b, h | expansion a, b, h => by
    cases b <;> simp only [same, Bool.false_eq_true] at h
    simp [thaw, same, same_thaw a _ h]
  | qualified _ a, b, h | reference _ a, b, h | offset a _, b, h => by
    cases b <;> simp only [same, Bool.false_eq_true, Bool.and_eq_true, beq_iff_eq] at h
    simp [thaw, same, h.1, same_thaw a _ h.2]

theorem sameList_thawList {leaf : String → String → Bool} :
    ∀ as bs : List Term, sameList leaf as bs = true →
      sameList leaf (thawList as) (thawList bs) = true
  | [], bs, h => by
    cases bs with
    | nil => rfl
    | cons b bs => exact Bool.noConfusion h
  | a :: as, bs, h => by
    cases bs <;> simp only [sameList, Bool.false_eq_true, Bool.and_eq_true] at h
    simp [thawList, sameList, same_thaw a _ h.1, sameList_thawList as _ h.2]

end

/-! ### Realizing -/

/-- What the term stands for when `w` says what the placeholders stand for. -/
def realize (w : Substitution) (t : Term) : Term := t.thaw.subst w

variable {w : Substitution}

@[simp] theorem realize_qualify (t : Term) (quals : Qualifiers) :
    (t.qualify quals).realize w = (t.realize w).qualify quals := by
  rw [realize, thaw_qualify, subst_qualify, realize]

@[simp] theorem realize_refer (t : Term) (kind : RefKind) :
    (t.refer kind).realize w = (t.realize w).refer kind := by
  rw [realize, thaw_refer, subst_refer, realize]

@[simp] theorem realize_plus (t : Term) (delta : Int) :
    (t.plus delta).realize w = (t.realize w).plus delta := by
  rw [realize, thaw_plus, subst_plus, realize]

theorem realize_expandedLike (t element : Term) :
    (t.expandedLike element).realize w = t.expandedLike (element.realize w) := by
  rw [realize, expandedLike_thaw, subst_expandedLike, realize]

theorem same_realize {leaf : String → String → Bool} (hrefl : ∀ n, leaf n n = true) {a b : Term}
    (h : a.same leaf b = true) : (a.realize w).same leaf (b.realize w) = true :=
  same_subst (same_thaw a b h) fun id _ => .refl hrefl w id

end Term

namespace Substitution

variable {w : Substitution}

mutual

/-- What a term without placeholders mentions after a substitution without packs, when every
placeholder that came in is read as a parameter. -/
theorem occurrences_thaw_apply (hw : w.PackFree) : ∀ t : Term, t.PlaceholderFree →
    (apply t w).thaw.occurrences = t.occurrences.flatMap fun id => (w.atParam id).thaw.occurrences
  | .param id, _ => by simp [apply, Term.occurrences]
  | .placeholder _, hfree => absurd hfree (List.cons_ne_nil _ _)
  | .apply head args, hfree => by
    obtain ⟨hhead, hargs⟩ := List.append_eq_nil_iff.mp hfree
    rw [apply, Term.thaw, Term.occurrences, Term.occurrences, List.flatMap_append,
      occurrences_thaw_apply hw head hhead, occurrencesList_thaw_applyList hw args hargs]
  | .pointer inner, hfree | .expansion inner, hfree => by
    rw [apply, Term.thaw, Term.occurrences, Term.occurrences, occurrences_thaw_apply hw inner hfree]
  | .qualified quals inner, hfree => by
    rw [apply, Term.thaw_qualify, Term.occurrences_qualify, Term.occurrences,
      occurrences_thaw_apply hw inner hfree]
  | .reference kind inner, hfree => by
    rw [apply, Term.thaw_refer, Term.occurrences_refer, Term.occurrences,
      occurrences_thaw_apply hw inner hfree]
  | .offset base delta, hfree => by
    rw [apply, Term.thaw_plus, Term.occurrences_plus, Term.occurrences,
      occurrences_thaw_apply hw base hfree]
  | .type _, _ | .value _ _, _ | .template _, _ => rfl

theorem occurrencesList_thaw_applyList (hw : w.PackFree) :
    ∀ ts : List Term, Term.placeholdersList ts = [] →
      Term.occurrencesList (Term.thawList (applyList ts w)) =
        (Term.occurrencesList ts).flatMap fun id => (w.atParam id).thaw.occurrences
  | [], _ => rfl
  | t :: ts, hfree => by
    obtain ⟨ht, hts⟩ := List.append_eq_nil_iff.mp hfree
    rw [hw.applyList_cons, Term.thawList, Term.occurrencesList, Term.occurrencesList,
      List.flatMap_append, occurrences_thaw_apply hw t ht, occurrencesList_thaw_applyList hw ts hts]

end

end Substitution

/-! ### Realizing a substitution -/

def Binding.realize (w : Substitution) : Binding → Binding
  | .single u => .single (u.realize w)
  | .pack us => .pack (us.map (Term.realize w))

namespace Substitution

variable {w : Substitution}

theorem boundPack_realize {τ v : Substitution} {t : Term}
    (h : ∀ id ∈ t.occurrences, v.get? id = (τ.get? id).map (Binding.realize w)) :
    v.boundPack t = (τ.boundPack t).map fun (pack, us) => (pack, us.map (Term.realize w)) := by
  rw [boundPack, boundPack]
  generalize t.occurrences = ids at h
  induction ids with
  | nil => rfl
  | cons id ids ih =>
    have htail := ih fun j hj => h j (List.mem_cons_of_mem _ hj)
    rw [List.findSome?_cons, List.findSome?_cons, h id List.mem_cons_self]
    rcases τ.get? id with _ | (u | us)
    · exact htail
    · exact htail
    · rfl

theorem get?_atElement_realize {τ v : Substitution} {ids : List ParamId}
    (h : ∀ id ∈ ids, v.get? id = (τ.get? id).map (Binding.realize w)) (pack : ParamId) {u : Term}
    (hu : (u.realize w).isExpansion = u.isExpansion) :
    ∀ id ∈ ids, (v.atElement pack (u.realize w)).get? id =
      ((τ.atElement pack u).get? id).map (Binding.realize w) := by
  intro id hid
  have hexpanded : (u.realize w).expanded = u.expanded.realize w := by
    cases hexp : u.isExpansion with
    | true =>
      obtain ⟨inner, rfl⟩ := Term.exists_of_isExpansion hexp
      rfl
    | false =>
      rw [hexp] at hu
      rw [Term.expanded_eq_self hu, Term.expanded_eq_self hexp]
  rw [atElement, atElement, get?_insert, get?_insert]
  split
  · rw [hexpanded]
    rfl
  · exact h id hid

/-- The bound elements of a pack, realized, are expansions where they were. -/
def ShapedBy (τ w : Substitution) : Prop :=
  ∀ id us, τ.get? id = some (.pack us) → ∀ u ∈ us, (u.realize w).isExpansion = u.isExpansion

theorem ShapedBy.atElement {τ : Substitution} (h : τ.ShapedBy w) (pack : ParamId) (e : Term) :
    (τ.atElement pack e).ShapedBy w := by
  intro id us hus
  rw [Substitution.atElement, get?_insert] at hus
  split at hus
  · exact Binding.noConfusion (Option.some.inj hus)
  · exact h id us hus

theorem expandedLike_congr {t u : Term} (h : t.isExpansion = u.isExpansion) (element : Term) :
    t.expandedLike element = u.expandedLike element := by
  rw [Term.expandedLike, Term.expandedLike, h]

mutual

theorem realize_apply (hw : w.PackFree) : ∀ (t : Term) {τ v : Substitution}, t.PlaceholderFree →
    τ.ShapedBy w → (apply t τ).occurrences = [] →
    (∀ id ∈ t.occurrences, v.get? id = (τ.get? id).map (Binding.realize w)) →
    (apply t τ).realize w = apply t v
  | .param id, τ, v, _, _, hclosed, h => by
    have hv := h id (List.mem_singleton_self id)
    rw [apply, atParam] at hclosed ⊢
    rw [apply, atParam, hv]
    rcases hget : τ.get? id with _ | (u | us)
    · rw [hget] at hclosed
      exact absurd hclosed (List.cons_ne_nil _ _)
    · rfl
    · rw [hget] at hclosed
      exact absurd hclosed (List.cons_ne_nil _ _)
  | .placeholder _, _, _, hfree, _, _, _ => absurd hfree (List.cons_ne_nil _ _)
  | .type _, _, _, _, _, _, _ | .value _ _, _, _, _, _, _, _ | .template _, _, _, _, _, _, _ => rfl
  | .apply head args, τ, v, hfree, hshaped, hclosed, h => by
    obtain ⟨hfhead, hfargs⟩ := List.append_eq_nil_iff.mp hfree
    obtain ⟨hchead, hcargs⟩ := List.append_eq_nil_iff.mp hclosed
    have hhead := realize_apply hw head hfhead hshaped hchead
      fun id hid => h id (List.mem_append_left _ hid)
    have hargs := realize_applyList hw args hfargs hshaped hcargs
      fun id hid => h id (List.mem_append_right _ hid)
    have hlist : Term.substList w (Term.thawList (applyList args τ)) = applyList args v := by
      rw [Term.thawList_eq_map, hw.substList, List.map_map]
      exact hargs
    rw [apply, apply, ← hhead, ← hlist]
    rfl
  | .pointer inner, τ, v, hfree, hshaped, hclosed, h
  | .expansion inner, τ, v, hfree, hshaped, hclosed, h => by
    have hinner := realize_apply hw inner hfree hshaped hclosed h
    rw [apply, apply, ← hinner]
    rfl
  | .qualified quals inner, τ, v, hfree, hshaped, hclosed, h => by
    rw [apply, Term.occurrences_qualify] at hclosed
    rw [apply, apply, Term.realize_qualify, realize_apply hw inner hfree hshaped hclosed h]
  | .reference kind inner, τ, v, hfree, hshaped, hclosed, h => by
    rw [apply, Term.occurrences_refer] at hclosed
    rw [apply, apply, Term.realize_refer, realize_apply hw inner hfree hshaped hclosed h]
  | .offset base delta, τ, v, hfree, hshaped, hclosed, h => by
    rw [apply, Term.occurrences_plus] at hclosed
    rw [apply, apply, Term.realize_plus, realize_apply hw base hfree hshaped hclosed h]

theorem realize_applyList (hw : w.PackFree) : ∀ (ts : List Term) {τ v : Substitution},
    Term.placeholdersList ts = [] → τ.ShapedBy w → Term.occurrencesList (applyList ts τ) = [] →
    (∀ id ∈ Term.occurrencesList ts, v.get? id = (τ.get? id).map (Binding.realize w)) →
    (applyList ts τ).map (Term.realize w) = applyList ts v
  | [], _, _, _, _, _, _ => rfl
  | t :: ts, τ, v, hfree, hshaped, hclosed, h => by
    obtain ⟨hft, hfts⟩ := List.append_eq_nil_iff.mp hfree
    have hhead : ∀ id ∈ t.occurrences, v.get? id = (τ.get? id).map (Binding.realize w) :=
      fun id hid => h id (List.mem_append_left _ hid)
    by_cases hexp : t.isExpansion = true
    · obtain ⟨inner, rfl⟩ := Term.exists_of_isExpansion hexp
      have hpack := boundPack_realize (t := inner) hhead
      rw [applyList] at hclosed ⊢
      rw [applyList, hpack]
      rcases hbound : τ.boundPack inner with _ | ⟨pack, us⟩
      · rw [hbound] at hclosed
        obtain ⟨hcinner, hcts⟩ := List.append_eq_nil_iff.mp hclosed
        have hrest := realize_applyList hw ts hfts hshaped hcts
          fun id hid => h id (List.mem_append_right _ hid)
        have hinner := realize_apply hw inner hft hshaped hcinner hhead
        dsimp only [Option.map_none]
        rw [List.map_cons, hrest, ← hinner]
        rfl
      · rw [hbound] at hclosed
        dsimp only at hclosed
        have hclosed' : ∀ s ∈ us.map (fun e => e.expandedLike (apply inner (τ.atElement pack e))) ++
            applyList ts τ, s.occurrences = [] := by
          intro s hs
          refine List.eq_nil_iff_forall_not_mem.mpr fun id hid => ?_
          have hmem := Term.mem_occurrencesList.mpr ⟨s, hs, hid⟩
          rw [hclosed] at hmem
          exact List.not_mem_nil hmem
        have hcts : Term.occurrencesList (applyList ts τ) = [] := by
          refine List.eq_nil_iff_forall_not_mem.mpr fun id hid => ?_
          obtain ⟨s, hs, hid⟩ := Term.mem_occurrencesList.mp hid
          rw [hclosed' s (List.mem_append_right _ hs)] at hid
          exact List.not_mem_nil hid
        have hrest := realize_applyList hw ts hfts hshaped hcts
          fun id hid => h id (List.mem_append_right _ hid)
        have hus : ∀ u ∈ us, (u.realize w).isExpansion = u.isExpansion :=
          hshaped pack us (boundPack_inv hbound).2
        dsimp only [Option.map_some]
        rw [List.map_append, hrest, List.map_map, List.map_map]
        refine congrArg (· ++ applyList ts v) (List.map_congr_left fun u hu => ?_)
        have hcu : (apply inner (τ.atElement pack u)).occurrences = [] := by
          have hc := hclosed' _ (List.mem_append_left _ (List.mem_map_of_mem hu))
          rw [← hc, Term.expandedLike]
          split <;> rfl
        have hinner := realize_apply hw inner (v := v.atElement pack (u.realize w)) hft
          (hshaped.atElement pack u) hcu (get?_atElement_realize hhead pack (hus u hu))
        rw [Function.comp_apply, Function.comp_apply, Term.realize_expandedLike, hinner,
          expandedLike_congr (hus u hu)]
    · rw [Bool.not_eq_true] at hexp
      rw [applyList_cons hexp] at hclosed ⊢
      rw [applyList_cons hexp]
      obtain ⟨hct, hcts⟩ := List.append_eq_nil_iff.mp hclosed
      have hrest := realize_applyList hw ts hfts hshaped hcts
        fun id hid => h id (List.mem_append_right _ hid)
      rw [List.map_cons, hrest, realize_apply hw t hft hshaped hct hhead]

end

end Substitution

/-- **Realizing an instance is taking the instance at what the bindings stand for.** -/
theorem Term.realize_subst {w : Substitution} (hw : w.PackFree) {t : Term} {τ v : Substitution}
    (hfree : t.PlaceholderFree) (hshaped : τ.ShapedBy w) (hclosed : (t.subst τ).occurrences = [])
    (h : ∀ id ∈ t.occurrences, v.get? id = (τ.get? id).map (Binding.realize w)) :
    (t.subst τ).realize w = t.subst v :=
  Substitution.realize_apply hw t hfree hshaped hclosed h

end TemplateResolution
