import TemplateResolution.Proofs.Specificity.Lifting

/-!
# Unrolling a substitution

When a reading of terms with placeholders holds under a substitution, the bindings
have placeholders in them too.  Unrolling replaces these by what they stand for, and
an expansion among the elements of a pack by the elements that it stands for.

A lifted reading holds under the unrolled substitution (`Finding.Lifts.holds`), with
one condition.  Inside an expansion of the pattern, a parameter other than its pack
is bound once and stands for the same in every element.  It must not have been bound
to a term with the placeholder of a pack in it, since that stands for a different
term in every element.
-/

namespace TemplateResolution

/-! ### Unrolled bindings -/

/-- The elements that `u` stands for, where expansions run over `pack` with the elements `es`. -/
def Term.unroll (w : Substitution) (pack : ParamId) (es : List Term) (u : Term) : List Term :=
  if u.isExpansion then es.map fun e => e.expandedLike (u.expanded.realize (w.atElement pack e))
  else [u.realize w]

def Binding.unroll (w : Substitution) (pack : ParamId) (es : List Term) : Binding → Binding
  | .single u => .single (u.realize w)
  | .pack us => .pack (us.flatMap (Term.unroll w pack es))

namespace Substitution

def unroll (σ w : Substitution) (pack : ParamId) (es : List Term) : Substitution :=
  { bindings := σ.bindings.map fun (id, b) => (id, b.unroll w pack es) }

variable {σ w : Substitution} {pack : ParamId} {es : List Term}

theorem get?_unroll (id : ParamId) :
    (σ.unroll w pack es).get? id = (σ.get? id).map (Binding.unroll w pack es) := by
  unfold get? unroll
  induction σ.bindings with
  | nil => rfl
  | cons entry rest ih =>
    obtain ⟨i, b⟩ := entry
    rw [List.map_cons, List.lookup_cons, List.lookup_cons, ih]
    split <;> rfl

theorem get?_unroll_single {id : ParamId} {u : Term} (h : σ.get? id = some (.single u)) :
    (σ.unroll w pack es).get? id = some (.single (u.realize w)) := by
  rw [get?_unroll, h]
  rfl

theorem exists_of_get?_unroll_single {id : ParamId} {t : Term}
    (h : (σ.unroll w pack es).get? id = some (.single t)) :
    ∃ u, σ.get? id = some (.single u) := by
  rw [get?_unroll] at h
  obtain ⟨b, hb, heq⟩ := Option.map_eq_some_iff.mp h
  cases b with
  | single u => exact ⟨u, hb⟩
  | pack us => exact Binding.noConfusion heq

/-- No element of a pack is an expansion, or stands for one. -/
def Solid (σ w : Substitution) : Prop :=
  ∀ id us, σ.get? id = some (.pack us) → ∀ u ∈ us,
    u.isExpansion = false ∧ (u.realize w).isExpansion = false

/-- Where nothing is to be unrolled, every binding is realized. -/
theorem Solid.get?_unroll (h : σ.Solid w) (id : ParamId) :
    (σ.unroll w pack es).get? id = (σ.get? id).map (Binding.realize w) := by
  rw [Substitution.get?_unroll]
  rcases hget : σ.get? id with _ | (u | us)
  · rfl
  · rfl
  · have hus : us.flatMap (Term.unroll w pack es) = us.map (Term.realize w) := by
      rw [List.map_eq_flatMap]
      refine List.flatMap_congr fun u hu => ?_
      rw [Term.unroll, (h id us hget u hu).1, if_neg Bool.false_ne_true]
    rw [Option.map_some, Option.map_some, Binding.unroll, hus]
    rfl

theorem Solid.shapedBy (h : σ.Solid w) : σ.ShapedBy w := by
  intro id us hus u hu
  obtain ⟨hshape, hrealize⟩ := h id us hus u hu
  rw [hshape, hrealize]

/-- All packs in `w` are `pack`, with the elements `es`. -/
def RunsOver (w : Substitution) (pack : ParamId) (es : List Term) : Prop :=
  ∀ id us, w.get? id = some (.pack us) → id = pack ∧ us = es

end Substitution

/-! ### Clues -/

section Clues

variable {m : Matching} {leaf : String → String → Bool} {offsets : Prop}
  {τ τ' w : Substitution}

/-- What is deferred under `τ` is deferred under `τ'`, once the placeholders are realized. -/
def RealizesDeferred (offsets : Prop) (τ τ' w : Substitution) : Prop :=
  offsets → ∀ p : Term, p.PlaceholderFree → (p.subst τ).occurrences = [] →
    (p.subst τ).realize w = p.subst τ'

section Holds

variable (hrefl : ∀ n, leaf n n = true)
  (htrans : ∀ k l n, leaf k l = true → leaf l n = true → leaf k n = true)
  (htypes : ∀ q ∈ m.parameters, m.model.argumentKind q = .value → q.valueType = none)

include hrefl htrans in
/-- What is the same as a term is, realized, the same as what the term describes. -/
theorem Term.Describes.same_of_same {s t u : Term} (h : s.Describes leaf offsets w t)
    (hus : u.same leaf s = true) : (u.realize w).same leaf t = true :=
  Term.same_trans htrans _ _ _ (Term.same_realize hrefl hus) h.same_realize

include hrefl htrans htypes

/-- A clue that holds, holds about what is described. -/
theorem Clue.Lifts.holds {c c' : Clue} (h : c.Lifts leaf offsets w c') {view view' : Substitution}
    (hc : c.Holds m leaf τ view)
    (hview : ∀ id t, c = .bind id t → ∀ u, view.get? id = some (.single u) →
      view'.get? id = some (.single (u.realize w)))
    (hdeferred : RealizesDeferred offsets τ τ' w) : c'.Holds m leaf τ' view' := by
  cases h with
  | @bind id s t h =>
    obtain ⟨haccepts, u, hu, hus⟩ := hc
    obtain ⟨q, hq, hacc⟩ := (Option.any_eq_true _ _).mp haccepts
    refine ⟨?_, u.realize w, hview id s rfl u hu, h.same_of_same hrefl htrans hus⟩
    have hvalue := htypes q (List.mem_of_getElem? hq)
    exact (Option.any_eq_true _ _).mpr
      ⟨q, hq, Term.accepts_of_fits hvalue h.image.normal h.fits hacc⟩
  | @defer p s t hoffsets hp h =>
    have hps : (p.subst τ).same leaf s = true := hc
    have hclosed := (Term.occurrences_eq_of_same _ _ hps).trans (h.image.closed hoffsets)
    have hpt := h.same_of_same hrefl htrans hps
    rwa [hdeferred hoffsets p hp hclosed] at hpt

end Holds

/-! ### Elements -/

namespace Finding

/-- What an element stands for is no expansion, and the lifted clues find it too. -/
theorem HoldsAt.realize (hrefl : ∀ n, leaf n n = true)
    (htrans : ∀ k l n, leaf k l = true → leaf l n = true → leaf k n = true) {pack : ParamId}
    {u s : Term} {cs cs' : List Clue} (h : HoldsAt m leaf τ pack u (s, cs))
    (hcs : List.Forall₂ (Clue.Lifts leaf offsets w) cs cs') :
    (u.expanded.realize w).isExpansion = false ∧ ∃ t, .bind pack t ∈ cs' := by
  obtain ⟨t, ht⟩ := h.bound
  obtain ⟨-, v, hv, hvt⟩ := h.clues _ ht
  obtain rfl : u.expanded = v := by
    rw [Substitution.atElement, Substitution.get?_insert_self] at hv
    exact Binding.single.inj (Option.some.inj hv)
  obtain ⟨c', hmem, hc'⟩ := (exists_mem_of_forall₂ hcs).1 _ ht
  cases hc' with
  | bind _ hd =>
    have hsame := hd.same_of_same hrefl htrans hvt
    exact ⟨(Term.isExpansion_eq_of_same hsame).trans hd.isExpansion_right, _, hmem⟩

section Holds

variable (hrefl : ∀ n, leaf n n = true)
  (htrans : ∀ k l n, leaf k l = true → leaf l n = true → leaf k n = true)
  (htypes : ∀ q ∈ m.parameters, m.model.argumentKind q = .value → q.valueType = none)

include hrefl htrans htypes

/-- The lifted clues hold at any element `e` that is realized from the one before. -/
theorem HoldsAt.lift {pack : ParamId} {u s e t : Term} {cs cs' : List Clue}
    (h : HoldsAt m leaf τ pack u (s, cs)) (hcs : List.Forall₂ (Clue.Lifts leaf offsets w) cs cs')
    (hshape : e.isExpansion = t.isExpansion) (hexpanded : e.expanded = u.expanded.realize w)
    (hothers : ∀ id t, .bind id t ∈ cs → id ≠ pack → ∀ v, τ.get? id = some (.single v) →
      τ'.get? id = some (.single (v.realize w)))
    (hdeferred : RealizesDeferred offsets τ τ' w) : HoldsAt m leaf τ' pack e (t, cs') := by
  refine ⟨hshape, (h.realize hrefl htrans hcs).2, fun c' hc' => ?_⟩
  obtain ⟨c, hc, hlift⟩ := (exists_mem_of_forall₂ hcs).2 c' hc'
  refine hlift.holds hrefl htrans htypes (h.clues c hc) ?_ hdeferred
  intro id t heq v hv
  rw [Substitution.atElement, Substitution.get?_insert] at hv ⊢
  by_cases hid : id = pack
  · rw [if_pos hid] at hv ⊢
    obtain rfl := Binding.single.inj (Option.some.inj hv)
    rw [hexpanded]
  · rw [if_neg hid] at hv ⊢
    exact hothers id t (heq ▸ hc) hid v hv

/-- What a finding for the elements of a pack says of the elements that these stand for. -/
theorem ElementsLift.holds {pk : ParamId} {es : List Term} (hw : w.RunsOver pk es)
    (hτ : ∀ id u, τ.get? id = some (.single u) → τ'.get? id = some (.single (u.realize w)))
    (hpackFree : offsets → w.PackFree) (hdeferred : RealizesDeferred offsets τ τ' w)
    {pack : ParamId} {found found' : List (Term × List Clue)}
    (h : ElementsLift leaf offsets w found found') :
    ∀ us, List.Forall₂ (HoldsAt m leaf τ pack) us found →
      (∀ x ∈ found, ∀ id t, .bind id t ∈ x.2 → id ≠ pack → ∀ v, τ.get? id = some (.single v) →
        w.get? pk = some (.pack es) → pk ∉ v.thaw.occurrences) →
      List.Forall₂ (HoldsAt m leaf τ' pack) (us.flatMap (Term.unroll w pk es)) found' := by
  induction h with
  | nil =>
    intro us hus _
    cases hus
    exact .nil
  | @one s t cs cs' found found' hd hcs _ ih =>
    intro us hus hout
    cases hus with
    | @cons u _ us _ hu hus =>
      have hrest := ih us hus fun x hx => hout x (List.mem_cons_of_mem _ hx)
      have hshape : u.isExpansion = false := hu.shape.trans hd.isExpansion_left
      have hplain := (hu.realize hrefl htrans hcs).1
      rw [Term.expanded_eq_self hshape] at hplain
      have hone : u.unroll w pk es = [u.realize w] := by
        rw [Term.unroll, hshape, if_neg Bool.false_ne_true]
      rw [List.flatMap_cons, hone]
      refine .cons (hu.lift hrefl htrans htypes hcs (hplain.trans hd.isExpansion_right.symm) ?_
        (fun id _ _ _ v hv => hτ id v hv) hdeferred) hrest
      rw [Term.expanded_eq_self hplain, Term.expanded_eq_self hshape]
  | @many s pack' es' cs block found found' hpack hblock _ ih =>
    intro us hus hout
    cases hus with
    | @cons u _ us _ hu hus =>
      obtain ⟨rfl, rfl⟩ := hw _ _ hpack
      have hrest := ih us hus fun x hx => hout x (List.mem_cons_of_mem _ hx)
      have hmany : u.unroll w pack' es' =
          es'.map fun e => e.expandedLike (u.expanded.realize (w.atElement pack' e)) := by
        rw [Term.unroll, hu.shape]
        rfl
      rw [List.flatMap_cons, hmany]
      refine List.rel_append ?_ hrest
      refine List.forall₂_map_left_iff.mpr (hblock.imp fun e x hx => ?_)
      obtain ⟨hshape, hcs⟩ := hx
      have hplain := (hu.realize hrefl htrans hcs).1
      refine hu.lift hrefl htrans htypes hcs ?_ (Term.expanded_expandedLike e hplain) ?_ ?_
      · rw [Term.isExpansion_expandedLike e hplain, hshape]
      · -- the parameter is realized alike at every element
        intro id t ht hid v hv
        have hnot := hout _ List.mem_cons_self id t ht hid v hv hpack
        have hsame : v.realize (w.atElement pack' e) = v.realize w :=
          Substitution.apply_insert_of_notMem hnot w _
        rw [hτ id v hv, hsame]
      · exact fun hoffsets => absurd hpack (hpackFree hoffsets _ _)

/-- **A lifted reading holds under the unrolled substitution.** -/
theorem Lifts.holds {pk : ParamId} {es : List Term} (hw : w.RunsOver pk es)
    (hpackFree : offsets → w.PackFree)
    (hdeferred : RealizesDeferred offsets τ (τ.unroll w pk es) w) {f f' : Finding}
    (h : f.Lifts leaf offsets w f') (hf : f.Holds m leaf τ)
    (hout : ∀ pack found, f = .elements pack found → ∀ x ∈ found, ∀ id t, .bind id t ∈ x.2 →
      id ≠ pack → ∀ v, τ.get? id = some (.single v) → w.get? pk = some (.pack es) →
        pk ∉ v.thaw.occurrences) : f'.Holds m leaf (τ.unroll w pk es) := by
  cases h with
  | clue h =>
    exact Clue.Lifts.holds hrefl htrans htypes h hf
      (fun _ _ _ _ hu => Substitution.get?_unroll_single hu) hdeferred
  | elements pack h =>
    obtain ⟨us, hus, hholds⟩ := hf
    refine ⟨us.flatMap (Term.unroll w pk es), ?_, ?_⟩
    · rw [Substitution.get?_unroll, hus]
      rfl
    · exact h.holds hrefl htrans htypes hw (fun _ _ hu => Substitution.get?_unroll_single hu)
        hpackFree hdeferred us hholds (hout pack _ rfl)

end Holds

/-! ### Without packs -/

section PackFree

variable (hw : w.PackFree)

include hw

/-- Without packs every element is found for one target, before and after. -/
theorem ElementsLift.forall₂ {found found' : List (Term × List Clue)}
    (h : ElementsLift leaf offsets w found found') :
    List.Forall₂ (fun x y => x.1.Describes leaf offsets w y.1 ∧
      List.Forall₂ (Clue.Lifts leaf offsets w) x.2 y.2) found found' := by
  induction h with
  | nil => exact .nil
  | one hd hcs _ ih => exact .cons ⟨hd, hcs⟩ ih
  | many hpack _ _ _ => exact absurd hpack (hw _ _)

theorem Lifts.binds {f f' : Finding} (h : f.Lifts leaf offsets w f') {id : ParamId}
    (hf : f.Binds id) : f'.Binds id := by
  cases h with
  | clue h =>
    obtain ⟨found, hfound⟩ | ⟨t, ht⟩ := hf
    · exact Finding.noConfusion hfound
    · obtain rfl := List.mem_singleton.mp ht
      cases h with
      | bind => exact .inr ⟨_, List.mem_singleton_self _⟩
  | elements pack h =>
    refine binds_elements.mpr ((binds_elements.mp hf).imp_right ?_)
    rintro ⟨x, hx, t, ht⟩
    obtain ⟨y, hy, -, hcs⟩ := (exists_mem_of_forall₂ (h.forall₂ hw)).1 x hx
    obtain ⟨c, hc, hlift⟩ := (exists_mem_of_forall₂ hcs).1 _ ht
    cases hlift with
    | bind => exact ⟨y, hy, _, hc⟩

/-- What a reading of terms without expansions finds for a pack is not an expansion. -/
theorem solid_of_holds (hrefl : ∀ n, leaf n n = true)
    (htrans : ∀ k l n, leaf k l = true → leaf l n = true → leaf k n = true) {xs ys : List Finding}
    (hlifts : List.Forall₂ (Lifts leaf offsets w) xs ys) (hholds : ∀ f ∈ xs, f.Holds m leaf τ)
    (hbinds : ∀ id, (τ.get? id).isSome = true → ∃ f ∈ xs, f.Binds id) : τ.Solid w := by
  intro id us hus u hu
  have hnotSingle : ∀ v, τ.get? id ≠ some (.single v) := fun v hv =>
    Binding.noConfusion (Option.some.inj (hus.symm.trans hv))
  have hfound : ∃ found, .elements id found ∈ xs := by
    obtain ⟨f, hf, hbind⟩ := hbinds id (by rw [hus]; rfl)
    cases f with
    | clue c =>
      obtain ⟨found, hfound⟩ | ⟨t, ht⟩ := hbind
      · exact Finding.noConfusion hfound
      · obtain rfl := List.mem_singleton.mp ht
        obtain ⟨-, v, hv, -⟩ := hholds _ hf
        exact absurd hv (hnotSingle v)
    | elements pack found =>
      by_cases hid : id = pack
      · exact ⟨found, hid ▸ hf⟩
      · obtain ⟨x, hx, t, ht⟩ := (binds_elements.mp hbind).resolve_left hid
        obtain ⟨ts, -, hts⟩ := hholds _ hf
        obtain ⟨e, -, he⟩ := (exists_mem_of_forall₂ hts).2 x hx
        obtain ⟨-, v, hv, -⟩ := he.clues _ ht
        rw [Substitution.atElement, Substitution.get?_insert, if_neg hid] at hv
        exact absurd hv (hnotSingle v)
  obtain ⟨found, hfound⟩ := hfound
  obtain ⟨ts, hts, hforall⟩ := hholds _ hfound
  obtain rfl := Binding.pack.inj (Option.some.inj (hus.symm.trans hts))
  obtain ⟨x, hx, hux⟩ := (exists_mem_of_forall₂ hforall).1 u hu
  obtain ⟨f', -, hlift⟩ := (exists_mem_of_forall₂ hlifts).1 _ hfound
  cases hlift with
  | elements _ h =>
    obtain ⟨y, -, hd, hcs⟩ := (exists_mem_of_forall₂ (h.forall₂ hw)).1 x hx
    have hshape := hux.shape.trans hd.isExpansion_left
    have hplain := (hux.realize hrefl htrans hcs).1
    rw [Term.expanded_eq_self hshape] at hplain
    exact ⟨hshape, hplain⟩

end PackFree

end Finding

theorem Substitution.Solid.realizesDeferred (hw : w.PackFree) (h : τ.Solid w) (pk : ParamId)
    (es : List Term) : RealizesDeferred offsets τ (τ.unroll w pk es) w :=
  fun _ _ hfree hclosed =>
    Term.realize_subst hw hfree h.shapedBy hclosed fun id _ => h.get?_unroll id

end Clues

/-! ### Matches -/

/-- **A pattern that takes a list with placeholders takes every list that fits it.**  Inside its
expansions only the pack may have been bound to terms with the placeholder of a pack. -/
theorem Pattern.match?_of_fits {model : TypeModel} (hrefl : ∀ n, model.sameLeaf n n = true)
    (hsymm : ∀ k l, model.sameLeaf k l = true → model.sameLeaf l k = true)
    (htrans : ∀ k l n, model.sameLeaf k l = true → model.sameLeaf l n = true →
      model.sameLeaf k n = true)
    {b : Pattern} (hfree : Term.placeholdersList b.args = [])
    (hslots : ∀ slot ∈ b.slots, slot.default = none)
    (htypes : ∀ q ∈ b.parameters, model.argumentKind q = .value → q.valueType = none)
    {w : Substitution} {pk : ParamId} {es : List Term} (hw : w.RunsOver pk es)
    {ss ts : List Term} (hss : ∀ s ∈ ss, s.isNormal = true) (hts : ∀ t ∈ ts, t.isNormal = true)
    (hoffsets : Term.offsetsList b.args = [] ∨
      (w.PackFree ∧ ∀ s ∈ ss, s.occurrences = []))
    (hfits : Term.FitsList model.sameLeaf ss w ts) {τ : Substitution}
    (hmatch : b.match? model .structural .empty ss = some τ)
    (hout : w.get? pk = some (.pack es) → ∀ inner ∈ Term.expansionsList b.args,
      ∀ id ∈ inner.occurrences, ∀ u, τ.get? id = some (.single u) → pk ∉ u.thaw.occurrences) :
    (b.match? model .structural .empty ts).isSome = true := by
  obtain ⟨xs, hxs, hholds, hτ, hbinds⟩ := Matching.exists_reading hrefl htrans hslots hmatch
  obtain ⟨ys, hys, hlifts⟩ := Matching.readList_lift rfl htrans b.args ss ts 0 w xs hfree
    hoffsets (fun s hs => ⟨hss s hs, fun ho => ho.2 s hs⟩) hts hfits hxs
    fun f hf => (hholds f hf).settled
  have hdeferred : RealizesDeferred (w.PackFree ∧ ∀ s ∈ ss, s.occurrences = []) τ
      (τ.unroll w pk es) w := by
    intro ho
    have hsolid := Finding.solid_of_holds ho.1 hrefl htrans hlifts hholds
      fun id hid => (hbinds id).mp hid
    exact hsolid.realizesDeferred ho.1 pk es ho
  have hholds' : ∀ f' ∈ ys, f'.Holds (.structural model b.parameters) model.sameLeaf
      (τ.unroll w pk es) := by
    intro f' hf'
    obtain ⟨f, hf, hlift⟩ := (exists_mem_of_forall₂ hlifts).2 f' hf'
    refine hlift.holds hrefl htrans htypes hw And.left hdeferred (hholds f hf) ?_
    intro pack found heq x hx id t ht _ v hv hpk
    obtain ⟨inner, hinner, hwithin⟩ := Matching.exists_expansion hxs (heq ▸ hf)
    exact hout hpk inner hinner id (hwithin x hx _ ht id (List.mem_singleton_self id)) v hv
  have heuclid : ∀ k l n, model.sameLeaf k l = true → model.sameLeaf k n = true →
      model.sameLeaf l n = true := fun k l n hkl hkn => htrans l k n (hsymm k l hkl) hkn
  have hsingles : ∀ id t, (τ.unroll w pk es).get? id = some (.single t) →
      (Matching.structural model b.parameters).isPack id = false := by
    intro id t ht
    obtain ⟨u, hu⟩ := Substitution.exists_of_get?_unroll_single ht
    exact (hτ.singles id u hu).1
  have hdefers : ∀ f ∈ ys, ∀ p t, .defer p t ∈ f.clues → ∀ id ∈ p.occurrences,
      ((τ.unroll w pk es).get? id).isSome = true → ∃ g ∈ ys, g.Binds id := by
    intro g hg p t ht id _ hid
    obtain ⟨f, -, hlift⟩ := (exists_mem_of_forall₂ hlifts).2 g hg
    have hpackFree : w.PackFree := (hlift.offsets_of_defer ht).1
    rw [Substitution.get?_unroll, Option.isSome_map, hbinds] at hid
    obtain ⟨f, hf, hbind⟩ := hid
    obtain ⟨g, hg, hlift⟩ := (exists_mem_of_forall₂ hlifts).1 f hf
    exact ⟨g, hg, hlift.binds hpackFree hbind⟩
  obtain ⟨τ', hrun, -⟩ := Matching.run_of_holds hrefl heuclid hys hsingles hholds' hdefers
  exact Option.isSome_iff_exists.mpr ⟨τ', hrun⟩

end TemplateResolution
