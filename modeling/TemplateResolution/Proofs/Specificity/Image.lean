import TemplateResolution.Proofs.Matching.Arguments
import TemplateResolution.Proofs.Matching.Soundness
import TemplateResolution.Proofs.Placeholder.Fitting
import TemplateResolution.Proofs.Specificity.Outcome
import TemplateResolution.Proofs.Substitution.Building

/-!
# The image of a pattern

A comparison stands one pattern before the other with placeholders for its
parameters.  This list of terms, the pattern's image, describes every argument list
that the pattern takes: what a match of the pattern takes fits the image, under the
substitution that the match returns (`image_fits`).

An offset is compared under that whole substitution, so inside an expansion it would
be compared with a pack and not with one of its elements.  Offsets are therefore
considered in patterns without packs only.
-/

namespace TemplateResolution

/-! ### Frozen parameters -/

namespace PlaceholderSupply

/-- Every parameter bound to the placeholder with its number. -/
def frozen (model : TypeModel) (parameters : List Parameter) : Substitution :=
  ((bindFrom model 0 parameters .empty).run {}).1

theorem get?_bindFrom (model : TypeModel) (ps : List Parameter) :
    ∀ (n : Nat) (σ : Substitution) (id : Nat),
      ((bindFrom model n ps σ).run ⟨n⟩).1.get? id =
        if id < n then σ.get? id
        else match ps[id - n]? with
          | some q => some (bindingFor model q ⟨id, model.argumentKind q⟩)
          | none => σ.get? id := by
  induction ps with
  | nil =>
    intro n σ id
    split <;> rfl
  | cons p ps ih =>
    intro n σ id
    rw [bindFrom_cons, ih, Substitution.get?_insert]
    by_cases hlt : id < n
    · rw [if_pos hlt, if_pos (by omega : id < n + 1), if_neg (by omega : id ≠ n)]
    · rw [if_neg hlt]
      by_cases heq : id = n
      · rw [heq, if_pos (Nat.lt_succ_self n), if_pos rfl, Nat.sub_self]
        rfl
      · have hsub : id - n = (id - (n + 1)) + 1 := by omega
        rw [if_neg (by omega : ¬id < n + 1), hsub, List.getElem?_cons_succ, if_neg heq]

variable {model : TypeModel} {parameters : List Parameter}

theorem get?_frozen (id : ParamId) :
    (frozen model parameters).get? id =
      (parameters[id]?).map fun q => bindingFor model q ⟨id, model.argumentKind q⟩ := by
  have h := get?_bindFrom model parameters 0 .empty id
  rw [if_neg (Nat.not_lt_zero id), Nat.sub_zero] at h
  rw [frozen]
  refine h.trans ?_
  cases parameters[id]? <;> rfl

variable {id : ParamId} {q : Parameter}

theorem frozen_single (hq : parameters[id]? = some q) (hpack : model.isPack q = false) :
    (frozen model parameters).get? id =
      some (.single (.placeholder ⟨id, model.argumentKind q⟩)) := by
  rw [get?_frozen, hq, Option.map_some, bindingFor, hpack]
  rfl

theorem frozen_pack (hq : parameters[id]? = some q) (hpack : model.isPack q = true) :
    (frozen model parameters).get? id =
      some (.pack [.expansion (.placeholder ⟨id, model.argumentKind q⟩)]) := by
  rw [get?_frozen, hq, Option.map_some, bindingFor, hpack]
  rfl

/-- A frozen parameter is bound to its placeholder, and a frozen pack to the expansion of it. -/
theorem exists_of_get?_frozen {b : Binding} (h : (frozen model parameters).get? id = some b) :
    ∃ q, parameters[id]? = some q ∧
      ((model.isPack q = false ∧ b = .single (.placeholder ⟨id, model.argumentKind q⟩)) ∨
        (model.isPack q = true ∧
          b = .pack [.expansion (.placeholder ⟨id, model.argumentKind q⟩)])) := by
  rw [get?_frozen] at h
  obtain ⟨q, hq, rfl⟩ := Option.map_eq_some_iff.mp h
  refine ⟨q, hq, ?_⟩
  rw [bindingFor]
  cases model.isPack q
  · exact .inl ⟨rfl, rfl⟩
  · exact .inr ⟨rfl, rfl⟩

end PlaceholderSupply

open PlaceholderSupply (frozen)

/-- The argument list with placeholders for the parameters. -/
def Pattern.image (model : TypeModel) (p : Pattern) : List Term :=
  Term.substList (frozen model p.parameters) p.args

namespace Substitution

/-! ### Normal instances -/

/-- Everything that is bound is normal. -/
def NormalTerms (σ : Substitution) : Prop :=
  ∀ id b, σ.get? id = some b → ∀ t ∈ b.terms, t.isNormal = true

end Substitution

theorem PlaceholderSupply.normalTerms_frozen (model : TypeModel) (parameters : List Parameter) :
    (frozen model parameters).NormalTerms := by
  intro id b hb t ht
  obtain ⟨q, -, ⟨-, rfl⟩ | ⟨-, rfl⟩⟩ := exists_of_get?_frozen hb
  · obtain rfl := List.mem_singleton.mp ht
    rfl
  · obtain rfl := List.mem_singleton.mp ht
    rfl

theorem Pattern.isNormal_image (model : TypeModel) (p : Pattern) :
    ∀ s ∈ p.image model, s.isNormal = true := by
  have hfrozen := PlaceholderSupply.normalTerms_frozen model p.parameters
  exact Substitution.applyList_allTerms Term.keptByBuilding_isNormal p.args hfrozen

/-! ### What is taken fits the image -/

namespace Matching

/-- `g` has the placeholders for what `w` has at a place of the pattern. -/
structure Freezes (m : Matching) (σ : Substitution) (inside : Bool) (g w : Substitution) :
    Prop where
  single : ∀ id q u, m.parameters[id]? = some q → w.get? id = some (.single u) →
    g.get? id = some (.single (.placeholder ⟨id, m.model.argumentKind q⟩))
  normal : g.NormalTerms
  top : inside = false → g = frozen m.model m.parameters ∧ w = σ

variable {m : Matching} {σ : Substitution} {leaf : String → String → Bool}

theorem exists_parameter {id : ParamId} (h : m.isPack id = true) :
    ∃ q, m.parameters[id]? = some q ∧ m.model.isPack q = true :=
  (Option.any_eq_true _ _).mp h

theorem isPack_eq {id : ParamId} {q : Parameter} (hq : m.parameters[id]? = some q) :
    m.isPack id = m.model.isPack q := by
  rw [isPack, hq, Option.any_some]

theorem Suits.freezes (hσ : m.Suits σ) :
    m.Freezes σ false (frozen m.model m.parameters) σ := by
  refine ⟨?_, PlaceholderSupply.normalTerms_frozen _ _, fun _ => ⟨rfl, rfl⟩⟩
  intro id q u hq hu
  have hpack := (hσ.singles id u hu).1
  rw [isPack_eq hq] at hpack
  exact PlaceholderSupply.frozen_single hq hpack

theorem kinded_frozen : m.Kinded (frozen m.model m.parameters) := by
  intro id ts hts
  obtain ⟨q, hq, ⟨-, heq⟩ | ⟨hpack, -⟩⟩ := PlaceholderSupply.exists_of_get?_frozen hts
  · exact Binding.noConfusion heq
  · rwa [isPack_eq hq]

/-- Inside an expansion the pack is replaced by its placeholder too. -/
def frozenElement (m : Matching) (pack : ParamId) (q : Parameter) : Substitution :=
  (frozen m.model m.parameters).atElement pack
    (.expansion (.placeholder ⟨pack, m.model.argumentKind q⟩))

section Element

variable {pack : ParamId} {q : Parameter}

theorem Suits.freezes_element (hσ : m.Suits σ) (hq : m.parameters[pack]? = some q) (e : Term) :
    m.Freezes σ true (m.frozenElement pack q) (σ.atElement pack e) := by
  have hnormal : (m.frozenElement pack q).NormalTerms :=
    Substitution.AllTerms.atElement Term.keptByBuilding_isNormal hσ.freezes.normal pack rfl
  refine ⟨?_, hnormal, fun h => Bool.noConfusion h⟩
  intro id q' u hq' hu
  rw [frozenElement, Substitution.atElement, Substitution.get?_insert]
  rw [Substitution.atElement, Substitution.get?_insert] at hu
  by_cases hid : id = pack
  · subst hid
    obtain rfl := Option.some.inj (hq.symm.trans hq')
    rw [if_pos rfl]
    rfl
  · rw [if_neg hid] at hu ⊢
    exact hσ.freezes.single id q' u hq' hu

/-- Under an element of the only pack, the view of the pattern is frozen without packs. -/
theorem packFree_frozenElement (hunique : ∀ i j, m.isPack i = true → m.isPack j = true → i = j)
    (hpack : m.isPack pack = true) (q : Parameter) : (m.frozenElement pack q).PackFree := by
  intro id us hus
  rw [frozenElement, Substitution.atElement, Substitution.get?_insert] at hus
  split at hus
  · exact Binding.noConfusion (Option.some.inj hus)
  · rename_i hne
    exact hne (hunique id pack (kinded_frozen id us hus) hpack)

/-- The placeholders that replace the parameters of a term are those of its parameters. -/
theorem occurrences_thaw_frozenElement
    (hunique : ∀ i j, m.isPack i = true → m.isPack j = true → i = j) {inner : Term}
    (hfree : inner.PlaceholderFree) (hpack : m.isPack pack = true) (q : Parameter) :
    (inner.subst (m.frozenElement pack q)).thaw.occurrences = inner.occurrences := by
  have hself : ∀ id, ((m.frozenElement pack q).atParam id).thaw.occurrences = [id] := by
    intro id
    rw [Substitution.atParam, frozenElement, Substitution.atElement, Substitution.get?_insert]
    by_cases hid : id = pack
    · rw [if_pos hid, hid]
      rfl
    · rw [if_neg hid]
      cases hb : (frozen m.model m.parameters).get? id with
      | none => rfl
      | some b =>
        obtain ⟨q', -, ⟨-, rfl⟩ | ⟨-, rfl⟩⟩ := PlaceholderSupply.exists_of_get?_frozen hb
        · rfl
        · rfl
  rw [Term.subst, Substitution.occurrences_thaw_apply (packFree_frozenElement hunique hpack q)
    inner hfree]
  simp only [hself, List.flatMap_singleton']

variable {inner : Term} (hpackOf : m.packOf inner = some pack)

include hpackOf

/-- An expansion stays one expansion, of what is seen inside it. -/
theorem substList_frozen (hq : m.parameters[pack]? = some q) (hisPack : m.model.isPack q = true) :
    Term.substList (frozen m.model m.parameters) [.expansion inner] =
      [.expansion (inner.subst (m.frozenElement pack q))] := by
  have hfrozen := PlaceholderSupply.frozen_pack hq hisPack
  rw [Term.substList, Substitution.applyList,
    Deduction.boundPack_of_packOf kinded_frozen hpackOf hfrozen]
  rfl

/-- The placeholders in an expansion stand for the elements of the same pack. -/
theorem boundPack_frozenElement
    (hunique : ∀ i j, m.isPack i = true → m.isPack j = true → i = j) (hσ : m.Suits σ)
    (hfree : inner.PlaceholderFree) {es : List Term} (hes : σ.get? pack = some (.pack es))
    (q : Parameter) :
    σ.boundPack (inner.subst (m.frozenElement pack q)).thaw = some (pack, es) := by
  have hpack : m.isPack pack = true := List.find?_some hpackOf
  rw [Substitution.boundPack, occurrences_thaw_frozenElement hunique hfree hpack q,
    ← Substitution.boundPack]
  exact Deduction.boundPack_of_packOf hσ.packs hpackOf hes

end Element

/-- An offset of a pattern without packs becomes, under the placeholders, what is realized as the
offset under the substitution. -/
theorem realize_offset (hσ : m.Suits σ) (hnone : ∀ id, m.isPack id = false) {p t : Term}
    (hfree : p.PlaceholderFree) (hclosed : t.occurrences = [])
    (h : (p.subst σ).same leaf t = true) :
    (p.subst (frozen m.model m.parameters)).realize σ = p.subst σ := by
  have hσfree : σ.PackFree := fun id us hus => Bool.eq_false_iff.mp (hnone id) (hσ.packs id us hus)
  have hfrozen : (frozen m.model m.parameters).PackFree := fun id us hus =>
    Bool.eq_false_iff.mp (hnone id) (kinded_frozen id us hus)
  have hsingles := hσfree.exists_single
    ((Term.occurrences_eq_of_same _ _ h).trans hclosed)
  have hget : ∀ id ∈ p.occurrences, ∃ q u, σ.get? id = some (.single u) ∧
      (frozen m.model m.parameters).get? id =
        some (.single (.placeholder ⟨id, m.model.argumentKind q⟩)) := by
    intro id hid
    obtain ⟨u, hu⟩ := hsingles id hid
    obtain ⟨q, hq, -⟩ := (Option.any_eq_true _ _).mp (hσ.singles id u hu).2
    exact ⟨q, u, hu, hσ.freezes.single id q u hq hu⟩
  refine Term.realize_subst hσfree hfree (fun id us hus => absurd hus (hfrozen id us)) ?_ ?_
  · rw [Term.subst, Substitution.occurrences_apply hfrozen, List.flatMap_eq_nil_iff]
    intro id hid
    obtain ⟨q, u, -, hq⟩ := hget id hid
    rw [Substitution.atParam, hq]
    rfl
  · intro id hid
    obtain ⟨q, u, hu, hq⟩ := hget id hid
    rw [hq, hu, Option.map_some, Binding.realize, Term.realize, Term.thaw, Term.subst,
      Substitution.apply, Substitution.atParam, hu]

/-- Offsets occur in patterns without packs only. -/
def OffsetsAllowed (m : Matching) (inside : Bool) (bases : List Term) : Prop :=
  bases = [] ∨ (inside = false ∧ ∀ id, m.isPack id = false)

theorem OffsetsAllowed.left {inside : Bool} {bs bs' : List Term}
    (h : m.OffsetsAllowed inside (bs ++ bs')) : m.OffsetsAllowed inside bs :=
  h.imp_left fun hnil => (List.append_eq_nil_iff.mp hnil).1

theorem OffsetsAllowed.right {inside : Bool} {bs bs' : List Term}
    (h : m.OffsetsAllowed inside (bs ++ bs')) : m.OffsetsAllowed inside bs' :=
  h.imp_left fun hnil => (List.append_eq_nil_iff.mp hnil).2

mutual

/-- **What a pattern reads fits the pattern with its placeholders.** -/
theorem fits_of_read (hmode : m.mode = .structural)
    (hunique : ∀ i j, m.isPack i = true → m.isPack j = true → i = j) (hσ : m.Suits σ) :
    ∀ (a t : Term) (k : Nat) (inside : Bool) (g w : Substitution) (xs : List Finding),
      a.PlaceholderFree → t.IsArgument → m.Freezes σ inside g w →
      m.OffsetsAllowed inside a.offsets → m.read a t k = some xs →
      (∀ f ∈ xs, f.HoldsFrom m m.model.sameLeaf σ w inside) → (a.subst g).Fits m.model.sameLeaf w t
  | .param id, t, k, inside, g, w, xs, _, _, hg, _, h, hholds => by
    obtain rfl := Option.some.inj h
    obtain ⟨haccepts, u, hu, hsame⟩ := hholds _ (List.mem_singleton_self _)
    obtain ⟨q, hq, hacc⟩ := (Option.any_eq_true _ _).mp haccepts
    rw [Term.subst, Substitution.apply, Substitution.atParam, hg.single id q u hq hu]
    exact ⟨m.model.admits_of_accepts hacc, u, hu, hsame⟩
  | .offset base delta, t, k, inside, g, w, xs, hfree, ht, hg, hoff, h, hholds => by
    obtain rfl := Option.some.inj h
    have hsame : ((Term.offset base delta).subst σ).same m.model.sameLeaf t = true :=
      hholds _ (List.mem_singleton_self _)
    rcases hoff with hnil | ⟨hin, hnone⟩
    · exact absurd hnil (List.cons_ne_nil _ _)
    · obtain ⟨hgeq, hweq⟩ := hg.top hin
      rw [hgeq, hweq]
      have hrealize := realize_offset hσ hnone hfree ht.closed hsame
      refine Term.fits_plus (s := base.subst (frozen m.model m.parameters)) ?_
      exact (congrArg (fun s => s.same m.model.sameLeaf t) hrealize).trans hsame
  | .placeholder _, t, k, inside, g, w, xs, hfree, _, _, _, _, _ =>
    absurd hfree (List.cons_ne_nil _ _)
  | .expansion inner, t, k, inside, g, w, xs, _, _, _, _, h, _ => by cases t <;> simp [read] at h
  | .type _, t, k, inside, g, w, xs, _, _, _, _, h, _
  | .template _, t, k, inside, g, w, xs, _, _, _, _, h, _
  | .value _ _, t, k, inside, g, w, xs, _, _, _, _, h, _ => by
    cases t <;> simp only [read, reduceCtorEq] at h
    split at h
    · rename_i hleaf
      exact hleaf
    · exact absurd h (Option.some_ne_none xs).symm
  | .pointer a, t, k, inside, g, w, xs, hfree, ht, hg, hoff, h, hholds => by
    cases t with
    | pointer t =>
      have hinner := fits_of_read hmode hunique hσ a t k inside g w xs hfree ⟨ht.normal, ht.closed⟩
        hg hoff h hholds
      exact ⟨t, rfl, hinner⟩
    | _ => simp [read] at h
  | .reference kind a, t, k, inside, g, w, xs, hfree, ht, hg, hoff, h, hholds => by
    cases t with
    | reference kind' t =>
      rw [read] at h
      split at h
      · rename_i heq
        subst heq
        obtain ⟨hr, hnormal⟩ := Term.isNormal_reference.mp ht.normal
        have hinner := fits_of_read hmode hunique hσ a t k inside g w xs hfree
          ⟨hnormal, ht.closed⟩ hg hoff h hholds
        exact Term.fits_refer hr hinner kind
      · exact absurd h (Option.some_ne_none xs).symm
    | _ => simp [read] at h
  | .qualified quals a, t, k, inside, g, w, xs, hfree, ht, hg, hoff, h, hholds => by
    rw [read_qualified hmode] at h
    split at h
    · rename_i hincludes
      have hinner := fits_of_read hmode hunique hσ a (t.withoutQuals quals) k inside g w xs hfree
        (ht.withoutQuals quals) hg hoff h hholds
      exact Term.fits_qualify ht.normal hincludes hinner
    · exact absurd h (Option.some_ne_none xs).symm
  | .apply head args, t, k, inside, g, w, xs, hfree, ht, hg, hoff, h, hholds => by
    cases t with
    | apply head' args' =>
      rw [read] at h
      obtain ⟨ys, zs, hys, hzs, rfl⟩ := Finding.join_eq_some.mp h
      obtain ⟨hhead, hargs⟩ := Finding.holdsFrom_join hholds
      obtain ⟨hfhead, hfargs⟩ := List.append_eq_nil_iff.mp hfree
      exact ⟨head', args', rfl,
        fits_of_read hmode hunique hσ head head' k inside g w ys hfhead ht.head hg hoff.left hys
          hhead,
        fitsList_of_readList hmode hunique hσ args args' k inside g w zs hfargs ht.args hg
          hoff.right hzs hargs⟩
    | _ => simp [read] at h

theorem fitsList_of_readList (hmode : m.mode = .structural)
    (hunique : ∀ i j, m.isPack i = true → m.isPack j = true → i = j) (hσ : m.Suits σ) :
    ∀ (as ts : List Term) (k : Nat) (inside : Bool) (g w : Substitution) (xs : List Finding),
      Term.placeholdersList as = [] → (∀ t ∈ ts, t.IsArgument) → m.Freezes σ inside g w →
      m.OffsetsAllowed inside (Term.offsetsList as) → m.readList as ts k = some xs →
      (∀ f ∈ xs, f.HoldsFrom m m.model.sameLeaf σ w inside) →
      Term.FitsList m.model.sameLeaf (Term.substList g as) w ts
  | [], ts, k, inside, g, w, xs, _, _, _, _, h, _ => by
    cases ts with
    | nil => rfl
    | cons t ts => exact absurd h (Option.some_ne_none xs).symm
  | a :: as, ts, k, inside, g, w, xs, hfree, hts, hg, hoff, h, hholds => by
    obtain ⟨hfa, hfas⟩ := List.append_eq_nil_iff.mp hfree
    by_cases hexp : a.isExpansion = true
    · obtain ⟨inner, rfl⟩ := Term.exists_of_isExpansion hexp
      obtain ⟨pack, found, ys, hpackOf, hread, hys, rfl⟩ := readList_expansion_eq_some.mp h
      obtain ⟨⟨hin, es, hes, helements⟩, htail⟩ := List.forall_mem_cons.mp hholds
      obtain ⟨hgeq, hweq⟩ := hg.top hin
      have hpack : m.isPack pack = true := List.find?_some hpackOf
      obtain ⟨q, hq, hisPack⟩ := exists_parameter hpack
      have hallowed : m.OffsetsAllowed true inner.offsets := by
        rcases hoff.left with hnil | ⟨-, hnone⟩
        · exact .inl hnil
        · rw [hnone pack] at hpack
          exact Bool.noConfusion hpack
      have hblock : List.Forall₂ (fun e t => e.isExpansion = t.isExpansion ∧
          (inner.subst (m.frozenElement pack q)).Fits m.model.sameLeaf (σ.atElement pack e)
            t.expanded) es ts := by
        clear h hholds hes
        induction helements generalizing ts with
        | nil =>
          cases hread
          exact .nil
        | @cons e x es found hx _ ih =>
          cases hread with
          | @cons t _ ts _ ht hread =>
            obtain ⟨rfl, hi⟩ := ht
            have hrest := ih ts (fun u hu => hts u (List.mem_cons_of_mem _ hu)) hread
            refine .cons ⟨hx.shape, ?_⟩ hrest
            exact fits_of_read hmode hunique hσ inner x.1.expanded k true _ _ _ hfa
              (hts x.1 List.mem_cons_self).expanded (hσ.freezes_element hq e) hallowed hi
              hx.holdsFrom
      have hbound := boundPack_frozenElement hpackOf hunique hσ hfa hes q
      have hrest := fitsList_of_readList hmode hunique hσ as [] k inside g w ys hfas
        (fun _ ht => absurd ht List.not_mem_nil) hg hoff.right hys htail
      rw [Term.substList_cons, hgeq, substList_frozen hpackOf hq hisPack, ← hgeq]
      rw [← hweq] at hbound hblock
      exact ⟨pack, es, ts, [], (List.append_nil ts).symm, hbound, hblock, hrest⟩
    · rw [Bool.not_eq_true] at hexp
      obtain ⟨t, ts, ys, zs, rfl, hys, hzs, rfl⟩ := (readList_cons_eq_some hexp).mp h
      obtain ⟨hhead, htail⟩ := Finding.holdsFrom_join hholds
      have hfirst := fits_of_read hmode hunique hσ a t k inside g w ys hfa
        (hts t List.mem_cons_self) hg hoff.left hys hhead
      have hrest := fitsList_of_readList hmode hunique hσ as ts k inside g w zs hfas
        (fun u hu => hts u (List.mem_cons_of_mem _ hu)) hg hoff.right hzs htail
      have hsubst : Term.substList g (a :: as) = a.subst g :: Term.substList g as :=
        Substitution.applyList_cons hexp as g
      have hshape : (a.subst g).isExpansion = false := by
        cases ha : a.subst g with
        | expansion inner =>
          rw [ha] at hfirst
          exact hfirst.elim
        | _ => rfl
      rw [hsubst, Term.fitsList_cons hshape]
      exact ⟨t, ts, rfl, hfirst, hrest⟩

end

end Matching

/-- **Every list that a pattern takes fits its image,** under the substitution found. -/
theorem Pattern.image_fits {model : TypeModel} (hrefl : ∀ n, model.sameLeaf n n = true)
    (htrans : ∀ k l n, model.sameLeaf k l = true → model.sameLeaf l n = true →
      model.sameLeaf k n = true)
    {a : Pattern} (hfree : Term.placeholdersList a.args = [])
    (hslots : ∀ slot ∈ a.slots, slot.default = none)
    (hunique : ∀ i j, (Matching.structural model a.parameters).isPack i = true →
      (Matching.structural model a.parameters).isPack j = true → i = j)
    (hoffsets : (Matching.structural model a.parameters).OffsetsAllowed false
      (Term.offsetsList a.args))
    {targets : List Term} (htargets : ∀ t ∈ targets, t.IsArgument) {σ : Substitution}
    (h : a.match? model .structural .empty targets = some σ) :
    Term.FitsList model.sameLeaf (a.image model) σ targets ∧
      (Matching.structural model a.parameters).Suits σ := by
  obtain ⟨xs, hxs, hholds, hσ, -⟩ := Matching.exists_reading hrefl htrans hslots h
  refine ⟨?_, hσ⟩
  exact Matching.fitsList_of_readList rfl hunique hσ a.args targets 0 false _ _ xs hfree htargets
    hσ.freezes hoffsets hxs fun f hf => (hholds f hf).holdsFrom

end TemplateResolution
