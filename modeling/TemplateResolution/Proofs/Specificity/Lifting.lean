import TemplateResolution.Proofs.Matching.Arguments
import TemplateResolution.Proofs.Matching.Soundness
import TemplateResolution.Proofs.Placeholder.Fitting

/-!
# Lifting a reading

A pattern that reads terms with placeholders reads everything that fits them: where
it met a placeholder it binds a parameter, and the parameter then meets what stands
for the placeholder (`readList_lift`).  The two readings have their clues in the same
places, except that an expansion over a pack meets as many elements as that pack has
where it met one expansion before.

So if the first reading holds under some substitution, the second one holds under
the realized substitution (`Finding.Lifts.holds`).  In it a pack has each of its
expansions unrolled into the elements.
-/

namespace TemplateResolution

/-- The clue is not about an expansion. -/
def Clue.Settled : Clue → Prop
  | .bind _ t | .defer (.offset _ _) t => t.isExpansion = false
  | .defer _ _ | .convert _ => True

theorem Clue.Holds.settled {m : Matching} {leaf : String → String → Bool} {σ view : Substitution}
    {c : Clue} (h : c.Holds m leaf σ view) : c.Settled := by
  cases c with
  | bind id t =>
    obtain ⟨q, -, haccepts⟩ := (Option.any_eq_true _ _).mp h.1
    exact Deduction.isExpansion_of_accepts haccepts
  | defer pattern t =>
    cases pattern with
    | offset base delta =>
      rw [Clue.Settled, ← Term.isExpansion_eq_of_same h]
      exact Term.isExpansion_plus _ delta
    | _ => trivial
  | convert c => trivial

theorem Finding.Holds.settled {m : Matching} {leaf : String → String → Bool} {σ : Substitution}
    {f : Finding} (h : f.Holds m leaf σ) : ∀ c ∈ f.clues, c.Settled := by
  intro c hc
  cases f with
  | clue c' =>
    obtain rfl := List.mem_singleton.mp hc
    exact Clue.Holds.settled h
  | elements pack found =>
    obtain ⟨us, -, hus⟩ := h
    obtain ⟨x, hx, hc⟩ := List.mem_flatMap.mp hc
    obtain ⟨u, -, hu⟩ := (exists_mem_of_forall₂ hus).2 x hx
    exact (hu.clues c hc).settled

/-- A term with placeholders, as a pattern meets it.  Parameters may be left in it, but not if
offsets are considered. -/
structure Term.IsImage (offsets : Prop) (s : Term) : Prop where
  normal : s.isNormal = true
  closed : offsets → s.occurrences = []

namespace Term.IsImage

variable {offsets : Prop} {s : Term}

theorem argument (h : s.IsImage offsets) (hoffsets : offsets) : s.IsArgument :=
  ⟨h.normal, h.closed hoffsets⟩

theorem expanded (h : s.IsImage offsets) : s.expanded.IsImage offsets :=
  ⟨isNormal_expanded h.normal, fun ho => (h.argument ho).expanded.closed⟩

theorem withoutQuals (h : s.IsImage offsets) (quals : Qualifiers) :
    (s.withoutQuals quals).IsImage offsets :=
  ⟨isNormal_withoutQuals h.normal quals, fun ho => ((h.argument ho).withoutQuals quals).closed⟩

theorem head {head : Term} {args : List Term} (h : (apply head args).IsImage offsets) :
    head.IsImage offsets :=
  ⟨(isNormal_apply.mp h.normal).1, fun ho => (h.argument ho).head.closed⟩

theorem args {head : Term} {args : List Term} (h : (apply head args).IsImage offsets) :
    ∀ s ∈ args, s.IsImage offsets :=
  fun s hs => ⟨(isNormal_apply.mp h.normal).2 s hs, fun ho => ((h.argument ho).args s hs).closed⟩

end Term.IsImage

/-- The term `t` is one of those that `s` describes. -/
structure Term.Describes (leaf : String → String → Bool) (offsets : Prop) (w : Substitution)
    (s t : Term) : Prop where
  image : s.IsImage offsets
  normal : t.isNormal = true
  fits : s.Fits leaf w t

variable {leaf : String → String → Bool} {offsets : Prop}

namespace Term.Describes

variable {w : Substitution} {s t : Term}

theorem isExpansion_left (h : s.Describes leaf offsets w t) : s.isExpansion = false := by
  cases s with
  | expansion inner => exact h.fits.elim
  | _ => rfl

theorem isExpansion_right (h : s.Describes leaf offsets w t) : t.isExpansion = false :=
  isExpansion_of_fits h.image.normal h.fits

theorem same_realize (h : s.Describes leaf offsets w t) : (s.realize w).same leaf t = true :=
  same_of_fits s t w h.normal h.fits

theorem withoutQuals (h : s.Describes leaf offsets w t) {quals : Qualifiers}
    (hquals : s.quals.includes quals = true) :
    t.quals.includes quals = true ∧
      (s.withoutQuals quals).Describes leaf offsets w (t.withoutQuals quals) := by
  obtain ⟨hincludes, hfits⟩ := fits_withoutQuals h.image.normal h.normal h.fits hquals
  exact ⟨hincludes, h.image.withoutQuals quals, isNormal_withoutQuals h.normal quals, hfits⟩

end Term.Describes

/-- The same clue about a term and about one that it describes.  Something is deferred only if
offsets are considered. -/
inductive Clue.Lifts (leaf : String → String → Bool) (offsets : Prop) (w : Substitution) :
    Clue → Clue → Prop
  | bind (id : ParamId) {s t : Term} (h : s.Describes leaf offsets w t) :
      Lifts leaf offsets w (.bind id s) (.bind id t)
  | defer {p s t : Term} (hoffsets : offsets) (hp : p.PlaceholderFree)
      (h : s.Describes leaf offsets w t) : Lifts leaf offsets w (.defer p s) (.defer p t)

namespace Finding

/-- The elements found for a list with expansions and for one that it describes: what was found for
an expansion is found for each element of its pack. -/
inductive ElementsLift (leaf : String → String → Bool) (offsets : Prop) (w : Substitution) :
    List (Term × List Clue) → List (Term × List Clue) → Prop
  | nil : ElementsLift leaf offsets w [] []
  | one {s t : Term} {cs cs' : List Clue} {found found' : List (Term × List Clue)}
    (h : s.Describes leaf offsets w t) (hcs : List.Forall₂ (Clue.Lifts leaf offsets w) cs cs')
    (hrest : ElementsLift leaf offsets w found found') :
    ElementsLift leaf offsets w ((s, cs) :: found) ((t, cs') :: found')
  | many {s : Term} {pack : ParamId} {es : List Term} {cs : List Clue}
    {block found found' : List (Term × List Clue)} (hpack : w.get? pack = some (.pack es))
    (hblock : List.Forall₂ (fun e x => e.isExpansion = x.1.isExpansion ∧
      List.Forall₂ (Clue.Lifts leaf offsets (w.atElement pack e)) cs x.2) es block)
    (hrest : ElementsLift leaf offsets w found found') :
    ElementsLift leaf offsets w ((.expansion s, cs) :: found) (block ++ found')

inductive Lifts (leaf : String → String → Bool) (offsets : Prop) (w : Substitution) :
    Finding → Finding → Prop
  | clue {c c' : Clue} (h : c.Lifts leaf offsets w c') : Lifts leaf offsets w (.clue c) (.clue c')
  | elements (pack : ParamId) {found found' : List (Term × List Clue)}
    (h : ElementsLift leaf offsets w found found') :
    Lifts leaf offsets w (.elements pack found) (.elements pack found')

/-- Something is deferred only if offsets are considered. -/
theorem offsets_of_defer {w : Substitution} {cs cs' : List Clue}
    (h : List.Forall₂ (Clue.Lifts leaf offsets w) cs cs') {p t : Term} (ht : .defer p t ∈ cs') :
    offsets := by
  obtain ⟨c, -, hc⟩ := (exists_mem_of_forall₂ h).2 _ ht
  cases hc with
  | defer hoffsets => exact hoffsets

theorem Lifts.offsets_of_defer {w : Substitution} {f f' : Finding} (h : f.Lifts leaf offsets w f')
    {p t : Term} (ht : .defer p t ∈ f'.clues) : offsets := by
  cases h with
  | clue h => exact Finding.offsets_of_defer (.cons h .nil) ht
  | elements pack h =>
    obtain ⟨x, hx, hclue⟩ := List.mem_flatMap.mp ht
    clear ht
    induction h with
    | nil => exact absurd hx List.not_mem_nil
    | one _ hcs _ ih =>
      rcases List.mem_cons.mp hx with rfl | hx
      · exact Finding.offsets_of_defer hcs hclue
      · exact ih hx
    | many _ hblock _ ih =>
      rcases List.mem_append.mp hx with hx | hx
      · obtain ⟨e, -, -, hcs⟩ := (exists_mem_of_forall₂ hblock).2 x hx
        exact Finding.offsets_of_defer hcs hclue
      · exact ih hx

/-- A reading that runs over no pack lifts to such a reading. -/
theorem clues_of_lifts {w : Substitution} {cs : List Clue} :
    ∀ {ys : List Finding}, List.Forall₂ (Lifts leaf offsets w) (cs.map .clue) ys →
      ∃ cs', ys = cs'.map .clue ∧ List.Forall₂ (Clue.Lifts leaf offsets w) cs cs' := by
  induction cs with
  | nil =>
    intro ys h
    cases h
    exact ⟨[], rfl, .nil⟩
  | cons c cs ih =>
    intro ys h
    cases h with
    | cons hhead htail =>
      cases hhead with
      | clue hc =>
        obtain ⟨cs', rfl, hcs⟩ := ih htail
        exact ⟨_ :: cs', rfl, .cons hc hcs⟩

end Finding

namespace Matching

variable {m : Matching}

/-! ### Expansions as targets -/

/-- Only an expansion of the pattern takes an expansion. -/
theorem not_settled_expansion (hmode : m.mode = .structural) {s : Term} {k : Nat} :
    ∀ (p : Term) (xs : List Finding), m.read p (.expansion s) k = some xs →
      ¬∀ f ∈ xs, ∀ c ∈ f.clues, c.Settled
  | .param _, xs, h, hsettled | .offset _ _, xs, h, hsettled => by
    obtain rfl := Option.some.inj h
    exact Bool.noConfusion
      (hsettled _ (List.mem_singleton_self _) _ (List.mem_singleton_self _) : (true : Bool) = false)
  | .qualified quals inner, xs, h, hsettled => by
    rw [read_qualified hmode] at h
    split at h
    · rename_i hincludes
      obtain rfl := Qualifiers.eq_none_of_includes hincludes
      exact not_settled_expansion hmode inner xs h hsettled
    · exact absurd h (Option.some_ne_none xs).symm
  | .placeholder _, xs, h, _ | .type _, xs, h, _ | .value _ _, xs, h, _ | .template _, xs, h, _
  | .apply _ _, xs, h, _ | .pointer _, xs, h, _ | .reference _ _, xs, h, _
  | .expansion _, xs, h, _ => by simp [read] at h

/-! ### Lists of elements -/

variable {w : Substitution}

/-- What is read for an expansion is read for each of the elements that it stands for. -/
theorem block_lift {inner s : Term} {k : Nat} {cs : List Clue} {pack : ParamId}
    (hstep : ∀ t w, s.Describes leaf offsets w t → ∃ cs', m.read inner t k = some (cs'.map .clue) ∧
      List.Forall₂ (Clue.Lifts leaf offsets w) cs cs') (hs : s.IsImage offsets)
    {es block : List Term} (hblock : List.Forall₂ (fun e t => e.isExpansion = t.isExpansion ∧
      s.Fits leaf (w.atElement pack e) t.expanded) es block)
    (hnormal : ∀ t ∈ block, t.isNormal = true) :
    ∃ found, List.Forall₂ (m.FoundIn inner k) block found ∧
      List.Forall₂ (fun e x => e.isExpansion = x.1.isExpansion ∧
        List.Forall₂ (Clue.Lifts leaf offsets (w.atElement pack e)) cs x.2) es found := by
  induction hblock with
  | nil => exact ⟨[], .nil, .nil⟩
  | @cons e t es block het _ ih =>
    obtain ⟨found, hread, hlifts⟩ := ih fun u hu => hnormal u (List.mem_cons_of_mem _ hu)
    have htnormal := Term.isNormal_expanded (hnormal t List.mem_cons_self)
    obtain ⟨cs', hcs', hclues⟩ := hstep _ _ ⟨hs, htnormal, het.2⟩
    exact ⟨(t, cs') :: found, .cons ⟨rfl, hcs'⟩ hread, .cons ⟨het.1, hclues⟩ hlifts⟩

theorem elements_lift {inner : Term} {k : Nat}
    (hstep : ∀ s t w cs, s.Describes leaf offsets w t → m.read inner s k = some (cs.map .clue) →
      (∀ c ∈ cs, c.Settled) → ∃ cs', m.read inner t k = some (cs'.map .clue) ∧
        List.Forall₂ (Clue.Lifts leaf offsets w) cs cs')
    {ss : List Term} {found : List (Term × List Clue)}
    (hfound : List.Forall₂ (m.FoundIn inner k) ss found) :
    ∀ ts, Term.FitsList leaf ss w ts → (∀ s ∈ ss, s.IsImage offsets) →
      (∀ t ∈ ts, t.isNormal = true) → (∀ x ∈ found, ∀ c ∈ x.2, c.Settled) →
      ∃ found', List.Forall₂ (m.FoundIn inner k) ts found' ∧
        Finding.ElementsLift leaf offsets w found found' := by
  induction hfound with
  | nil =>
    intro ts hfits _ _ _
    obtain rfl : ts = [] := hfits
    exact ⟨[], .nil, .nil⟩
  | @cons s x ss found hx _ ih =>
    intro ts hfits hss hts hsettled
    obtain ⟨rfl, hread⟩ := hx
    obtain ⟨target, cs⟩ := x
    have hs := hss target List.mem_cons_self
    have hclues := hsettled (target, cs) List.mem_cons_self
    have hss' := fun u hu => hss u (List.mem_cons_of_mem _ hu)
    have hsettled' := fun y hy => hsettled y (List.mem_cons_of_mem _ hy)
    by_cases hexp : target.isExpansion = true
    · obtain ⟨s, rfl⟩ := Term.exists_of_isExpansion hexp
      obtain ⟨pack, es, block, rest, rfl, hpack, hblock, hrest⟩ := hfits
      have hstep' : ∀ t w, s.Describes leaf offsets w t →
          ∃ cs', m.read inner t k = some (cs'.map .clue) ∧
            List.Forall₂ (Clue.Lifts leaf offsets w) cs cs' :=
        fun t w hd => hstep s t w cs hd hread hclues
      obtain ⟨blocks, hblocks, hlifts⟩ := block_lift hstep' hs.expanded hblock
        fun t ht => hts t (List.mem_append_left _ ht)
      obtain ⟨found', hfound', hlifts'⟩ := ih rest hrest hss'
        (fun t ht => hts t (List.mem_append_right _ ht)) hsettled'
      exact ⟨blocks ++ found', List.rel_append hblocks hfound',
        .many (Substitution.boundPack_inv hpack).2 hlifts hlifts'⟩
    · rw [Bool.not_eq_true] at hexp
      obtain ⟨t, rest, rfl, ht, hrest⟩ := (Term.fitsList_cons hexp).mp hfits
      have hd : target.Describes leaf offsets w t := ⟨hs, hts t List.mem_cons_self, ht⟩
      rw [Term.expanded_eq_self hexp] at hread
      obtain ⟨cs', hcs', hlifts⟩ := hstep target t w cs hd hread hclues
      obtain ⟨found', hfound', hlifts'⟩ := ih rest hrest hss'
        (fun u hu => hts u (List.mem_cons_of_mem _ hu)) hsettled'
      rw [← Term.expanded_eq_self hd.isExpansion_right] at hcs'
      exact ⟨(t, cs') :: found', .cons ⟨rfl, hcs'⟩ hfound', .one hd hlifts hlifts'⟩

/-! ### Readings -/

theorem settled_join {xs ys : List Finding} (h : ∀ f ∈ xs ++ ys, ∀ c ∈ f.clues, c.Settled) :
    (∀ f ∈ xs, ∀ c ∈ f.clues, c.Settled) ∧ ∀ f ∈ ys, ∀ c ∈ f.clues, c.Settled :=
  ⟨fun f hf => h f (List.mem_append_left _ hf), fun f hf => h f (List.mem_append_right _ hf)⟩

mutual

/-- A pattern reads what is described by a term that it reads. -/
theorem read_lift (hmode : m.mode = .structural)
    (htrans : ∀ k l n, m.model.sameLeaf k l = true → m.model.sameLeaf l n = true →
      m.model.sameLeaf k n = true) :
    ∀ (p s t : Term) (k : Nat) (w : Substitution) (xs : List Finding), p.PlaceholderFree →
      (p.offsets = [] ∨ offsets) → s.Describes m.model.sameLeaf offsets w t →
      m.read p s k = some xs → (∀ f ∈ xs, ∀ c ∈ f.clues, c.Settled) →
      ∃ ys, m.read p t k = some ys ∧
        List.Forall₂ (Finding.Lifts m.model.sameLeaf offsets w) xs ys
  | .param id, s, t, k, w, xs, _, _, hd, h, _ => by
    obtain rfl := Option.some.inj h
    exact ⟨[.clue (.bind id t)], rfl, .cons (.clue (.bind id hd)) .nil⟩
  | .offset base delta, s, t, k, w, xs, hfree, hoff, hd, h, _ => by
    obtain rfl := Option.some.inj h
    have hoffsets : offsets := hoff.resolve_left (List.cons_ne_nil _ _)
    exact ⟨[.clue (.defer (.offset base delta) t)], rfl,
      .cons (.clue (.defer hoffsets hfree hd)) .nil⟩
  | .placeholder _, s, t, k, w, xs, hfree, _, _, _, _ => absurd hfree (List.cons_ne_nil _ _)
  | .expansion _, s, t, k, w, xs, _, _, _, h, _ => by cases s <;> simp [read] at h
  | .type _, s, t, k, w, xs, _, _, hd, h, _ | .template _, s, t, k, w, xs, _, _, hd, h, _ => by
    cases s <;> simp only [read, reduceCtorEq] at h
    split at h
    · rename_i hleaf
      obtain rfl := Option.some.inj h
      have hfits := hd.fits
      cases t <;> simp only [Term.Fits, Term.same, Bool.false_eq_true] at hfits
      exact ⟨[], by rw [read, if_pos (htrans _ _ _ hleaf hfits)], .nil⟩
    · exact absurd h (Option.some_ne_none xs).symm
  | .value _ _, s, t, k, w, xs, _, _, hd, h, _ => by
    cases s <;> simp only [read, reduceCtorEq] at h
    split at h
    · rename_i hguard
      obtain ⟨hnumber, hleaf⟩ := (Bool.and_eq_true _ _).mp hguard
      obtain rfl := Option.some.inj h
      have hfits := hd.fits
      cases t <;> simp only [Term.Fits, Term.same, Bool.false_eq_true, Bool.and_eq_true,
        beq_iff_eq] at hfits
      obtain ⟨rfl, hleaf'⟩ := hfits
      refine ⟨[], ?_, .nil⟩
      rw [read, if_pos ((Bool.and_eq_true _ _).mpr ⟨hnumber, htrans _ _ _ hleaf hleaf'⟩)]
    · exact absurd h (Option.some_ne_none xs).symm
  | .pointer p, s, t, k, w, xs, hfree, hoff, hd, h, hsettled => by
    cases s with
    | pointer s =>
      obtain ⟨t, rfl, hfits⟩ := hd.fits
      exact read_lift hmode htrans p s t k w xs hfree hoff
        ⟨⟨hd.image.normal, hd.image.closed⟩, hd.normal, hfits⟩ h hsettled
    | _ => simp [read] at h
  | .reference kind p, s, t, k, w, xs, hfree, hoff, hd, h, hsettled => by
    cases s with
    | reference kind' s =>
      obtain ⟨t, rfl, hfits⟩ := hd.fits
      rw [read] at h ⊢
      split at h
      · rename_i heq
        rw [if_pos heq]
        have hs := (Term.isNormal_reference.mp hd.image.normal).2
        have ht := (Term.isNormal_reference.mp hd.normal).2
        exact read_lift hmode htrans p s t k w xs hfree hoff
          ⟨⟨hs, hd.image.closed⟩, ht, hfits⟩ h hsettled
      · exact absurd h (Option.some_ne_none xs).symm
    | _ => simp [read] at h
  | .qualified quals inner, s, t, k, w, xs, hfree, hoff, hd, h, hsettled => by
    rw [read_qualified hmode] at h ⊢
    split at h
    · rename_i hincludes
      obtain ⟨hincludes', hd'⟩ := hd.withoutQuals hincludes
      rw [if_pos hincludes']
      exact read_lift hmode htrans inner _ _ k w xs hfree hoff hd' h hsettled
    · exact absurd h (Option.some_ne_none xs).symm
  | .apply head args, s, t, k, w, xs, hfree, hoff, hd, h, hsettled => by
    cases s with
    | apply shead sargs =>
      obtain ⟨thead, targs, rfl, hfhead, hfargs⟩ := hd.fits
      rw [read] at h
      obtain ⟨ys, zs, hys, hzs, rfl⟩ := Finding.join_eq_some.mp h
      obtain ⟨hshead, hsargs⟩ := settled_join hsettled
      obtain ⟨hpfhead, hpfargs⟩ := List.append_eq_nil_iff.mp hfree
      obtain ⟨hnhead, hnargs⟩ := Term.isNormal_apply.mp hd.normal
      obtain ⟨ys', hys', hlifts⟩ := read_lift hmode htrans head shead thead k w ys hpfhead
        (hoff.imp_left fun hnil => (List.append_eq_nil_iff.mp hnil).1)
        ⟨hd.image.head, hnhead, hfhead⟩ hys hshead
      obtain ⟨zs', hzs', hlifts'⟩ := readList_lift hmode htrans args sargs targs k w zs hpfargs
        (hoff.imp_left fun hnil => (List.append_eq_nil_iff.mp hnil).2) hd.image.args hnargs
        hfargs hzs hsargs
      refine ⟨ys' ++ zs', ?_, List.rel_append hlifts hlifts'⟩
      rw [read, hys', hzs']
      rfl
    | _ => simp [read] at h

/-- A list of patterns reads what is described by a list that it reads. -/
theorem readList_lift (hmode : m.mode = .structural)
    (htrans : ∀ k l n, m.model.sameLeaf k l = true → m.model.sameLeaf l n = true →
      m.model.sameLeaf k n = true) :
    ∀ (ps ss ts : List Term) (k : Nat) (w : Substitution) (xs : List Finding),
      Term.placeholdersList ps = [] → (Term.offsetsList ps = [] ∨ offsets) →
      (∀ s ∈ ss, s.IsImage offsets) → (∀ t ∈ ts, t.isNormal = true) →
      Term.FitsList m.model.sameLeaf ss w ts → m.readList ps ss k = some xs →
      (∀ f ∈ xs, ∀ c ∈ f.clues, c.Settled) →
      ∃ ys, m.readList ps ts k = some ys ∧
        List.Forall₂ (Finding.Lifts m.model.sameLeaf offsets w) xs ys
  | [], ss, ts, k, w, xs, _, _, _, _, hfits, h, _ => by
    cases ss with
    | nil =>
      obtain rfl : ts = [] := hfits
      obtain rfl := Option.some.inj h
      exact ⟨[], rfl, .nil⟩
    | cons s ss => exact absurd h (Option.some_ne_none xs).symm
  | p :: ps, ss, ts, k, w, xs, hfree, hoff, hss, hts, hfits, h, hsettled => by
    obtain ⟨hfp, hfps⟩ := List.append_eq_nil_iff.mp hfree
    have hoff' : p.offsets = [] ∨ offsets :=
      hoff.imp_left fun hnil => (List.append_eq_nil_iff.mp hnil).1
    have hoffs : Term.offsetsList ps = [] ∨ offsets :=
      hoff.imp_left fun hnil => (List.append_eq_nil_iff.mp hnil).2
    by_cases hexp : p.isExpansion = true
    · obtain ⟨inner, rfl⟩ := Term.exists_of_isExpansion hexp
      obtain ⟨pack, found, ys, hpack, hfound, hys, rfl⟩ := readList_expansion_eq_some.mp h
      obtain ⟨hhead, htail⟩ := List.forall_mem_cons.mp hsettled
      have hclues : ∀ x ∈ found, ∀ c ∈ x.2, c.Settled := fun x hx c hc =>
        hhead c (List.mem_flatMap.mpr ⟨x, hx, hc⟩)
      have hstep : ∀ s t w cs, s.Describes m.model.sameLeaf offsets w t →
          m.read inner s k = some (cs.map .clue) → (∀ c ∈ cs, c.Settled) →
          ∃ cs', m.read inner t k = some (cs'.map .clue) ∧
            List.Forall₂ (Clue.Lifts m.model.sameLeaf offsets w) cs cs' := by
        intro s t w cs hd hread hcs
        obtain ⟨ys, hys, hlifts⟩ := read_lift hmode htrans inner s t k w _ hfp hoff' hd hread
          fun f hf c hc => by
            obtain ⟨c', hc', rfl⟩ := List.mem_map.mp hf
            obtain rfl := List.mem_singleton.mp hc
            exact hcs c hc'
        obtain ⟨cs', rfl, hclues⟩ := Finding.clues_of_lifts hlifts
        exact ⟨cs', hys, hclues⟩
      obtain ⟨found', hfound', hlifts⟩ := elements_lift hstep hfound ts hfits hss hts hclues
      obtain ⟨ys', hys', hlifts'⟩ := readList_lift hmode htrans ps [] [] k w ys hfps hoffs
        (fun _ hs => absurd hs List.not_mem_nil) (fun _ ht => absurd ht List.not_mem_nil) rfl hys
        htail
      exact ⟨.elements pack found' :: ys',
        readList_expansion_eq_some.mpr ⟨pack, found', ys', hpack, hfound', hys', rfl⟩,
        .cons (.elements pack hlifts) hlifts'⟩
    · rw [Bool.not_eq_true] at hexp
      obtain ⟨s, ss, ys, zs, rfl, hys, hzs, rfl⟩ := (readList_cons_eq_some hexp).mp h
      obtain ⟨hhead, htail⟩ := settled_join hsettled
      by_cases hsexp : s.isExpansion = true
      · obtain ⟨s, rfl⟩ := Term.exists_of_isExpansion hsexp
        exact absurd hhead (not_settled_expansion hmode p ys hys)
      · rw [Bool.not_eq_true] at hsexp
        obtain ⟨t, rest, rfl, ht, hrest⟩ := (Term.fitsList_cons hsexp).mp hfits
        obtain ⟨ys', hys', hlifts⟩ := read_lift hmode htrans p s t k w ys hfp hoff'
          ⟨hss s List.mem_cons_self, hts t List.mem_cons_self, ht⟩ hys hhead
        obtain ⟨zs', hzs', hlifts'⟩ := readList_lift hmode htrans ps ss rest k w zs hfps hoffs
          (fun u hu => hss u (List.mem_cons_of_mem _ hu))
          (fun u hu => hts u (List.mem_cons_of_mem _ hu)) hrest hzs htail
        exact ⟨ys' ++ zs',
          (readList_cons_eq_some hexp).mpr ⟨t, rest, ys', zs', rfl, hys', hzs', rfl⟩,
          List.rel_append hlifts hlifts'⟩

end

end Matching

end TemplateResolution
