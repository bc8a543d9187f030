import TemplateResolution.Proofs.Specificity.Copies

/-!
# Numbers of parameters

A parameter is a position in a list, and which position it has, what it is called and what it
defaults to says nothing about the pattern.  A pattern that differs from another in these alone
renumbers it (`Pattern.Renumbers`); what the defaults of its slots are may differ as well, but not
which slots have one.  In a comparison, at any use-site, and as a declaration, the two come out the
same (`compareAt_renumbered`).

Numbers matter in one place.  What an offset is written over is not deduced but checked when
everything else is, and a parameter that nothing is bound to stands for itself there.  If one is
left standing in the image of the other pattern, too, the two are compared by their numbers
(`compareAt_numbers`).  So where one pattern has offsets, nothing may be left standing in the image
of the other (`Side.Apart`), and nothing is if its packs stand in lists (`Pattern.Grounded.apart`).
-/

namespace TemplateResolution

namespace Term

variable {ρ : Equiv.Perm ParamId}

mutual

theorem erase_relabel : ∀ t : Term, (t.relabel ρ).erase = t.erase.relabel ρ
  | param _ | placeholder _ | type _ | value _ _ | template _ => rfl
  | apply head args => by
    rw [relabel, erase, erase, relabel, erase_relabel head, eraseList_relabel args]
  | pointer t | expansion t => by rw [relabel, erase, erase, relabel, erase_relabel t]
  | qualified _ t | reference _ t => erase_relabel t
  | offset t delta => by rw [relabel, erase, erase, erase_relabel t, plus_relabel]

theorem eraseList_relabel : ∀ ts : List Term,
    eraseList (relabelList ρ ts) = relabelList ρ (eraseList ts)
  | [] => rfl
  | t :: ts => by
    rw [relabelList, eraseList, eraseList, relabelList, erase_relabel t, eraseList_relabel ts]

end

mutual

theorem offsets_erase_eq_nil : ∀ {t : Term}, t.offsets = [] → t.erase.offsets = []
  | param _, _ | placeholder _, _ | type _, _ | value _ _, _ | template _, _ => rfl
  | apply head args, h => by
    obtain ⟨hhead, hargs⟩ := List.append_eq_nil_iff.mp h
    exact List.append_eq_nil_iff.mpr ⟨offsets_erase_eq_nil hhead, offsetsList_erase_eq_nil hargs⟩
  | pointer t, h | expansion t, h | qualified _ t, h | reference _ t, h =>
    offsets_erase_eq_nil (t := t) h
  | offset _ _, h => absurd h (List.cons_ne_nil _ _)

theorem offsetsList_erase_eq_nil : ∀ {ts : List Term}, offsetsList ts = [] →
    offsetsList (eraseList ts) = []
  | [], _ => rfl
  | t :: ts, h => by
    obtain ⟨ht, hts⟩ := List.append_eq_nil_iff.mp h
    exact List.append_eq_nil_iff.mpr ⟨offsets_erase_eq_nil ht, offsetsList_erase_eq_nil hts⟩

end

theorem offsets_decayed : ∀ t : Term, t.decayed.offsets = t.offsets
  | expansion inner => offsets_decayed inner
  | qualified _ _ | param _ | placeholder _ | type _ | value _ _ | template _ | apply _ _
  | pointer _ | reference _ _ | offset _ _ => rfl

end Term

/-! ### Verdicts -/

namespace Verdict

variable {ρ : Equiv.Perm ParamId}

theorem ofTerms_relabel (a b : Term) : ofTerms (a.relabel ρ) b = ofTerms a b := by
  cases a with
  | reference kind t => cases b <;> simp [Term.relabel, ofTerms]
  | _ => rfl

/-- Only the decorations of the slots are looked at. -/
theorem ofSlots_relabel {slots slots' : List Slot}
    (h : slots'.map (·.term) = Term.relabelList ρ (slots.map (·.term))) (others : List Slot) :
    ofSlots slots' others = ofSlots slots others := by
  have hterms : ∀ slots : List Slot, ofSlots slots others =
      mergeAll (List.zipWith (fun t other => ofTerms t.expanded other.term.expanded)
        (slots.map (·.term)) others) := by
    intro slots
    rw [ofSlots, List.zipWith_map_left]
  rw [hterms, hterms, h, Term.relabelList_eq_map, List.zipWith_map_left]
  simp only [Term.expanded_relabel, ofTerms_relabel]

end Verdict

/-! ### Sides -/

/-- The second is a copy of the first, and the same slots carry a default. -/
structure Side.Renumbers (model : TypeModel) (ρ : Equiv.Perm ParamId) (s s' : Side) : Prop
    extends s.Copies model ρ s' where
  defaults : s'.slots.map (·.default.isSome) = s.slots.map (·.default.isSome)

/-- No offset in `s` meets a parameter that is left standing in the image of `t`. -/
def Side.Apart (model : TypeModel) (s t : Side) : Prop :=
  Term.offsetsList s.args = [] ∨ Term.occurrencesList (t.image model) = []

namespace Side

variable {model : TypeModel} {ρ : Equiv.Perm ParamId} {s s' t : Side} {arity : Nat}

theorem args_take (arity : Nat) (s : Side) : (s.take arity).args = s.args.take arity :=
  List.map_take

namespace Renumbers

theorem take (h : s.Renumbers model ρ s') (arity : Nat) :
    (s.take arity).Renumbers model ρ (s'.take arity) := by
  refine ⟨⟨h.traits, ?_⟩, ?_⟩
  · rw [args_take, args_take, h.args, Term.relabelList_eq_map, Term.relabelList_eq_map,
      List.map_take]
  · rw [Side.take, Side.take, List.map_take, List.map_take, h.defaults]

theorem mapTerms (h : s.Renumbers model ρ s') {f : Term → Term}
    (hf : ∀ t : Term, f (t.relabel ρ) = (f t).relabel ρ) :
    (s.mapTerms f).Renumbers model ρ (s'.mapTerms f) := by
  refine ⟨h.toCopies.mapTerms hf, ?_⟩
  have hdefaults : ∀ s : Side, (s.mapTerms f).slots.map (·.default.isSome) =
      s.slots.map (·.default.isSome) := fun s => List.map_map
  rw [hdefaults, hdefaults, h.defaults]

end Renumbers

namespace Apart

theorem take (h : s.Apart model t) (arity : Nat) :
    (s.take arity).Apart model (t.take arity) := by
  refine h.imp (fun hoffsets => ?_) fun himage => ?_
  · rw [args_take]
    exact Term.offsetsList_eq_nil.mpr fun u hu =>
      Term.offsetsList_eq_nil.mp hoffsets u (List.mem_of_mem_take hu)
  · have hsplit : t.image model =
        (t.take arity).image model ++
          Term.substList (PlaceholderSupply.frozen model t.parameters) (t.args.drop arity) := by
      have happend := Substitution.applyList_append
        (PlaceholderSupply.frozen model t.parameters) (t.args.take arity) (t.args.drop arity)
      rw [List.take_append_drop, ← args_take] at happend
      exact happend
    rw [hsplit, Term.occurrencesList_append] at himage
    exact (List.append_eq_nil_iff.mp himage).1

theorem erase (h : s.Apart model t) :
    (s.mapTerms Term.erase).Apart model (t.mapTerms Term.erase) := by
  have hgrounding := PlaceholderSupply.grounding_frozen model t.parameters
  refine h.imp (fun hoffsets => ?_) fun himage => ?_
  · rw [args_mapTerms, ← Term.eraseList_eq_map]
    exact Term.offsetsList_erase_eq_nil hoffsets
  · rw [Side.image, args_mapTerms, ← Term.eraseList_eq_map]
    exact (Substitution.occurrencesList_erase_eq_nil t.args hgrounding (.refl hgrounding) himage).2

theorem decayed (h : s.Apart model t) :
    (s.mapTerms Term.decayed).Apart model (t.mapTerms Term.decayed) := by
  refine h.imp (fun hoffsets => ?_) fun himage => ?_
  · rw [args_mapTerms]
    refine Term.offsetsList_eq_nil.mpr (List.forall_mem_map.mpr fun u hu => ?_)
    rw [Term.offsets_decayed]
    exact Term.offsetsList_eq_nil.mp hoffsets u hu
  · rw [Side.image, args_mapTerms]
    exact Substitution.occurrencesList_decayed_eq_nil
      (PlaceholderSupply.grounding_frozen model t.parameters) himage

end Apart

end Side

/-! ### Matching either way -/

namespace Comparator

variable (c : Comparator) {ρ : Equiv.Perm ParamId} {s s' t : Side} {mode : MatchMode}

/-- **What takes a pattern takes it with other numbers.** -/
theorem takes_renumbered (hmode : mode ≠ .call) (ht : t.PlaceholderFree) (hs : s.PlaceholderFree)
    (h : s.Copies c.model ρ s') (hapart : t.Apart c.model s) :
    c.takes mode t s' = c.takes mode t s := by
  rcases hapart with hoffsets | hclosed
  · have hrelabel : Matching.run c.model mode t.parameters t.slots .empty (s'.image c.model) =
        (Matching.run c.model mode t.parameters t.slots .empty
          (Term.renameList ρ (s.image c.model))).map (Substitution.relabel (.refl ParamId) ρ) := by
      rw [h.image_relabel hs]
      exact Matching.run_relabel_slots hmode (fun _ => rfl) (Term.relabelList_refl t.args).symm rfl
        (.inr hoffsets)
    rw [c.run_renamed_image mode ht, Option.map_map] at hrelabel
    exact c.takes_of_map hrelabel
  · exact c.takes_copy mode ht hs hclosed h

/-- **With other numbers a pattern takes what it took.** -/
theorem renumbered_takes (hmode : mode ≠ .call) (h : s.Renumbers c.model ρ s')
    (hapart : s.Apart c.model t) : c.takes mode s' t = c.takes mode s t := by
  obtain ⟨τ, hτ, himage⟩ : ∃ τ, (ρ = τ ∨ Term.offsetsList s.args = []) ∧
      Term.relabelList τ (t.image c.model) = t.image c.model := by
    rcases hapart with hoffsets | hclosed
    · exact ⟨.refl ParamId, .inr hoffsets, Term.relabelList_refl _⟩
    · exact ⟨ρ, .inl rfl, Term.relabelList_of_closed hclosed⟩
  have hrun : Matching.run c.model mode s'.parameters s'.slots .empty
        (Term.relabelList τ (t.image c.model)) =
      (Matching.run c.model mode s.parameters s.slots .empty (t.image c.model)).map
        (Substitution.relabel ρ τ) :=
    Matching.run_relabel_slots hmode h.traits h.args h.defaults hτ
  rw [himage] at hrun
  exact c.takes_of_map hrun

theorem interchangeable_renumbered (hs : s.PlaceholderFree) (ht : t.PlaceholderFree)
    (h : s.Renumbers c.model ρ s') (hst : s.Apart c.model t) (hts : t.Apart c.model s) :
    c.interchangeable s' t = c.interchangeable s t := by
  have hmode : MatchMode.structural ≠ .call := MatchMode.noConfusion
  rw [interchangeable, interchangeable, c.renumbered_takes hmode h hst,
    c.takes_renumbered hmode ht hs h.toCopies hts]

end Comparator

/-! ### Patterns -/

namespace Pattern

/-- `q` is `p` with other numbers, names and defaults for its parameters, `ρ id` in the place of
`id`, and maybe other defaults in the slots that have one. -/
def Renumbers (model : TypeModel) (ρ : Equiv.Perm ParamId) (p q : Pattern) : Prop :=
  (Side.ofPattern p).Renumbers model ρ (Side.ofPattern q)

/-- No offset in `p` meets a parameter that is left standing in the image of `q`. -/
def Apart (model : TypeModel) (p q : Pattern) : Prop :=
  (Side.ofPattern p).Apart model (Side.ofPattern q)

instance (model : TypeModel) (p q : Pattern) : Decidable (p.Apart model q) :=
  inferInstanceAs (Decidable (_ ∨ _))

/-- Where packs stand in lists, nothing is left standing. -/
theorem Grounded.apart {model : TypeModel} {p : Pattern} (h : p.Grounded) (hp : p.WellFormed model)
    (q : Pattern) : q.Apart model p :=
  .inr (h.closed hp).image

end Pattern

namespace Comparator

variable (c : Comparator) {ρ : Equiv.Perm ParamId} {a a' b : Pattern}

theorem sideAt_renumbers (h : a.Renumbers c.model ρ a') (site : Option UseSite) :
    (c.sideAt site a).Renumbers c.model ρ (c.sideAt site a') := by
  rcases c.sideAt_cases site with hside | ⟨arity, hside⟩
  · rw [hside, hside]
    exact h
  · rw [hside, hside]
    exact h.take arity

theorem sideAt_apart (h : a.Apart c.model b) (site : Option UseSite) :
    (c.sideAt site a).Apart c.model (c.sideAt site b) := by
  rcases c.sideAt_cases site with hside | ⟨arity, hside⟩
  · rw [hside, hside]
    exact h
  · rw [hside, hside]
    exact h.take arity

theorem conversionsFound_renumbered {s s' t : Side} (hs : s.PlaceholderFree)
    (ht : t.PlaceholderFree) (h : s.Renumbers c.model ρ s') (hst : s.Apart c.model t)
    (hts : t.Apart c.model s) (site : Option UseSite) :
    c.conversionsFound s' t site = c.conversionsFound s t site := by
  have herased : c.interchangeable (s'.mapTerms Term.erase) (t.mapTerms Term.erase) =
      c.interchangeable (s.mapTerms Term.erase) (t.mapTerms Term.erase) :=
    c.interchangeable_renumbered hs.mapTerms_erase ht.mapTerms_erase
      (h.mapTerms Term.erase_relabel) hst.erase hts.erase
  rw [conversionsFound, conversionsFound, herased]

/-- Weighing looks at packs and decorations, not at numbers. -/
theorem weigh_renumbered {s s' t : Side} (hvariadic : a'.isVariadic = a.isVariadic)
    (h : s.Copies c.model ρ s') (v : Verdict) (aFromB bFromA : Bool) :
    c.weigh a' b s' t v aFromB bFromA = c.weigh a b s t v aFromB bFromA := by
  have htie : ∀ bothWays, c.breakTie a' b s' t bothWays = c.breakTie a b s t bothWays := by
    intro bothWays
    rw [breakTie, breakTie, hvariadic, Verdict.ofSlots_relabel h.args]
  simp only [weigh, htie]

theorem outcome_renumbered (ha : a.PlaceholderFree) (hb : b.PlaceholderFree)
    (h : a.Renumbers c.model ρ a') (hab : a.Apart c.model b) (hba : b.Apart c.model a)
    (site : Option UseSite) : c.outcome a' b site = c.outcome a b site := by
  have hmode : c.flavor.orderingMode ≠ .call := by
    cases c.flavor <;> exact MatchMode.noConfusion
  have hsides := c.sideAt_renumbers h site
  have hab := c.sideAt_apart hab site
  have hba := c.sideAt_apart hba site
  have ha := c.sideAt_placeholderFree ha site
  have hb := c.sideAt_placeholderFree hb site
  have hvariadic : a'.isVariadic = a.isVariadic := Pattern.Copies.isVariadic h.toCopies
  rw [outcome, outcome, c.takes_renumbered hmode hb ha hsides.toCopies hba,
    c.renumbered_takes hmode hsides hab, c.conversionsFound_renumbered ha hb hsides hab hba,
    c.weigh_renumbered hvariadic hsides.toCopies]

theorem coincides_renumbered (ha : a.PlaceholderFree) (hb : b.PlaceholderFree)
    (h : a.Renumbers c.model ρ a') (hab : a.Apart c.model b) (hba : b.Apart c.model a) :
    c.coincides a' b = c.coincides a b := by
  rw [coincides, coincides, declared, declared, declared]
  cases c.flavor with
  | functionLike =>
    exact c.interchangeable_renumbered ha.mapTerms_decayed hb.mapTerms_decayed
      (h.mapTerms Term.decayed_relabel) hab.decayed hba.decayed
  | classLike => exact c.interchangeable_renumbered ha hb h hab hba

/-- **A comparison regards a pattern up to the numbers of its parameters,** and so does the question
whether two patterns declare the same: what the parameters are numbered, called and default to, and
what the defaults of slots are, changes nothing, at whatever use-site and after whatever other
comparisons. -/
theorem compareAt_renumbered (ha : a.PlaceholderFree) (hb : b.PlaceholderFree)
    (h : a.Renumbers c.model ρ a') (hab : a.Apart c.model b) (hba : b.Apart c.model a)
    (site : Option UseSite) (supply supply' : PlaceholderSupply) :
    ((c.compareAt a' b site).run supply').1 = ((c.compareAt a b site).run supply).1 ∧
      ((c.equivalent a' b).run supply').1 = ((c.equivalent a b).run supply).1 := by
  have ha' : a'.PlaceholderFree := Pattern.Copies.placeholderFree h.toCopies ha
  constructor
  · rw [c.compareAt_run_fst ha' hb, c.compareAt_run_fst ha hb, c.outcome_renumbered ha hb h hab hba]
  · obtain ⟨_, hrun'⟩ := c.equivalent_run ha' hb supply'
    obtain ⟨_, hrun⟩ := c.equivalent_run ha hb supply
    rw [hrun', hrun]
    exact c.coincides_renumbered ha hb h hab hba

/-- `f(T, A<N, N+1>, T* = int*)` with its parameters the other way round and another default, where
two arguments are passed to it or to `f(T*, A<N, N+1>)`. -/
theorem compareAt_renumbered_swapped :
    let c : Comparator := ⟨AliasTable.empty.model, {}, .functionLike⟩
    let a := Pattern.overload "f"
      [{ name := "T", kind := .type }, { name := "N", kind := .value, valueType := some "int" }]
      [⟨.param 0, none⟩, ⟨.apply (.template "A") [.param 1, .offset (.param 1) 1], none⟩,
        ⟨.pointer (.param 0), some (.pointer (.type "int"))⟩]
    let a' := Pattern.overload "f"
      [{ name := "M", kind := .value, valueType := some "int", default := some (.value 1 "int") },
        { name := "U", kind := .type }]
      [⟨.param 1, none⟩, ⟨.apply (.template "A") [.param 0, .offset (.param 0) 1], none⟩,
        ⟨.pointer (.param 1), some (.type "long")⟩]
    let b := Pattern.overload "f"
      [{ name := "T", kind := .type }, { name := "N", kind := .value, valueType := some "int" }]
      [⟨.pointer (.param 0), none⟩, ⟨.apply (.template "A") [.param 1, .offset (.param 1) 1], none⟩]
    let site : UseSite := ⟨2, .empty, .empty⟩
    a.PlaceholderFree ∧ b.PlaceholderFree ∧ a.Renumbers c.model (Equiv.swap 0 1) a' ∧
      a.Apart c.model b ∧ b.Apart c.model a ∧
      ((c.compareAt a b site).run ⟨0⟩).1 = ⟨.bMoreSpecific, .deduction, false, true⟩ ∧
      ((c.compareAt a' b site).run ⟨5⟩).1 = ⟨.bMoreSpecific, .deduction, false, true⟩ ∧
      ((c.equivalent a' b).run ⟨5⟩).1 = ((c.equivalent a b).run ⟨0⟩).1 := by
  intro c a a' b site
  have ha : a.PlaceholderFree := by decide
  have hb : b.PlaceholderFree := by decide
  have hcopies : a.Copies c.model (Equiv.swap 0 1) a' :=
    Pattern.copies_of_swap AliasTable.empty rfl rfl rfl rfl (by decide)
  have h : a.Renumbers c.model (Equiv.swap 0 1) a' := ⟨hcopies, rfl⟩
  have hab : a.Apart c.model b := .inr rfl
  have hba : b.Apart c.model a := .inr rfl
  have hcompare : ((c.compareAt a b site).run ⟨0⟩).1 = ⟨.bMoreSpecific, .deduction, false, true⟩ :=
    rfl
  obtain ⟨hsame, hequivalent⟩ := c.compareAt_renumbered ha hb h hab hba site ⟨0⟩ ⟨5⟩
  exact ⟨ha, hb, h, hab, hba, hcompare, hsame.trans hcompare, hequivalent⟩

/-- In `f(Ns...+1, T)` the expansion is no item of a list, and `Ns` is left standing in the image.
There the pattern's own `Ns` meets it, but not with another number. -/
theorem compareAt_numbers :
    let c : Comparator := ⟨AliasTable.empty.model, {}, .functionLike⟩
    let a := Pattern.overload "f"
      [{ name := "Ns", kind := .value, pack := true }, { name := "T", kind := .type }]
      [⟨.offset (.expansion (.param 0)) 1, none⟩, ⟨.param 1, none⟩]
    let a' := Pattern.overload "f"
      [{ name := "T", kind := .type }, { name := "Ns", kind := .value, pack := true }]
      [⟨.offset (.expansion (.param 1)) 1, none⟩, ⟨.param 0, none⟩]
    a.PlaceholderFree ∧ a.Renumbers c.model (Equiv.swap 0 1) a' ∧
      (Registry.standard.registerAll [a, a']).isOk = true ∧
      (Registry.standard.registerAll [a, a]).isOk = false ∧
      ((c.compare a a).run {}).1 = ⟨.unordered, .equallySpecialized, true, true⟩ ∧
      ((c.compare a' a).run {}).1 = ⟨.unordered, .incomparable, false, false⟩ ∧
      ((c.equivalent a a).run {}).1 = true ∧ ((c.equivalent a' a).run {}).1 = false := by
  intro c a a'
  have hcopies : a.Copies c.model (Equiv.swap 0 1) a' :=
    Pattern.copies_of_swap AliasTable.empty rfl rfl rfl rfl (by decide)
  exact ⟨by decide, ⟨hcopies, rfl⟩, rfl, rfl, rfl, rfl, rfl, rfl⟩

end Comparator

end TemplateResolution
