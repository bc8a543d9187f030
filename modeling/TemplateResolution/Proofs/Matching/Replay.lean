import TemplateResolution.Proofs.Matching.Bindings
import TemplateResolution.Proofs.Matching.Sifting

/-!
# Replaying a match

A match can be repeated with some of what it found bound from the start.  What was
bound by the first run is then confirmed, since every term is the same as itself, and
the rest is found again (`follow_replays`).  So the second run comes to the same end
(`run_replays`), provided that it reads the same: being bound from the start makes a
difference to a reading only where it keeps a parameter from being forwarded
(`read_withSeeded`).
-/

namespace TemplateResolution

namespace Matching

/-- The same matching, but with these parameters bound from the start. -/
def withSeeded (m : Matching) (ids : List ParamId) : Matching := { m with seeded := ids }

variable {m : Matching}

/-! ### Reading with parameters bound from the start -/

theorem readElements_congr {f g : Nat → Term → Option (List Finding)} {ts : List Term} :
    ∀ {n : Nat}, (∀ i t, ts[i]? = some t → f (n + i) t.expanded = g (n + i) t.expanded) →
      readElements f n ts = readElements g n ts := by
  induction ts with
  | nil => exact fun _ => rfl
  | cons t ts ih =>
    intro n h
    have hrest : readElements f (n + 1) ts = readElements g (n + 1) ts := by
      refine ih fun i u hu => ?_
      rw [Nat.succ_add_eq_add_succ]
      exact h (i + 1) u hu
    have hhead : f n t.expanded = g n t.expanded := h 0 t rfl
    rw [readElements, readElements, hhead, hrest]

/-- Inside a term no parameter is forwarded. -/
theorem read_withSeeded (ids : List ParamId) (p t : Term) (k : Nat) :
    (m.withSeeded ids).read p t k = m.read p t k := by
  have hsifts : Sifts (fun _ => true) m (m.withSeeded ids) :=
    ⟨rfl, rfl, fun _ _ => rfl, fun _ _ _ => (Finding.filter_passes_true _).symm⟩
  rw [read_sifts hsifts p t k (.inl fun _ _ => rfl), Finding.filter_passes_true]

end Matching

namespace Deduction

variable {m : Matching} {σ : Substitution} {d d' e : Deduction}

/-! ### Following the same clues again -/

/-- `e` is `d` with more parameters bound, each to what it is bound to in `σ`. -/
structure Replays (σ : Substitution) (d e : Deduction) : Prop where
  element : e.element = d.element
  deferred : e.deferred = d.deferred
  conversions : e.substitution.conversions = d.substitution.conversions
  found : ∀ id b, d.substitution.get? id = some b → e.substitution.get? id = some b
  ahead : ∀ id b, e.substitution.get? id = some b → σ.get? id = some b

/-- All bindings of `d` are those of `σ`. -/
def Within (σ : Substitution) (d : Deduction) : Prop :=
  ∀ id b, d.substitution.get? id = some b → σ.get? id = some b

theorem Within.of_keeps (h : Within σ d') (hkeeps : Keeps d d') : Within σ d :=
  fun id b hb => h id b (hkeeps.bindings id b hb)

namespace Replays

theorem of_element (h : Replays σ d e) (element : Option (ParamId × Option Term)) :
    Replays σ { d with element := element } { e with element := element } :=
  ⟨rfl, h.deferred, h.conversions, h.found, h.ahead⟩

theorem pack? (h : Replays σ d e) : e.pack? = d.pack? := by
  rw [Deduction.pack?, h.element, ← Deduction.pack?]

/-- A new binding, found by both or found by `d` only now. -/
theorem insert (h : Replays σ d e) {id : ParamId} {b : Binding} (hσ : σ.get? id = some b) :
    Replays σ { d with substitution := d.substitution.insert id b }
      { e with substitution := e.substitution.insert id b } := by
  refine ⟨h.element, h.deferred, h.conversions, fun j c hj => ?_, fun j c hj => ?_⟩
  · rw [Substitution.get?_insert] at hj ⊢
    split
    · rename_i heq
      rwa [if_pos heq] at hj
    · rename_i hne
      rw [if_neg hne] at hj
      exact h.found j c hj
  · rw [Substitution.get?_insert] at hj
    split at hj
    · rename_i heq
      rwa [heq, ← hj]
    · exact h.ahead j c hj

theorem insert_left (h : Replays σ d e) {id : ParamId} {b : Binding}
    (hb : e.substitution.get? id = some b) :
    Replays σ { d with substitution := d.substitution.insert id b } e := by
  refine ⟨h.element, h.deferred, h.conversions, fun j c hj => ?_, h.ahead⟩
  rw [Substitution.get?_insert] at hj
  split at hj
  · rename_i heq
    rwa [heq, ← hj]
  · exact h.found j c hj

end Replays

variable (hrefl : ∀ n, m.model.sameLeaf n n = true) (ids : List ParamId)
include hrefl

theorem followClue_replays {c : Clue} (hde : Replays σ d e) (h : d.followClue m c = some d')
    (hσ : Within σ d') :
    ∃ e', e.followClue (m.withSeeded ids) c = some e' ∧ Replays σ d' e' := by
  cases c with
  | convert c =>
    obtain rfl := Option.some.inj h
    refine ⟨_, rfl, hde.element, hde.deferred, ?_, hde.found, hde.ahead⟩
    change _ ++ _ = _ ++ _
    rw [hde.conversions]
  | defer pattern t =>
    obtain rfl := Option.some.inj h
    exact ⟨_, rfl, hde.element, congrArg (List.cons _) hde.deferred, hde.conversions, hde.found,
      hde.ahead⟩
  | bind id t =>
    obtain ⟨haccepts, hmeets⟩ := bindArgument_eq_some.mp h
    have hmeets' : ∃ e', Meets (m.withSeeded ids) id t e e' ∧ Replays σ d' e' := by
      cases hmeets with
      | newElement helement =>
        exact ⟨_, .newElement (hde.element.trans helement), hde.of_element _⟩
      | oldElement helement hu =>
        exact ⟨e, .oldElement (hde.element.trans helement) hu, hde⟩
      | newSingle hne hid hget =>
        have hbound : σ.get? id = some (.single t) :=
          hσ id _ (Substitution.get?_insert_self d.substitution id (.single t))
        cases hget' : e.substitution.get? id with
        | none =>
          exact ⟨_, .newSingle (hde.pack? ▸ hne) hid hget', hde.insert hbound⟩
        | some b =>
          obtain rfl := Option.some.inj (hbound.symm.trans (hde.ahead id b hget'))
          exact ⟨e, .oldSingle (hde.pack? ▸ hne) hid hget' (Term.same_refl hrefl t),
            hde.insert_left hget'⟩
      | oldSingle hne hid hget hu =>
        exact ⟨e, .oldSingle (hde.pack? ▸ hne) hid (hde.found id _ hget) hu, hde⟩
    obtain ⟨e', he', hreplays⟩ := hmeets'
    exact ⟨e', bindArgument_eq_some.mpr ⟨haccepts, he'⟩, hreplays⟩

theorem followClues_replays {cs : List Clue} : ∀ {d d' e : Deduction}, Replays σ d e →
    d.followClues m cs = some d' → Within σ d' →
    ∃ e', e.followClues (m.withSeeded ids) cs = some e' ∧ Replays σ d' e' := by
  induction cs with
  | nil =>
    intro d d' e hde h _
    obtain rfl := Option.some.inj h
    exact ⟨e, rfl, hde⟩
  | cons c cs ih =>
    intro d d' e hde h hσ
    obtain ⟨d₁, hd₁, h⟩ := Option.bind_eq_some_iff.mp h
    obtain ⟨e₁, he₁, hreplays⟩ :=
      followClue_replays hrefl ids hde hd₁ (hσ.of_keeps (followClues_keeps h))
    obtain ⟨e', he', hreplays'⟩ := ih hreplays h hσ
    exact ⟨e', by rw [followClues, he₁, Option.bind_some, he'], hreplays'⟩

/-- The same elements are found again. -/
theorem gather_replays {pack : ParamId} {found : List (Term × List Clue)} :
    ∀ {d d' e : Deduction} {elements : List Term}, Replays σ d e →
      d.gather m pack found = some (elements, d') → Within σ d' →
      ∃ e', e.gather (m.withSeeded ids) pack found = some (elements, e') ∧ Replays σ d' e' := by
  induction found with
  | nil =>
    intro d d' e elements hde h _
    obtain ⟨rfl, rfl⟩ := Prod.mk.inj (Option.some.inj h)
    exact ⟨e, rfl, hde⟩
  | cons x found ih =>
    intro d d' e elements hde h hσ
    obtain ⟨target, cs⟩ := x
    obtain ⟨d₁, t, rest, hd₁, helement, hrest, rfl⟩ := gather_cons_eq_some.mp h
    have hσ₁ : Within σ d₁ := fun id b hb =>
      hσ id b ((gather_keeps hrest).1.bindings id b hb)
    obtain ⟨e₁, he₁, hreplays⟩ :=
      followClues_replays hrefl ids (hde.of_element (some (pack, none))) hd₁ hσ₁
    obtain ⟨e', he', hreplays'⟩ := ih (hreplays.of_element none) hrest hσ
    have helement' := hreplays.element.trans helement
    exact ⟨e', gather_cons_eq_some.mpr ⟨e₁, t, rest, he₁, helement', he', rfl⟩, hreplays'⟩

theorem bindPack_replays {pack : ParamId} {elements : List Term} (hde : Replays σ d e)
    (h : d.bindPack m pack elements = some d') (hσ : Within σ d') :
    ∃ e', e.bindPack (m.withSeeded ids) pack elements = some e' ∧ Replays σ d' e' := by
  rcases bindPack_eq_some.mp h with ⟨us, hget, hsame, rfl⟩ | ⟨hget, rfl⟩
  · exact ⟨e, bindPack_eq_some.mpr (.inl ⟨us, hde.found pack _ hget, hsame, rfl⟩), hde⟩
  · have hbound : σ.get? pack = some (.pack elements) :=
      hσ pack _ (Substitution.get?_insert_self d.substitution pack (.pack elements))
    cases hget' : e.substitution.get? pack with
    | none => exact ⟨_, bindPack_eq_some.mpr (.inr ⟨hget', rfl⟩), hde.insert hbound⟩
    | some b =>
      obtain rfl := Option.some.inj (hbound.symm.trans (hde.ahead pack b hget'))
      exact ⟨e, bindPack_eq_some.mpr
        (.inl ⟨elements, hget', Term.sameList_refl hrefl elements, rfl⟩), hde.insert_left hget'⟩

theorem followFinding_replays {f : Finding} (hde : Replays σ d e)
    (h : d.followFinding m f = some d') (hσ : Within σ d') :
    ∃ e', e.followFinding (m.withSeeded ids) f = some e' ∧ Replays σ d' e' := by
  cases f with
  | clue c => exact followClue_replays hrefl ids hde h hσ
  | elements pack found =>
    obtain ⟨helement, elements, d₁, hgather, hbind⟩ := followFinding_elements_eq_some.mp h
    obtain ⟨e₁, he₁, hreplays⟩ :=
      gather_replays hrefl ids hde hgather (hσ.of_keeps (bindPack_keeps hbind).1)
    obtain ⟨e', he', hreplays'⟩ := bindPack_replays hrefl ids hreplays hbind hσ
    have helement' := hde.element.trans helement
    exact ⟨e', followFinding_elements_eq_some.mpr ⟨helement', elements, e₁, he₁, he'⟩, hreplays'⟩

/-- **What a run has found can be found again from a part of it.** -/
theorem follow_replays {found : List Finding} : ∀ {d d' e : Deduction}, Replays σ d e →
    d.follow m found = some d' → Within σ d' →
    ∃ e', e.follow (m.withSeeded ids) found = some e' ∧ Replays σ d' e' := by
  induction found with
  | nil =>
    intro d d' e hde h _
    obtain rfl := Option.some.inj h
    exact ⟨e, rfl, hde⟩
  | cons f found ih =>
    intro d d' e hde h hσ
    obtain ⟨d₁, hd₁, h⟩ := Option.bind_eq_some_iff.mp h
    obtain ⟨e₁, he₁, hreplays⟩ :=
      followFinding_replays hrefl ids hde hd₁ (hσ.of_keeps (follow_keeps h).1)
    obtain ⟨e', he', hreplays'⟩ := ih hreplays h hσ
    exact ⟨e', by rw [follow, he₁, Option.bind_some, he'], hreplays'⟩

end Deduction

namespace Matching

/-- **A run that reads the same from a part of what it found comes to the same end.**  Only the
order of the bindings can be another. -/
theorem run_replays {model : TypeModel} (hrefl : ∀ n, model.sameLeaf n n = true)
    {mode : MatchMode} {parameters : List Parameter} {slots : List Slot} {targets : List Term}
    {σ seed : Substitution} (h : run model mode parameters slots .empty targets = some σ)
    (hconversions : seed.conversions = [])
    (hseed : ∀ id b, seed.get? id = some b → σ.get? id = some b)
    (hread : let m : Matching := { model, mode, parameters }
      (m.withSeeded seed.ids).readSlots slots 0 targets = m.readSlots slots 0 targets) :
    ∃ τ, run model mode parameters slots seed targets = some τ ∧
      (∀ id, τ.get? id = σ.get? id) ∧ τ.conversions = σ.conversions := by
  obtain ⟨xs, d, hxs, hfollow, hdeferred, rfl⟩ := run_eq_some.mp h
  have hstart : Deduction.Replays d.substitution (.start .empty) (.start seed) :=
    ⟨rfl, rfl, hconversions, fun _ _ hb => absurd hb (Option.some_ne_none _).symm, hseed⟩
  obtain ⟨e, he, hreplays⟩ := Deduction.follow_replays hrefl seed.ids hstart hfollow
    fun _ _ hb => hb
  have hsame : ∀ id, e.substitution.get? id = d.substitution.get? id := by
    intro id
    cases hget : d.substitution.get? id with
    | some b => exact hreplays.found id b hget
    | none =>
      rw [Option.eq_none_iff_forall_ne_some]
      intro b hb
      exact absurd (hreplays.ahead id b hb) (hget ▸ (Option.some_ne_none b).symm)
  refine ⟨e.substitution, run_eq_some.mpr ⟨xs, e, hread.trans hxs, he, ?_, rfl⟩, hsame,
    hreplays.conversions⟩
  intro pt hpt
  rw [hreplays.deferred] at hpt
  rw [Term.subst, Substitution.apply_congr pt.1 fun id _ => hsame id]
  exact hdeferred pt hpt

end Matching

end TemplateResolution
