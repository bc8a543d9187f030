import TemplateResolution.Proofs.Matching.Completion
import TemplateResolution.Proofs.Matching.Reading
import TemplateResolution.Proofs.Substitution.Congruence
import Mathlib.Data.List.Forall2

/-!
# What a reading says about a substitution

A reading holds under a substitution when every clue in it is true: a parameter
stands for a term that is the same as the target and is accepted for it, and a
deferred pattern becomes its target.  Inside an expansion the pack stands for one of
its elements.

Matching and holding are two sides of one thing.  A match returns a substitution
under which its reading holds (`exists_reading`).  And if a reading holds under some
substitution, the match succeeds, with bindings that agree with it (`run_of_holds`):
whatever order the clues come in, a binding that was found first is confirmed by the
others, since all of them are the same as what the substitution has.
-/

namespace TemplateResolution

/-- In two lists that are related term by term, everything has its counterpart. -/
theorem exists_mem_of_forall₂ {α β : Type} {R : α → β → Prop} {as : List α} {bs : List β}
    (h : List.Forall₂ R as bs) : (∀ a ∈ as, ∃ b ∈ bs, R a b) ∧ ∀ b ∈ bs, ∃ a ∈ as, R a b := by
  induction h with
  | nil => exact ⟨fun _ ha => absurd ha List.not_mem_nil, fun _ hb => absurd hb List.not_mem_nil⟩
  | @cons a b as bs hab _ ih =>
    constructor
    · intro c hc
      rcases List.mem_cons.mp hc with rfl | hc
      · exact ⟨b, List.mem_cons_self, hab⟩
      · obtain ⟨d, hd, hcd⟩ := ih.1 c hc
        exact ⟨d, List.mem_cons_of_mem _ hd, hcd⟩
    · intro d hd
      rcases List.mem_cons.mp hd with rfl | hd
      · exact ⟨a, List.mem_cons_self, hab⟩
      · obtain ⟨c, hc, hcd⟩ := ih.2 d hd
        exact ⟨c, List.mem_cons_of_mem _ hc, hcd⟩

/-- Packs are bound to lists, and all other parameters to single terms of their kinds. -/
structure Matching.Suits (m : Matching) (σ : Substitution) : Prop where
  packs : m.Kinded σ
  singles : ∀ id t, σ.get? id = some (.single t) →
    m.isPack id = false ∧ m.parameters[id]?.any (m.model.accepts · t) = true

theorem Matching.suits_empty (m : Matching) : m.Suits .empty :=
  ⟨fun _ _ h => absurd h (Option.some_ne_none _).symm,
    fun _ _ h => absurd h (Option.some_ne_none _).symm⟩

/-- The clue is true of `σ`, where `view` tells what the parameters stand for at its place. -/
def Clue.Holds (m : Matching) (leaf : String → String → Bool) (σ view : Substitution) :
    Clue → Prop
  | .bind id t => m.parameters[id]?.any (m.model.accepts · t) = true ∧
      ∃ u, view.get? id = some (.single u) ∧ u.same leaf t = true
  | .defer pattern t => (pattern.subst σ).same leaf t = true
  | .convert _ => True

/-- `e` is the element of `pack` that was found for a target of an expansion. -/
structure Finding.HoldsAt (m : Matching) (leaf : String → String → Bool) (σ : Substitution)
    (pack : ParamId) (e : Term) (found : Term × List Clue) : Prop where
  shape : e.isExpansion = found.1.isExpansion
  bound : ∃ t, .bind pack t ∈ found.2
  clues : ∀ c ∈ found.2, c.Holds m leaf σ (σ.atElement pack e)

namespace Finding

def Holds (m : Matching) (leaf : String → String → Bool) (σ : Substitution) : Finding → Prop
  | .clue c => c.Holds m leaf σ σ
  | .elements pack found =>
    ∃ ts, σ.get? pack = some (.pack ts) ∧ List.Forall₂ (HoldsAt m leaf σ pack) ts found

/-- The finding holds, seen from a place where `w` tells what the parameters stand for; inside an
expansion no elements are found. -/
def HoldsFrom (m : Matching) (leaf : String → String → Bool) (σ w : Substitution)
    (inside : Bool) : Finding → Prop
  | .clue c => c.Holds m leaf σ w
  | .elements pack found => inside = false ∧ (Finding.elements pack found).Holds m leaf σ

section

variable {m : Matching} {leaf : String → String → Bool} {σ w : Substitution} {inside : Bool}

theorem Holds.holdsFrom {f : Finding} (h : f.Holds m leaf σ) : f.HoldsFrom m leaf σ σ false := by
  cases f with
  | clue c => exact h
  | elements pack found => exact ⟨rfl, h⟩

/-- The clues to an element hold inside the expansion. -/
theorem HoldsAt.holdsFrom {pack : ParamId} {e : Term} {x : Term × List Clue}
    (h : HoldsAt m leaf σ pack e x) :
    ∀ f ∈ x.2.map Finding.clue, f.HoldsFrom m leaf σ (σ.atElement pack e) true := by
  intro f hf
  obtain ⟨c, hc, rfl⟩ := List.mem_map.mp hf
  exact h.clues c hc

theorem holdsFrom_join {xs ys : List Finding}
    (h : ∀ f ∈ xs ++ ys, f.HoldsFrom m leaf σ w inside) :
    (∀ f ∈ xs, f.HoldsFrom m leaf σ w inside) ∧ ∀ f ∈ ys, f.HoldsFrom m leaf σ w inside :=
  ⟨fun f hf => h f (List.mem_append_left _ hf), fun f hf => h f (List.mem_append_right _ hf)⟩

end

/-- All clues, those to the elements of a pack included. -/
def clues : Finding → List Clue
  | .clue c => [c]
  | .elements _ found => found.flatMap (·.2)

/-- An element is found for packs only. -/
def OverPacks (m : Matching) : Finding → Prop
  | .clue _ => True
  | .elements pack _ => m.isPack pack = true

/-- Following the finding leaves the parameter bound. -/
def Binds (f : Finding) (id : ParamId) : Prop :=
  (∃ found, f = .elements id found) ∨ ∃ t, .bind id t ∈ f.clues

theorem binds_elements {pack id : ParamId} {found : List (Term × List Clue)} :
    (elements pack found).Binds id ↔ id = pack ∨ ∃ x ∈ found, ∃ t, .bind id t ∈ x.2 := by
  have hpack : (∃ xs, elements pack found = elements id xs) ↔ id = pack := by
    simp [eq_comm (a := id)]
  rw [Binds, hpack, clues]
  refine or_congr Iff.rfl ⟨?_, ?_⟩
  · rintro ⟨t, ht⟩
    obtain ⟨x, hx, ht⟩ := List.mem_flatMap.mp ht
    exact ⟨x, hx, t, ht⟩
  · rintro ⟨x, hx, t, ht⟩
    exact ⟨t, List.mem_flatMap.mpr ⟨x, hx, ht⟩⟩

end Finding

namespace Deduction

variable {m : Matching}

/-! ### The ways of binding -/

/-- A parameter meets a target: the pack in progress or another one, for the first time or again. -/
inductive Meets (m : Matching) (id : ParamId) (t : Term) (d : Deduction) : Deduction → Prop
  | newElement (h : d.element = some (id, none)) :
    Meets m id t d { d with element := some (id, some t) }
  | oldElement {u : Term} (h : d.element = some (id, some u)) (hu : m.model.sameTerm u t = true) :
    Meets m id t d d
  | newSingle (hne : d.pack? ≠ some id) (hid : m.isPack id = false)
    (h : d.substitution.get? id = none) :
    Meets m id t d { d with substitution := d.substitution.insert id (.single t) }
  | oldSingle {u : Term} (hne : d.pack? ≠ some id) (hid : m.isPack id = false)
    (h : d.substitution.get? id = some (.single u)) (hu : m.model.sameTerm u t = true) :
    Meets m id t d d

theorem bindSingle_eq_some {id : ParamId} {t : Term} {d d' : Deduction} {p : Parameter}
    (hp : m.parameters[id]? = some p) (hne : d.pack? ≠ some id) :
    d.bindSingle m id t = some d' ↔ Meets m id t d d' := by
  have hpack : m.isPack id = m.model.isPack p := by rw [Matching.isPack, hp, Option.any_some]
  rw [bindSingle, hp]
  dsimp only
  constructor
  · intro h
    split at h
    · exact absurd h (Option.some_ne_none d').symm
    · rename_i hid
      rw [← hpack, Bool.not_eq_true] at hid
      split at h
      · rename_i u hget
        split at h
        · rename_i hu
          obtain rfl := Option.some.inj h
          exact .oldSingle hne hid hget hu
        · exact absurd h (Option.some_ne_none d').symm
      · exact absurd h (Option.some_ne_none d').symm
      · rename_i hget
        obtain rfl := Option.some.inj h
        exact .newSingle hne hid hget
  · intro h
    cases h with
    | newElement h => exact absurd (by rw [pack?, h]; rfl) hne
    | oldElement h _ => exact absurd (by rw [pack?, h]; rfl) hne
    | newSingle _ hid h => simp [← hpack, hid, h]
    | oldSingle _ hid h hu => simp [← hpack, hid, h, hu]

theorem bindElement_eq_some {id : ParamId} {found : Option Term} {t : Term} {d d' : Deduction}
    (helement : d.element = some (id, found)) :
    d.bindElement m id found t = some d' ↔ Meets m id t d d' := by
  have hpack : d.pack? = some id := by rw [pack?, helement]; rfl
  constructor
  · intro h
    cases found with
    | none =>
      obtain rfl := Option.some.inj h
      exact .newElement helement
    | some u =>
      rw [bindElement] at h
      split at h
      · rename_i hu
        obtain rfl := Option.some.inj h
        exact .oldElement helement hu
      · exact absurd h (Option.some_ne_none d').symm
  · intro h
    cases h with
    | newElement h =>
      obtain ⟨-, rfl⟩ := Prod.mk.inj (Option.some.inj (helement.symm.trans h))
      rfl
    | oldElement h hu =>
      obtain ⟨-, rfl⟩ := Prod.mk.inj (Option.some.inj (helement.symm.trans h))
      rw [bindElement, if_pos hu]
    | newSingle hne _ _ => exact absurd hpack hne
    | oldSingle hne _ _ _ => exact absurd hpack hne

theorem bindArgument_eq_some {id : ParamId} {t : Term} {d d' : Deduction} :
    d.bindArgument m id t = some d' ↔
      m.parameters[id]?.any (m.model.accepts · t) = true ∧ Meets m id t d d' := by
  rw [bindArgument]
  cases haccepts : m.parameters[id]?.any (m.model.accepts · t) with
  | false => simp
  | true =>
    obtain ⟨p, hp, -⟩ := (Option.any_eq_true _ _).mp haccepts
    rw [if_pos rfl, bind]
    rcases helement : d.element with _ | ⟨pack, found⟩
    · have hne : d.pack? ≠ some id := by
        rw [pack?, helement]
        exact (Option.some_ne_none id).symm
      simpa using bindSingle_eq_some hp hne
    · by_cases heq : pack = id
      · subst heq
        simpa using bindElement_eq_some helement
      · have hne : d.pack? ≠ some id := by
          rw [pack?, helement]
          exact fun h => heq (Option.some.inj h)
        simpa [heq] using bindSingle_eq_some hp hne

theorem bindPack_eq_some {pack : ParamId} {elements : List Term} {d d' : Deduction} :
    d.bindPack m pack elements = some d' ↔
      (∃ us, d.substitution.get? pack = some (.pack us) ∧ m.model.sameTerms us elements = true ∧
        d' = d) ∨
      (d.substitution.get? pack = none ∧
        d' = { d with substitution := d.substitution.insert pack (.pack elements) }) := by
  rw [bindPack]
  rcases d.substitution.get? pack with _ | (u | us)
  · simp [eq_comm (a := d')]
  · simp
  · simp [eq_comm (a := d')]

/-! ### What is bound and what is deferred -/

/-- From `d` to `d'` the parameters in `bound` were bound, and of `cs` some clues were deferred. -/
structure Extends (m : Matching) (bound : ParamId → Prop) (cs : List Clue) (d d' : Deduction) :
    Prop where
  suits : m.Suits d.substitution → m.Suits d'.substitution
  bound : ∀ id, (d'.substitution.get? id).isSome = true ↔
    (d.substitution.get? id).isSome = true ∨ bound id
  deferred : ∀ pt ∈ d'.deferred, pt ∈ d.deferred ∨ .defer pt.1 pt.2 ∈ cs

namespace Extends

theorem refl {bound : ParamId → Prop} (d : Deduction)
    (h : ∀ id, bound id → (d.substitution.get? id).isSome = true) (cs : List Clue) :
    Extends m bound cs d d :=
  ⟨fun hs => hs, fun id => ⟨.inl, fun hid => hid.elim (fun hid => hid) (h id)⟩,
    fun _ hpt => .inl hpt⟩

theorem trans {bound bound' : ParamId → Prop} {cs cs' : List Clue} {d d' d'' : Deduction}
    (h : Extends m bound cs d d') (h' : Extends m bound' cs' d' d'') :
    Extends m (fun id => bound id ∨ bound' id) (cs ++ cs') d d'' := by
  refine ⟨fun hs => h'.suits (h.suits hs), ?_, ?_⟩
  · intro id
    rw [h'.bound, h.bound, or_assoc]
  · intro pt hpt
    rcases h'.deferred pt hpt with hpt | hpt
    · rcases h.deferred pt hpt with hpt | hpt
      · exact .inl hpt
      · exact .inr (List.mem_append_left _ hpt)
    · exact .inr (List.mem_append_right _ hpt)

theorem mono {bound bound' : ParamId → Prop} {cs : List Clue} {d d' : Deduction}
    (h : Extends m bound cs d d') (hbound : ∀ id, bound id ↔ bound' id) :
    Extends m bound' cs d d' :=
  ⟨h.suits, fun id => by rw [h.bound, hbound], h.deferred⟩

/-- The element in progress is no part of it. -/
theorem of_element {bound : ParamId → Prop} {cs : List Clue} {d d' : Deduction}
    (h : Extends m bound cs d d') (element element' : Option (ParamId × Option Term)) :
    Extends m bound cs { d with element := element } { d' with element := element' } :=
  ⟨h.suits, h.bound, h.deferred⟩

/-- One new binding, of the right form for its parameter. -/
theorem insert {d : Deduction} {id : ParamId} {b : Binding}
    (hpack : ∀ ts, b = .pack ts → m.isPack id = true)
    (hsingle : ∀ t, b = .single t →
      m.isPack id = false ∧ m.parameters[id]?.any (m.model.accepts · t) = true)
    (cs : List Clue) :
    Extends m (· = id) cs d { d with substitution := d.substitution.insert id b } := by
  refine ⟨?_, ?_, fun _ hpt => .inl hpt⟩
  · intro hs
    constructor
    · intro j ts hj
      rw [Substitution.get?_insert] at hj
      split at hj
      · rename_i heq
        exact heq ▸ hpack ts (Option.some.inj hj)
      · exact hs.packs j ts hj
    · intro j t hj
      rw [Substitution.get?_insert] at hj
      split at hj
      · rename_i heq
        exact heq ▸ hsingle t (Option.some.inj hj)
      · exact hs.singles j t hj
  · intro j
    rw [Substitution.get?_insert]
    by_cases hj : j = id <;> simp [hj]

end Extends

/-- The pack in progress is bound by the expansion as a whole. -/
theorem followClue_extends {c : Clue} {d d' : Deduction} (h : d.followClue m c = some d') :
    d'.pack? = d.pack? ∧
      Extends m (fun id => d.pack? ≠ some id ∧ ∃ t, c = .bind id t) [c] d d' := by
  cases c with
  | convert c =>
    obtain rfl := Option.some.inj h
    exact ⟨rfl, ⟨fun hs => ⟨hs.packs, hs.singles⟩, by simp, fun _ hpt => .inl hpt⟩⟩
  | defer pattern t =>
    obtain rfl := Option.some.inj h
    refine ⟨rfl, ⟨fun hs => hs, by simp [defer], ?_⟩⟩
    intro pt hpt
    rcases List.mem_cons.mp hpt with rfl | hpt
    · exact .inr (List.mem_singleton_self _)
    · exact .inl hpt
  | bind id t =>
    obtain ⟨haccepts, hmeets⟩ := bindArgument_eq_some.mp h
    cases hmeets with
    | newElement helement =>
      have hpack : d.pack? = some id := by rw [pack?, helement]; rfl
      refine ⟨hpack.symm, (Extends.refl d ?_ _).of_element d.element _⟩
      rintro j ⟨hne, t', heq⟩
      exact absurd (hpack.trans (congrArg some (Clue.bind.inj heq).1)) hne
    | oldElement helement hu =>
      have hpack : d.pack? = some id := by rw [pack?, helement]; rfl
      refine ⟨rfl, .refl d ?_ _⟩
      rintro j ⟨hne, t', heq⟩
      exact absurd (hpack.trans (congrArg some (Clue.bind.inj heq).1)) hne
    | newSingle hne hid hget =>
      have hbinding : ∀ u, Binding.single t = .single u →
          m.isPack id = false ∧ m.parameters[id]?.any (m.model.accepts · u) = true := by
        intro u hu
        exact ⟨hid, Binding.single.inj hu ▸ haccepts⟩
      refine ⟨rfl, (Extends.insert (fun ts hts => Binding.noConfusion hts) hbinding _).mono
        fun j => ⟨?_, ?_⟩⟩
      · rintro rfl
        exact ⟨hne, t, rfl⟩
      · rintro ⟨-, t', heq⟩
        exact (Clue.bind.inj heq).1.symm
    | oldSingle hne hid hget hu =>
      refine ⟨rfl, .refl d ?_ _⟩
      rintro j ⟨-, t', heq⟩
      rw [← (Clue.bind.inj heq).1, hget]
      rfl

theorem followClues_extends {cs : List Clue} : ∀ {d d' : Deduction},
    d.followClues m cs = some d' →
    d'.pack? = d.pack? ∧
      Extends m (fun id => d.pack? ≠ some id ∧ ∃ t, .bind id t ∈ cs) cs d d' := by
  induction cs with
  | nil =>
    intro d d' h
    obtain rfl := Option.some.inj h
    exact ⟨rfl, .refl d (by simp) _⟩
  | cons c cs ih =>
    intro d d' h
    obtain ⟨d₁, hd₁, h⟩ := Option.bind_eq_some_iff.mp h
    obtain ⟨hpack, hhead⟩ := followClue_extends hd₁
    obtain ⟨hpack', htail⟩ := ih h
    refine ⟨hpack'.trans hpack, (hhead.trans htail).mono fun id => ?_⟩
    rw [hpack, ← and_or_left, ← exists_or]
    simp only [List.mem_cons, eq_comm]

/-- One more element was gathered: the clues to it were followed, and they led to a term. -/
theorem gather_cons_eq_some {pack : ParamId} {target : Term} {cs : List Clue}
    {found : List (Term × List Clue)} {d d' : Deduction} {elements : List Term} :
    d.gather m pack ((target, cs) :: found) = some (elements, d') ↔
      ∃ d₁ t rest, { d with element := some (pack, none) }.followClues m cs = some d₁ ∧
        d₁.element = some (pack, some t) ∧
        { d₁ with element := none }.gather m pack found = some (rest, d') ∧
        elements = target.expandedLike t :: rest := by
  rw [gather]
  constructor
  · intro h
    split at h
    · exact absurd h (Option.some_ne_none _).symm
    · rename_i d₁ hd₁
      split at h
      · rename_i q t helement
        split at h
        · exact absurd h (Option.some_ne_none _).symm
        · rename_i rest d₂ hrest
          obtain ⟨rfl, rfl⟩ := Prod.mk.inj (Option.some.inj h)
          -- the pack in progress is still the same
          have hpack := (followClues_extends hd₁).1
          rw [pack?, helement] at hpack
          obtain rfl : q = pack := Option.some.inj hpack
          exact ⟨d₁, t, rest, hd₁, helement, hrest, rfl⟩
      · exact absurd h (Option.some_ne_none _).symm
  · rintro ⟨d₁, t, rest, hd₁, helement, hrest, rfl⟩
    rw [hd₁]
    dsimp only
    rw [helement]
    dsimp only
    rw [hrest]

theorem followFinding_elements_eq_some {pack : ParamId} {found : List (Term × List Clue)}
    {d d' : Deduction} :
    d.followFinding m (.elements pack found) = some d' ↔
      d.element = none ∧ ∃ elements d₁, d.gather m pack found = some (elements, d₁) ∧
        d₁.bindPack m pack elements = some d' := by
  rw [followFinding]
  cases d.element with
  | some _ => simp
  | none => simp [Option.bind_eq_some_iff]

theorem gather_extends {pack : ParamId} {found : List (Term × List Clue)} :
    ∀ {d d' : Deduction} {elements : List Term}, d.element = none →
      d.gather m pack found = some (elements, d') →
      d'.element = none ∧
        Extends m (fun id => id ≠ pack ∧ ∃ x ∈ found, ∃ t, .bind id t ∈ x.2)
          (found.flatMap (·.2)) d d' := by
  induction found with
  | nil =>
    intro d d' elements hd h
    obtain ⟨-, rfl⟩ := Prod.mk.inj (Option.some.inj h)
    exact ⟨hd, .refl d (by simp) _⟩
  | cons x found ih =>
    intro d d' elements hd h
    obtain ⟨target, cs⟩ := x
    obtain ⟨d₁, t, rest, hd₁, -, hrest, -⟩ := gather_cons_eq_some.mp h
    obtain ⟨-, hhead⟩ := followClues_extends hd₁
    obtain ⟨hd', htail⟩ := ih rfl hrest
    refine ⟨hd', ((hhead.of_element d.element none).trans htail).mono fun id => ?_⟩
    have hne : (some pack : Option ParamId) ≠ some id ↔ id ≠ pack := by
      rw [ne_eq, Option.some_inj, eq_comm]
    change ((some pack : Option ParamId) ≠ some id ∧ _) ∨ _ ↔ _
    rw [hne, ← and_or_left]
    simp only [List.mem_cons, exists_eq_or_imp]

theorem bindPack_extends {pack : ParamId} (hpack : m.isPack pack = true) {elements : List Term}
    {d d' : Deduction} (h : d.bindPack m pack elements = some d') :
    d'.element = d.element ∧ Extends m (· = pack) [] d d' := by
  rcases bindPack_eq_some.mp h with ⟨us, hget, -, rfl⟩ | ⟨-, rfl⟩
  · refine ⟨rfl, .refl _ ?_ _⟩
    rintro id rfl
    rw [hget]
    rfl
  · exact ⟨rfl, .insert (fun _ _ => hpack) (fun t ht => Binding.noConfusion ht) _⟩

theorem follow_extends {found : List Finding} :
    ∀ {d d' : Deduction}, (∀ f ∈ found, f.OverPacks m) → d.element = none →
      d.follow m found = some d' →
      d'.element = none ∧
        Extends m (fun id => ∃ f ∈ found, f.Binds id) (found.flatMap Finding.clues) d d' := by
  induction found with
  | nil =>
    intro d d' _ hd h
    obtain rfl := Option.some.inj h
    exact ⟨hd, .refl d (by simp) _⟩
  | cons f found ih =>
    intro d d' hpacks hd h
    obtain ⟨d₁, hd₁, h⟩ := Option.bind_eq_some_iff.mp h
    have hfinding : d₁.element = none ∧ Extends m f.Binds f.clues d d₁ := by
      cases f with
      | clue c =>
        obtain ⟨hpack, hclue⟩ := followClue_extends hd₁
        have hnone : d.pack? = none := by rw [pack?, hd]; rfl
        refine ⟨Option.map_eq_none_iff.mp (hpack.trans hnone), hclue.mono fun id => ?_⟩
        simp [Finding.Binds, Finding.clues, hnone, eq_comm]
      | elements pack xs =>
        obtain ⟨-, ts, d₂, hgather, hbind⟩ := followFinding_elements_eq_some.mp hd₁
        obtain ⟨hd₂, helements⟩ := gather_extends hd hgather
        obtain ⟨hd₃, hpack⟩ := bindPack_extends (hpacks _ List.mem_cons_self) hbind
        have hboth := helements.trans hpack
        rw [List.append_nil] at hboth
        refine ⟨hd₃.trans hd₂, hboth.mono fun id => ?_⟩
        rw [Finding.binds_elements]
        by_cases hid : id = pack <;> simp [hid]
    obtain ⟨hd', hrest⟩ := ih (fun g hg => hpacks g (List.mem_cons_of_mem _ hg)) hfinding.1 h
    refine ⟨hd', (hfinding.2.trans hrest).mono fun id => ?_⟩
    simp only [List.mem_cons, exists_eq_or_imp]

/-! ### A reading that was followed holds -/

section Sound

variable (hrefl : ∀ n, m.model.sameLeaf n n = true)
  (htrans : ∀ k l n, m.model.sameLeaf k l = true → m.model.sameLeaf l n = true →
    m.model.sameLeaf k n = true)

include hrefl htrans

theorem followClue_sound {c : Clue} {d d' : Deduction} (h : d.followClue m c = some d') :
    (d.Plain → d'.Plain) ∧ ∀ σ e, Completes m σ e d' →
      Completes m σ e d ∧ c.Holds m m.model.sameLeaf σ (d.view σ e) := by
  cases c with
  | convert c =>
    obtain rfl := Option.some.inj h
    exact ⟨fun hp => hp, fun σ e hσ =>
      ⟨⟨hσ.kinded, hσ.bound, hσ.deferred, hσ.pack, hσ.element⟩, trivial⟩⟩
  | defer pattern t =>
    obtain rfl := Option.some.inj h
    refine ⟨fun hp => hp, fun σ e hσ => ⟨⟨hσ.kinded, hσ.bound, ?_, hσ.pack, hσ.element⟩, ?_⟩⟩
    · exact fun pt hpt => hσ.deferred pt (List.mem_cons_of_mem _ hpt)
    · exact hσ.deferred _ List.mem_cons_self
  | bind id t =>
    have hexplains := bindArgument_explains hrefl htrans h
    refine ⟨hexplains.plain, fun σ e hσ => ?_⟩
    have hd := (hexplains.sound σ e hσ).1
    obtain ⟨haccepts, hmeets⟩ := bindArgument_eq_some.mp h
    refine ⟨hd, haccepts, ?_⟩
    cases hmeets with
    | newElement helement =>
      have hpack : d.pack? = some id := by rw [pack?, helement]; rfl
      exact ⟨e, get?_view_pack hpack σ e, hσ.element id t rfl⟩
    | @oldElement u helement hu =>
      have hpack : d.pack? = some id := by rw [pack?, helement]; rfl
      exact ⟨e, get?_view_pack hpack σ e,
        Term.same_trans htrans e u t (hd.element id u helement) hu⟩
    | newSingle hne hid hget =>
      have hbound := hσ.bound id _ (Substitution.get?_insert_self d.substitution id (.single t))
      exact ⟨t, (get?_view_of_ne hne σ e).trans hbound, Term.same_refl hrefl t⟩
    | @oldSingle u hne hid hget hu =>
      exact ⟨u, (get?_view_of_ne hne σ e).trans (hd.bound id _ hget), hu⟩

theorem followClues_sound {cs : List Clue} : ∀ {d d' : Deduction},
    d.followClues m cs = some d' →
    (d.Plain → d'.Plain) ∧ ∀ σ e, Completes m σ e d' →
      Completes m σ e d ∧ ∀ c ∈ cs, c.Holds m m.model.sameLeaf σ (d.view σ e) := by
  induction cs with
  | nil =>
    intro d d' h
    obtain rfl := Option.some.inj h
    exact ⟨fun hp => hp, fun σ e hσ => ⟨hσ, fun _ hc => absurd hc List.not_mem_nil⟩⟩
  | cons c cs ih =>
    intro d d' h
    obtain ⟨d₁, hd₁, h⟩ := Option.bind_eq_some_iff.mp h
    obtain ⟨hplain, hhead⟩ := followClue_sound hrefl htrans hd₁
    obtain ⟨hplain', htail⟩ := ih h
    refine ⟨fun hp => hplain' (hplain hp), fun σ e hσ => ?_⟩
    obtain ⟨hσ₁, hcs⟩ := htail σ e hσ
    obtain ⟨hσ₀, hc⟩ := hhead σ e hσ₁
    rw [view_congr (followClue_extends hd₁).1] at hcs
    exact ⟨hσ₀, List.forall_mem_cons.mpr ⟨hc, hcs⟩⟩

omit hrefl htrans in
/-- An element is found by a clue for the pack itself. -/
theorem bind_mem_of_element {pack : ParamId} {cs : List Clue} : ∀ {d d' : Deduction} {t : Term},
    d.element = some (pack, none) → d.followClues m cs = some d' →
    d'.element = some (pack, some t) → ∃ u, .bind pack u ∈ cs := by
  induction cs with
  | nil =>
    intro d d' t hd h hd'
    obtain rfl := Option.some.inj h
    exact absurd (Prod.mk.inj (Option.some.inj (hd.symm.trans hd'))).2 (Option.some_ne_none t).symm
  | cons c cs ih =>
    intro d d' t hd h hd'
    obtain ⟨d₁, hd₁, h⟩ := Option.bind_eq_some_iff.mp h
    by_cases hc : ∃ u, c = .bind pack u
    · obtain ⟨u, rfl⟩ := hc
      exact ⟨u, List.mem_cons_self⟩
    · have helement : d₁.element = some (pack, none) := by
        cases c with
        | convert c => rw [← Option.some.inj hd₁, hd]
        | defer pattern t => rw [← Option.some.inj hd₁, defer, hd]
        | bind id u =>
          have hne : id ≠ pack := fun heq => hc ⟨u, by rw [heq]⟩
          cases (bindArgument_eq_some.mp hd₁).2 with
          | newElement hid =>
            exact absurd (Prod.mk.inj (Option.some.inj (hid.symm.trans hd))).1 hne
          | oldElement hid _ => exact hd
          | newSingle _ _ _ => exact hd
          | oldSingle _ _ _ _ => exact hd
      obtain ⟨u, hu⟩ := ih helement h hd'
      exact ⟨u, List.mem_cons_of_mem _ hu⟩

theorem gather_sound {pack : ParamId} {found : List (Term × List Clue)} :
    ∀ {d d' : Deduction} {elements : List Term}, d.element = none →
      d.gather m pack found = some (elements, d') →
      ∀ σ e ts bound, Completes m σ e d' → σ.get? pack = some (.pack ts) →
        m.model.sameTerms bound elements = true →
        Completes m σ e d ∧
          List.Forall₂ (Finding.HoldsAt m m.model.sameLeaf σ pack) bound found := by
  induction found with
  | nil =>
    intro d d' elements hd h σ e ts bound hσ _ hsame
    obtain ⟨rfl, rfl⟩ := Prod.mk.inj (Option.some.inj h)
    cases bound with
    | nil => exact ⟨hσ, .nil⟩
    | cons b bound => exact Bool.noConfusion hsame
  | cons x found ih =>
    intro d d' elements hd h σ e ts bound hσ hts hsame
    obtain ⟨target, cs⟩ := x
    obtain ⟨d₁, t, rest, hd₁, helement, hrest, rfl⟩ := gather_cons_eq_some.mp h
    obtain ⟨hplain, hsound⟩ := followClues_sound hrefl htrans hd₁
    have hpack : d₁.pack? = some pack := (followClues_extends hd₁).1
    have ht : t.isExpansion = false := by
      refine hplain (fun q u hu => ?_) pack t helement
      exact absurd (Prod.mk.inj (Option.some.inj hu)).2 (Option.some_ne_none u).symm
    cases bound with
    | nil => exact Bool.noConfusion hsame
    | cons b bound =>
      obtain ⟨hb, hbound⟩ := (Bool.and_eq_true _ _).mp hsame
      obtain ⟨hσ₂, htail⟩ := ih rfl hrest σ e ts bound hσ hts hbound
      have hσ₁ : Completes m σ b.expanded d₁ := by
        refine ⟨hσ₂.kinded, hσ₂.bound, hσ₂.deferred, ?_, ?_⟩
        · intro q hq
          obtain rfl := Option.some.inj (hpack.symm.trans hq)
          exact ⟨ts, hts⟩
        · intro q u hu
          obtain ⟨-, hu⟩ := Prod.mk.inj (Option.some.inj (helement.symm.trans hu))
          obtain rfl := Option.some.inj hu
          exact Term.same_expanded hb ht
      obtain ⟨hσ₀, hclues⟩ := hsound σ b.expanded hσ₁
      refine ⟨hσ₀.of_element hd, .cons ⟨?_, ?_, hclues⟩ htail⟩
      · exact (Term.isExpansion_eq_of_same hb).trans (Term.isExpansion_expandedLike target ht)
      · exact bind_mem_of_element rfl hd₁ helement

theorem follow_sound {found : List Finding} :
    ∀ {d d' : Deduction}, (∀ f ∈ found, f.OverPacks m) → d.element = none →
      d.follow m found = some d' → ∀ σ e, Completes m σ e d' →
      Completes m σ e d ∧ ∀ f ∈ found, f.Holds m m.model.sameLeaf σ := by
  induction found with
  | nil =>
    intro d d' _ _ h σ e hσ
    obtain rfl := Option.some.inj h
    exact ⟨hσ, fun _ hf => absurd hf List.not_mem_nil⟩
  | cons f found ih =>
    intro d d' hpacks hd h σ e hσ
    obtain ⟨d₁, hd₁, h⟩ := Option.bind_eq_some_iff.mp h
    have hone : d.follow m [f] = some d₁ := by rw [follow_singleton, hd₁]
    have helement := (follow_extends (fun g hg => hpacks g (by simp_all)) hd hone).1
    obtain ⟨hσ₁, hrest⟩ :=
      ih (fun g hg => hpacks g (List.mem_cons_of_mem _ hg)) helement h σ e hσ
    have hf : Completes m σ e d ∧ f.Holds m m.model.sameLeaf σ := by
      cases f with
      | clue c =>
        obtain ⟨hσ₀, hc⟩ := (followClue_sound hrefl htrans hd₁).2 σ e hσ₁
        have hview : d.view σ e = σ := by rw [view, pack?, hd]; rfl
        rw [hview] at hc
        exact ⟨hσ₀, hc⟩
      | elements pack xs =>
        obtain ⟨-, ts, d₂, hgather, hbind⟩ := followFinding_elements_eq_some.mp hd₁
        obtain ⟨-, -, ⟨us, hus, hsame⟩, hcompletes⟩ :=
          bindPack_inv hrefl (hpacks _ List.mem_cons_self) hbind
        have hbound := hσ₁.bound pack _ hus
        obtain ⟨hσ₀, helements⟩ := gather_sound hrefl htrans hd hgather σ e us us
          (hcompletes σ e hσ₁) hbound hsame
        exact ⟨hσ₀, us, hbound, helements⟩
    exact ⟨hf.1, List.forall_mem_cons.mpr ⟨hf.2, hrest⟩⟩

end Sound

/-! ### A reading that holds can be followed -/

/-- What was found so far agrees with `σ`, and with `e` for the element in progress. -/
structure Agrees (leaf : String → String → Bool) (σ : Substitution) (e : Term) (d : Deduction) :
    Prop where
  bound : ∀ id b, d.substitution.get? id = some b →
    ∃ c, σ.get? id = some c ∧ c.same leaf b = true
  deferred : ∀ pt ∈ d.deferred, (pt.1.subst σ).same leaf pt.2 = true
  element : ∀ pack t, d.element = some (pack, some t) → e.same leaf t = true

section Complete

variable {leaf : String → String → Bool} {σ : Substitution}

theorem Agrees.insert {d : Deduction} {e : Term} (h : d.Agrees leaf σ e) {id : ParamId}
    {b c : Binding} (hc : σ.get? id = some c) (hcb : c.same leaf b = true) :
    { d with substitution := d.substitution.insert id b }.Agrees leaf σ e := by
  refine ⟨?_, h.deferred, h.element⟩
  intro j b' hj
  rw [Substitution.get?_insert] at hj
  split at hj
  · rename_i heq
    obtain rfl := Option.some.inj hj
    exact ⟨c, heq ▸ hc, hcb⟩
  · exact h.bound j b' hj

/-- Once found, the element in progress stays found. -/
theorem exists_element {pack : ParamId} {cs : List Clue} : ∀ {d d' : Deduction},
    d.pack? = some pack → d.followClues m cs = some d' →
    (∃ t, d.element = some (pack, some t)) ∨ (∃ u, .bind pack u ∈ cs) →
    ∃ t, d'.element = some (pack, some t) := by
  induction cs with
  | nil =>
    intro d d' _ h hfound
    obtain rfl := Option.some.inj h
    exact hfound.elim id fun ⟨u, hu⟩ => absurd hu List.not_mem_nil
  | cons c cs ih =>
    intro d d' hpack h hfound
    obtain ⟨d₁, hd₁, h⟩ := Option.bind_eq_some_iff.mp h
    refine ih ((followClue_extends hd₁).1.trans hpack) h ?_
    by_cases hc : ∃ u, c = .bind pack u
    · obtain ⟨u, rfl⟩ := hc
      refine .inl ?_
      cases (bindArgument_eq_some.mp hd₁).2 with
      | newElement _ => exact ⟨u, rfl⟩
      | @oldElement t helement _ => exact ⟨t, helement⟩
      | newSingle hne _ _ => exact absurd hpack hne
      | oldSingle hne _ _ _ => exact absurd hpack hne
    · rcases hfound with ⟨t, ht⟩ | ⟨u, hu⟩
      · refine .inl ⟨t, ?_⟩
        cases c with
        | convert c => rw [← Option.some.inj hd₁, ht]
        | defer pattern s => rw [← Option.some.inj hd₁, defer, ht]
        | bind id u =>
          cases (bindArgument_eq_some.mp hd₁).2 with
          | newElement helement =>
            exact absurd (Prod.mk.inj (Option.some.inj (helement.symm.trans ht))).2
              (Option.some_ne_none t).symm
          | oldElement _ _ => exact ht
          | newSingle _ _ _ => exact ht
          | oldSingle _ _ _ _ => exact ht
      · rcases List.mem_cons.mp hu with heq | hu
        · exact absurd ⟨u, heq.symm⟩ hc
        · exact .inr ⟨u, hu⟩

variable (hsingles : ∀ id t, σ.get? id = some (.single t) → m.isPack id = false)
  (heuclid : ∀ k l n, leaf k l = true → leaf k n = true → m.model.sameLeaf l n = true)

include hsingles heuclid

theorem followClue_of_holds {c : Clue} {d : Deduction} {e : Term} (hd : d.Agrees leaf σ e)
    (hc : c.Holds m leaf σ (d.view σ e)) :
    ∃ d', d.followClue m c = some d' ∧ d'.Agrees leaf σ e := by
  cases c with
  | convert c => exact ⟨_, rfl, ⟨hd.bound, hd.deferred, hd.element⟩⟩
  | defer pattern t =>
    refine ⟨_, rfl, ⟨hd.bound, ?_, hd.element⟩⟩
    intro pt hpt
    rcases List.mem_cons.mp hpt with rfl | hpt
    · exact hc
    · exact hd.deferred pt hpt
  | bind id t =>
    obtain ⟨haccepts, u, hu, hut⟩ := hc
    have hmeets : ∃ d', Meets m id t d d' ∧ d'.Agrees leaf σ e := by
      by_cases hpack : d.pack? = some id
      · obtain rfl : e = u :=
          Binding.single.inj (Option.some.inj ((get?_view_pack hpack σ e).symm.trans hu))
        obtain ⟨⟨pack, found⟩, helement, rfl⟩ := Option.map_eq_some_iff.mp hpack
        cases found with
        | none =>
          refine ⟨_, .newElement helement, hd.bound, hd.deferred, ?_⟩
          intro q s hs
          obtain ⟨-, hs⟩ := Prod.mk.inj (Option.some.inj hs)
          exact Option.some.inj hs ▸ hut
        | some s =>
          have hsame : m.model.sameTerm s t = true :=
            Term.same_euclid heuclid e s t (hd.element _ s helement) hut
          exact ⟨d, .oldElement helement hsame, hd⟩
      · rw [get?_view_of_ne hpack] at hu
        have hid := hsingles id u hu
        cases hget : d.substitution.get? id with
        | none => exact ⟨_, .newSingle hpack hid hget, hd.insert hu hut⟩
        | some b =>
          obtain ⟨c, hc, hcb⟩ := hd.bound id b hget
          obtain rfl := Option.some.inj (hu.symm.trans hc)
          obtain ⟨s, rfl, hus⟩ := Binding.same_single_left hcb
          have hsame : m.model.sameTerm s t = true := Term.same_euclid heuclid u s t hus hut
          exact ⟨d, .oldSingle hpack hid hget hsame, hd⟩
    obtain ⟨d', hd', hagrees⟩ := hmeets
    exact ⟨d', bindArgument_eq_some.mpr ⟨haccepts, hd'⟩, hagrees⟩

theorem followClues_of_holds {cs : List Clue} : ∀ {d : Deduction} {e : Term},
    d.Agrees leaf σ e → (∀ c ∈ cs, c.Holds m leaf σ (d.view σ e)) →
    ∃ d', d.followClues m cs = some d' ∧ d'.Agrees leaf σ e := by
  induction cs with
  | nil => exact fun hd _ => ⟨_, rfl, hd⟩
  | cons c cs ih =>
    intro d e hd hcs
    obtain ⟨hc, hcs⟩ := List.forall_mem_cons.mp hcs
    obtain ⟨d₁, hd₁, hagrees⟩ := followClue_of_holds hsingles heuclid hd hc
    rw [← view_congr (followClue_extends hd₁).1] at hcs
    obtain ⟨d', hd', hagrees'⟩ := ih hagrees hcs
    exact ⟨d', by rw [followClues, hd₁, Option.bind_some, hd'], hagrees'⟩

theorem gather_of_holds {pack : ParamId} {ts : List Term} {found : List (Term × List Clue)}
    (hholds : List.Forall₂ (Finding.HoldsAt m leaf σ pack) ts found) :
    ∀ {d : Deduction} {e : Term}, d.element = none → d.Agrees leaf σ e →
      ∃ elements d', d.gather m pack found = some (elements, d') ∧ d'.element = none ∧
        d'.Agrees leaf σ e ∧ Term.sameList leaf ts elements = true := by
  induction hholds with
  | nil => exact fun hd hagrees => ⟨[], _, rfl, hd, hagrees, rfl⟩
  | @cons b x bs found hb _ ih =>
    intro d e hd hagrees
    obtain ⟨target, cs⟩ := x
    have hstart : { d with element := some (pack, none) }.Agrees leaf σ b.expanded := by
      refine ⟨hagrees.bound, hagrees.deferred, ?_⟩
      intro q t ht
      exact absurd (Prod.mk.inj (Option.some.inj ht)).2 (Option.some_ne_none t).symm
    obtain ⟨d₁, hd₁, hagrees₁⟩ := followClues_of_holds hsingles heuclid hstart hb.clues
    obtain ⟨t, ht⟩ := exists_element rfl hd₁ (.inr hb.bound)
    have hrest : { d₁ with element := none }.Agrees leaf σ e :=
      ⟨hagrees₁.bound, hagrees₁.deferred, fun _ _ h => absurd h (Option.some_ne_none _).symm⟩
    obtain ⟨elements, d', hd', helement, hagrees', hsame⟩ := ih rfl hrest
    refine ⟨target.expandedLike t :: elements, d',
      gather_cons_eq_some.mpr ⟨d₁, t, elements, hd₁, ht, hd', rfl⟩, helement, hagrees', ?_⟩
    have hbt := Term.same_of_expanded hb.shape (hagrees₁.element pack t ht)
    exact (Bool.and_eq_true _ _).mpr ⟨hbt, hsame⟩

theorem follow_of_holds {found : List Finding} :
    ∀ {d : Deduction} {e : Term}, (∀ f ∈ found, f.OverPacks m) → d.element = none →
      d.Agrees leaf σ e → (∀ f ∈ found, f.Holds m leaf σ) →
      ∃ d', d.follow m found = some d' ∧ d'.Agrees leaf σ e := by
  induction found with
  | nil => exact fun _ _ hd _ => ⟨_, rfl, hd⟩
  | cons f found ih =>
    intro d e hpacks helement hd hholds
    obtain ⟨hf, hholds⟩ := List.forall_mem_cons.mp hholds
    have hone : ∃ d₁, d.followFinding m f = some d₁ ∧ d₁.Agrees leaf σ e := by
      cases f with
      | clue c =>
        have hview : d.view σ e = σ := by rw [view, pack?, helement]; rfl
        exact followClue_of_holds hsingles heuclid hd (by rw [hview]; exact hf)
      | elements pack xs =>
        obtain ⟨ts, hts, hxs⟩ := hf
        obtain ⟨elements, d₁, hd₁, -, hagrees, hsame⟩ :=
          gather_of_holds hsingles heuclid hxs helement hd
        have hbind : ∃ d₂, d₁.bindPack m pack elements = some d₂ ∧ d₂.Agrees leaf σ e := by
          cases hget : d₁.substitution.get? pack with
          | none => exact ⟨_, bindPack_eq_some.mpr (.inr ⟨hget, rfl⟩), hagrees.insert hts hsame⟩
          | some b =>
            obtain ⟨c, hc, hcb⟩ := hagrees.bound pack b hget
            obtain rfl := Option.some.inj (hts.symm.trans hc)
            cases b with
            | single u => exact Bool.noConfusion hcb
            | pack us =>
              have hus : m.model.sameTerms us elements = true :=
                Term.sameList_euclid heuclid ts us elements hcb hsame
              exact ⟨d₁, bindPack_eq_some.mpr (.inl ⟨us, hget, hus, rfl⟩), hagrees⟩
        obtain ⟨d₂, hd₂, hagrees₂⟩ := hbind
        exact ⟨d₂, followFinding_elements_eq_some.mpr ⟨helement, elements, d₁, hd₁, hd₂⟩, hagrees₂⟩
    obtain ⟨d₁, hd₁, hagrees⟩ := hone
    have hstep : d.follow m [f] = some d₁ := by rw [follow_singleton, hd₁]
    have hnone := (follow_extends (fun g hg => hpacks g (by simp_all)) helement hstep).1
    obtain ⟨d', hd', hagrees'⟩ :=
      ih (fun g hg => hpacks g (List.mem_cons_of_mem _ hg)) hnone hagrees hholds
    exact ⟨d', by rw [follow, hd₁, Option.bind_some, hd'], hagrees'⟩

end Complete

end Deduction

/-! ### What a reading is about -/

/-- The parameters that a clue mentions. -/
def Clue.parameters : Clue → List ParamId
  | .bind id _ => [id]
  | .defer pattern _ => pattern.occurrences
  | .convert _ => []

/-- The finding is about parameters in `ids`, and finds elements for packs only. -/
structure Finding.Within (m : Matching) (ids : List ParamId) (f : Finding) : Prop where
  packs : f.OverPacks m
  clues : ∀ c ∈ f.clues, ∀ id ∈ c.parameters, id ∈ ids

namespace Matching

variable {m : Matching} {ids ids' : List ParamId}

theorem within_of_forall {xs : List Finding} (h : ∀ f ∈ xs, f.Within m ids)
    (hsub : ∀ id ∈ ids, id ∈ ids') : ∀ f ∈ xs, f.Within m ids' :=
  fun f hf => ⟨(h f hf).packs, fun c hc id hid => hsub id ((h f hf).clues c hc id hid)⟩

theorem within_join {first second : Option (List Finding)}
    (hfirst : ∀ xs, first = some xs → ∀ f ∈ xs, f.Within m ids)
    (hsecond : ∀ xs, second = some xs → ∀ f ∈ xs, f.Within m ids') :
    ∀ xs, Finding.join first second = some xs → ∀ f ∈ xs, f.Within m (ids ++ ids') := by
  intro xs h f hf
  obtain ⟨ys, zs, hys, hzs, rfl⟩ := Finding.join_eq_some.mp h
  rcases List.mem_append.mp hf with hf | hf
  · exact within_of_forall (hfirst ys hys) (fun id hid => List.mem_append_left _ hid) f hf
  · exact within_of_forall (hsecond zs hzs) (fun id hid => List.mem_append_right _ hid) f hf

theorem within_clue {c : Clue} (h : ∀ id ∈ c.parameters, id ∈ ids) :
    ∀ f ∈ [Finding.clue c], f.Within m ids := by
  intro f hf
  obtain rfl := List.mem_singleton.mp hf
  refine ⟨trivial, fun c' hc' => ?_⟩
  obtain rfl := List.mem_singleton.mp hc'
  exact h

theorem within_gain {wanted given : Qualifiers} {k : Nat} :
    ∀ xs, m.gain wanted given k = some xs → ∀ f ∈ xs, f.Within m [] := by
  intro xs h
  rw [gain] at h
  split at h
  · obtain rfl := Option.some.inj h
    exact fun f hf => absurd hf List.not_mem_nil
  · split at h
    · obtain rfl := Option.some.inj h
      exact within_clue fun id hid => hid
    · exact absurd h (Option.some_ne_none xs).symm

theorem within_guard {c : Prop} [Decidable c] :
    ∀ xs, (if c then some ([] : List Finding) else none) = some xs → ∀ f ∈ xs, f.Within m ids := by
  intro xs h f hf
  split at h
  · obtain rfl := Option.some.inj h
    exact absurd hf List.not_mem_nil
  · exact absurd h (Option.some_ne_none xs).symm

/-- What was found for each target was read in it. -/
theorem forall₂_of_readElements {step : Nat → Term → Option (List Finding)} :
    ∀ {ts : List Term} {k : Nat} {found : List (Term × List Clue)},
      readElements step k ts = some found →
      List.Forall₂ (fun t x => x.1 = t ∧ ∃ i, step i t.expanded = some (x.2.map .clue)) ts
        found := by
  intro ts
  induction ts with
  | nil =>
    intro k found h
    obtain rfl := Option.some.inj h
    exact .nil
  | cons t ts ih =>
    intro k found h
    rw [readElements] at h
    split at h
    · rename_i cs hcs
      obtain ⟨rest, hrest, rfl⟩ := Option.map_eq_some_iff.mp h
      obtain ⟨xs, hxs, hclues⟩ := Option.bind_eq_some_iff.mp hcs
      obtain rfl := Finding.clues?_eq_some.mp hclues
      exact .cons ⟨rfl, k, hxs⟩ (ih hrest)
    · exact absurd h (Option.some_ne_none found).symm

/-- The clues are those that `inner` finds in the target. -/
def FoundIn (m : Matching) (inner : Term) (k : Nat) (t : Term) (x : Term × List Clue) : Prop :=
  x.1 = t ∧ m.read inner t.expanded k = some (x.2.map .clue)

theorem readElements_eq_some {inner : Term} {k i : Nat} {ts : List Term}
    {found : List (Term × List Clue)} :
    readElements (fun _ t => m.read inner t k) i ts = some found ↔
      List.Forall₂ (m.FoundIn inner k) ts found := by
  constructor
  · intro h
    exact (forall₂_of_readElements h).imp fun t x hx => ⟨hx.1, hx.2.choose_spec⟩
  · intro h
    induction h generalizing i with
    | nil => rfl
    | @cons t x ts found hx _ ih =>
      obtain ⟨rfl, hread⟩ := hx
      rw [readElements, hread, Option.bind_some, Finding.clues?_eq_some.mpr rfl, ih]
      rfl

/-- An expansion takes all the targets that are left. -/
theorem readList_expansion_eq_some {inner : Term} {ps ts : List Term} {k : Nat}
    {xs : List Finding} :
    m.readList (.expansion inner :: ps) ts k = some xs ↔
      ∃ pack found ys, m.packOf inner = some pack ∧ List.Forall₂ (m.FoundIn inner k) ts found ∧
        m.readList ps [] k = some ys ∧ xs = .elements pack found :: ys := by
  rw [readList, Finding.join_eq_some]
  constructor
  · rintro ⟨hs, ys, hhead, htail, rfl⟩
    rw [readExpansion] at hhead
    split at hhead
    · rename_i pack hpack
      obtain ⟨found, hfound, rfl⟩ := Option.map_eq_some_iff.mp hhead
      exact ⟨pack, found, ys, hpack, readElements_eq_some.mp hfound, htail, rfl⟩
    · exact absurd hhead (Option.some_ne_none hs).symm
  · rintro ⟨pack, found, ys, hpack, hfound, htail, rfl⟩
    refine ⟨[.elements pack found], ys, ?_, htail, rfl⟩
    rw [readExpansion, hpack]
    dsimp only
    rw [readElements_eq_some.mpr hfound]
    rfl

theorem readList_cons_eq_some {p : Term} (hexp : p.isExpansion = false) {ps ts : List Term}
    {k : Nat} {xs : List Finding} :
    m.readList (p :: ps) ts k = some xs ↔
      ∃ t rest ys zs, ts = t :: rest ∧ m.read p t k = some ys ∧ m.readList ps rest k = some zs ∧
        xs = ys ++ zs := by
  cases ts with
  | nil =>
    rw [readList_cons_nil m hexp]
    constructor
    · exact fun h => absurd h (Option.some_ne_none xs).symm
    · rintro ⟨t, rest, ys, zs, hnil, -⟩
      exact absurd hnil (List.cons_ne_nil t rest).symm
  | cons t ts =>
    rw [readList_cons m hexp, Finding.join_eq_some]
    constructor
    · rintro ⟨ys, zs, hys, hzs, rfl⟩
      exact ⟨t, ts, ys, zs, rfl, hys, hzs, rfl⟩
    · rintro ⟨t', rest, ys, zs, heq, hys, hzs, rfl⟩
      obtain ⟨rfl, rfl⟩ := List.cons.inj heq
      exact ⟨ys, zs, hys, hzs, rfl⟩

theorem within_readElements {step : Nat → Term → Option (List Finding)}
    (hstep : ∀ k t xs, step k t = some xs → ∀ f ∈ xs, f.Within m ids)
    {ts : List Term} {k : Nat} {found : List (Term × List Clue)}
    (h : readElements step k ts = some found) :
    ∀ x ∈ found, ∀ c ∈ x.2, ∀ id ∈ c.parameters, id ∈ ids := by
  have hread := forall₂_of_readElements h
  clear h
  induction hread with
  | nil => exact fun x hx => absurd hx List.not_mem_nil
  | @cons t x ts found hx _ ih =>
    intro y hy c hc
    rcases List.mem_cons.mp hy with rfl | hy
    · obtain ⟨-, i, hi⟩ := hx
      exact (hstep i _ _ hi _ (List.mem_map_of_mem hc)).clues c (List.mem_singleton_self c)
    · exact ih y hy c hc

theorem within_readExpansion {inner : Term} {step : Nat → Term → Option (List Finding)}
    (hstep : ∀ k t xs, step k t = some xs → ∀ f ∈ xs, f.Within m ids) {targets : List Term} :
    ∀ xs, m.readExpansion inner step targets = some xs → ∀ f ∈ xs, f.Within m ids := by
  intro xs h f hf
  rw [readExpansion] at h
  split at h
  · rename_i pack hpack
    obtain ⟨found, hfound, rfl⟩ := Option.map_eq_some_iff.mp h
    obtain rfl := List.mem_singleton.mp hf
    refine ⟨List.find?_some hpack, fun c hc => ?_⟩
    obtain ⟨x, hx, hc⟩ := List.mem_flatMap.mp hc
    exact within_readElements hstep hfound x hx c hc
  · exact absurd h (Option.some_ne_none xs).symm

mutual

/-- A reading is about the parameters of the pattern. -/
theorem within_read : ∀ (p t : Term) (k : Nat) (xs : List Finding), m.read p t k = some xs →
    ∀ f ∈ xs, f.Within m p.occurrences
  | .param _, t, k, xs, h | .offset _ _, t, k, xs, h => by
    obtain rfl := Option.some.inj h
    exact within_clue fun id hid => hid
  | .qualified quals inner, t, k, xs, h => by
    rw [read] at h
    exact within_join within_gain (within_read inner (t.withoutQuals quals) k) xs h
  | .placeholder _, t, k, xs, h | .type _, t, k, xs, h | .template _, t, k, xs, h
  | .value _ _, t, k, xs, h => by
    cases t <;> simp only [read, reduceCtorEq] at h
    exact within_guard xs h
  | .pointer p, t, k, xs, h => by
    cases t <;> simp only [read, reduceCtorEq] at h
    exact within_read p _ k xs h
  | .reference kind p, t, k, xs, h => by
    cases t <;> simp only [read, reduceCtorEq] at h
    split at h
    · exact within_read p _ k xs h
    · exact absurd h (Option.some_ne_none xs).symm
  | .expansion inner, t, k, xs, h => by cases t <;> simp [read] at h
  | .apply head args, t, k, xs, h => by
    cases t <;> simp only [read, reduceCtorEq] at h
    exact within_join (within_read head _ k) (within_readList args _ k) xs h

theorem within_readList : ∀ (ps ts : List Term) (k : Nat) (xs : List Finding),
    m.readList ps ts k = some xs → ∀ f ∈ xs, f.Within m (Term.occurrencesList ps)
  | [], ts, k, xs, h => by
    cases ts with
    | nil =>
      obtain rfl := Option.some.inj h
      exact fun _ hf => absurd hf List.not_mem_nil
    | cons t ts => exact absurd h (Option.some_ne_none xs).symm
  | p :: ps, ts, k, xs, h => by
    by_cases hexp : p.isExpansion = true
    · obtain ⟨inner, rfl⟩ := Term.exists_of_isExpansion hexp
      rw [readList] at h
      exact within_join (within_readExpansion fun _ t => within_read inner t k)
        (within_readList ps [] k) xs h
    · rw [Bool.not_eq_true] at hexp
      cases ts with
      | nil => rw [readList_cons_nil m hexp] at h; exact absurd h (Option.some_ne_none xs).symm
      | cons t ts =>
        rw [readList_cons m hexp] at h
        exact within_join (within_read p t k) (within_readList ps ts k) xs h

end

/-! ### Where elements are found -/

/-- The elements were found by an expansion in `inners`, in targets of its own. -/
def FoundBy (m : Matching) (inners : List Term) (f : Finding) : Prop :=
  ∀ pack found, f = .elements pack found → ∃ inner ∈ inners, ∃ k ts,
    readElements (fun _ t => m.read inner t k) 0 ts = some found

theorem foundBy_join {inners inners' : List Term} {first second : Option (List Finding)}
    (hfirst : ∀ xs, first = some xs → ∀ f ∈ xs, m.FoundBy inners f)
    (hsecond : ∀ xs, second = some xs → ∀ f ∈ xs, m.FoundBy inners' f) :
    ∀ xs, Finding.join first second = some xs → ∀ f ∈ xs, m.FoundBy (inners ++ inners') f := by
  intro xs h f hf pack found heq
  obtain ⟨ys, zs, hys, hzs, rfl⟩ := Finding.join_eq_some.mp h
  rcases List.mem_append.mp hf with hf | hf
  · obtain ⟨inner, hinner, hread⟩ := hfirst ys hys f hf pack found heq
    exact ⟨inner, List.mem_append_left _ hinner, hread⟩
  · obtain ⟨inner, hinner, hread⟩ := hsecond zs hzs f hf pack found heq
    exact ⟨inner, List.mem_append_right _ hinner, hread⟩

theorem foundBy_clue (inners : List Term) (c : Clue) :
    ∀ f ∈ [Finding.clue c], m.FoundBy inners f := by
  intro f hf pack found heq
  obtain rfl := List.mem_singleton.mp hf
  exact Finding.noConfusion heq

theorem foundBy_gain {wanted given : Qualifiers} {k : Nat} :
    ∀ xs, m.gain wanted given k = some xs → ∀ f ∈ xs, m.FoundBy [] f := by
  intro xs h
  rw [gain] at h
  split at h
  · obtain rfl := Option.some.inj h
    exact fun f hf => absurd hf List.not_mem_nil
  · split at h
    · obtain rfl := Option.some.inj h
      exact foundBy_clue [] _
    · exact absurd h (Option.some_ne_none xs).symm

theorem foundBy_expansion {inner : Term} {inners ts : List Term} {k : Nat}
    (hinner : inner ∈ inners) :
    ∀ xs, m.readExpansion inner (fun _ t => m.read inner t k) ts = some xs →
      ∀ f ∈ xs, m.FoundBy inners f := by
  intro xs h f hf pack found heq
  rw [readExpansion] at h
  split at h
  · obtain ⟨found', hfound, rfl⟩ := Option.map_eq_some_iff.mp h
    obtain rfl := List.mem_singleton.mp hf
    obtain ⟨-, rfl⟩ := Finding.elements.inj heq
    exact ⟨inner, hinner, k, ts, hfound⟩
  · exact absurd h (Option.some_ne_none xs).symm

mutual

/-- Elements are found by the expansions in the pattern. -/
theorem foundBy_read : ∀ (p t : Term) (k : Nat) (xs : List Finding), m.read p t k = some xs →
    ∀ f ∈ xs, m.FoundBy p.expansions f
  | .param _, t, k, xs, h | .offset _ _, t, k, xs, h => by
    obtain rfl := Option.some.inj h
    exact foundBy_clue _ _
  | .qualified quals inner, t, k, xs, h => by
    rw [read] at h
    exact foundBy_join foundBy_gain (foundBy_read inner (t.withoutQuals quals) k) xs h
  | .placeholder _, t, k, xs, h | .type _, t, k, xs, h | .template _, t, k, xs, h
  | .value _ _, t, k, xs, h => by
    cases t <;> simp only [read, reduceCtorEq] at h
    split at h
    · obtain rfl := Option.some.inj h
      exact fun f hf => absurd hf List.not_mem_nil
    · exact absurd h (Option.some_ne_none xs).symm
  | .pointer p, t, k, xs, h => by
    cases t <;> simp only [read, reduceCtorEq] at h
    exact foundBy_read p _ k xs h
  | .reference kind p, t, k, xs, h => by
    cases t <;> simp only [read, reduceCtorEq] at h
    split at h
    · exact foundBy_read p _ k xs h
    · exact absurd h (Option.some_ne_none xs).symm
  | .expansion inner, t, k, xs, h => by cases t <;> simp [read] at h
  | .apply head args, t, k, xs, h => by
    cases t <;> simp only [read, reduceCtorEq] at h
    exact foundBy_join (foundBy_read head _ k) (foundBy_readList args _ k) xs h

theorem foundBy_readList : ∀ (ps ts : List Term) (k : Nat) (xs : List Finding),
    m.readList ps ts k = some xs → ∀ f ∈ xs, m.FoundBy (Term.expansionsList ps) f
  | [], ts, k, xs, h => by
    cases ts with
    | nil =>
      obtain rfl := Option.some.inj h
      exact fun _ hf => absurd hf List.not_mem_nil
    | cons t ts => exact absurd h (Option.some_ne_none xs).symm
  | p :: ps, ts, k, xs, h => by
    by_cases hexp : p.isExpansion = true
    · obtain ⟨inner, rfl⟩ := Term.exists_of_isExpansion hexp
      rw [readList] at h
      exact foundBy_join (foundBy_expansion List.mem_cons_self) (foundBy_readList ps [] k) xs h
    · rw [Bool.not_eq_true] at hexp
      cases ts with
      | nil => rw [readList_cons_nil m hexp] at h; exact absurd h (Option.some_ne_none xs).symm
      | cons t ts =>
        rw [readList_cons m hexp] at h
        exact foundBy_join (foundBy_read p t k) (foundBy_readList ps ts k) xs h

end

/-- What is found inside an expansion is about the parameters of some expansion in the list. -/
theorem exists_expansion {ps ts : List Term} {k : Nat} {xs : List Finding}
    (h : m.readList ps ts k = some xs) {pack : ParamId} {found : List (Term × List Clue)}
    (hmem : .elements pack found ∈ xs) :
    ∃ inner ∈ Term.expansionsList ps,
      ∀ x ∈ found, ∀ c ∈ x.2, ∀ id ∈ c.parameters, id ∈ inner.occurrences := by
  obtain ⟨inner, hinner, j, us, hread⟩ := foundBy_readList ps ts k xs h _ hmem pack found rfl
  exact ⟨inner, hinner, within_readElements (fun _ t => within_read inner t j) hread⟩

end Matching

end TemplateResolution
