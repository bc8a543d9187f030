import TemplateResolution.Pattern.Instance
import TemplateResolution.Proofs.Matching.RoundTrip

/-!
# What a match binds

A match never takes back what it has found (`follow_keeps`), and it records the conversions
it notices and no others (`follow_conversions`).  So a parameter is bound in the end if some
place of the pattern binds it.  Which places do, depends on the targets
in one respect only.  An occurrence outside every expansion and every offset is always
met (`bind_mem_read_iff`).  One inside an expansion is met once for each target of the
expansion, and not at all if there are none (`binds_of_read`).

Completing the substitution adds packs without elements, and defaults
(`isSome_get?_complete`).
-/

namespace TemplateResolution

/-- Lists of the same terms have their expansions at the same places. -/
theorem Term.map_isExpansion_of_sameList {leaf : String → String → Bool} {as bs : List Term}
    (h : sameList leaf as bs = true) : as.map isExpansion = bs.map isExpansion := by
  induction as generalizing bs with
  | nil =>
    cases bs with
    | nil => rfl
    | cons b bs => exact Bool.noConfusion h
  | cons a as ih =>
    cases bs with
    | nil => exact Bool.noConfusion h
    | cons b bs =>
      obtain ⟨hab, hrest⟩ := (Bool.and_eq_true _ _).mp h
      rw [List.map_cons, List.map_cons, isExpansion_eq_of_same hab, ih hrest]

namespace Deduction

variable {m : Matching}

/-! ### What was found is kept -/

/-- All that `d` has found is found in `d'`, the element in progress apart. -/
structure Keeps (d d' : Deduction) : Prop where
  bindings : ∀ id b, d.substitution.get? id = some b → d'.substitution.get? id = some b
  conversions : ∀ c ∈ d.substitution.conversions, c ∈ d'.substitution.conversions
  deferred : ∀ pt ∈ d.deferred, pt ∈ d'.deferred

namespace Keeps

theorem refl (d : Deduction) : Keeps d d :=
  ⟨fun _ _ h => h, fun _ h => h, fun _ h => h⟩

theorem trans {d d' d'' : Deduction} (h : Keeps d d') (h' : Keeps d' d'') : Keeps d d'' :=
  ⟨fun id b hb => h'.bindings id b (h.bindings id b hb),
    fun c hc => h'.conversions c (h.conversions c hc),
    fun pt hpt => h'.deferred pt (h.deferred pt hpt)⟩

/-- The element in progress is no part of it. -/
theorem of_element {d d' : Deduction} (h : Keeps d d')
    (element element' : Option (ParamId × Option Term)) :
    Keeps { d with element := element } { d' with element := element' } :=
  ⟨h.bindings, h.conversions, h.deferred⟩

theorem insert {d : Deduction} {id : ParamId} (h : d.substitution.get? id = none) (b : Binding) :
    Keeps d { d with substitution := d.substitution.insert id b } := by
  refine ⟨fun j c hj => ?_, fun _ hc => hc, fun _ hpt => hpt⟩
  rw [Substitution.get?_insert, if_neg]
  · exact hj
  · rintro rfl
    exact absurd (h.symm.trans hj) (Option.some_ne_none c).symm

end Keeps

theorem Meets.keeps {id : ParamId} {t : Term} {d d' : Deduction} (h : Meets m id t d d') :
    Keeps d d' := by
  cases h with
  | newElement _ => exact (Keeps.refl d).of_element d.element _
  | oldElement _ _ => exact .refl d
  | newSingle _ _ hget => exact .insert hget _
  | oldSingle _ _ _ _ => exact .refl d

theorem followClue_keeps {c : Clue} {d d' : Deduction} (h : d.followClue m c = some d') :
    Keeps d d' := by
  cases c with
  | bind id t => exact (bindArgument_eq_some.mp h).2.keeps
  | defer pattern t =>
    obtain rfl := Option.some.inj h
    exact ⟨fun _ _ hb => hb, fun _ hc => hc, fun _ hpt => List.mem_cons_of_mem _ hpt⟩
  | convert c =>
    obtain rfl := Option.some.inj h
    exact ⟨fun _ _ hb => hb, fun _ hc => List.mem_append_left _ hc, fun _ hpt => hpt⟩

theorem followClues_keeps {cs : List Clue} : ∀ {d d' : Deduction},
    d.followClues m cs = some d' → Keeps d d' := by
  induction cs with
  | nil =>
    intro d d' h
    obtain rfl := Option.some.inj h
    exact .refl d
  | cons c cs ih =>
    intro d d' h
    obtain ⟨d₁, hd₁, h⟩ := Option.bind_eq_some_iff.mp h
    exact (followClue_keeps hd₁).trans (ih h)

/-- An element that was found is accepted for its pack. -/
theorem accepted_of_element {cs : List Clue} : ∀ {d d' : Deduction},
    d.followClues m cs = some d' →
    (∀ q t, d.element = some (q, some t) → m.parameters[q]?.any (m.model.accepts · t) = true) →
    ∀ q t, d'.element = some (q, some t) → m.parameters[q]?.any (m.model.accepts · t) = true := by
  induction cs with
  | nil =>
    intro d d' h hd
    obtain rfl := Option.some.inj h
    exact hd
  | cons c cs ih =>
    intro d d' h hd
    obtain ⟨d₁, hd₁, h⟩ := Option.bind_eq_some_iff.mp h
    refine ih h fun q t hq => ?_
    cases c with
    | convert c =>
      obtain rfl := Option.some.inj hd₁
      exact hd q t hq
    | defer pattern u =>
      obtain rfl := Option.some.inj hd₁
      exact hd q t hq
    | bind id u =>
      obtain ⟨haccepts, hmeets⟩ := bindArgument_eq_some.mp hd₁
      cases hmeets with
      | newElement _ =>
        obtain ⟨rfl, hut⟩ := Prod.mk.inj (Option.some.inj hq)
        obtain rfl := Option.some.inj hut
        exact haccepts
      | oldElement _ _ => exact hd q t hq
      | newSingle _ _ _ => exact hd q t hq
      | oldSingle _ _ _ _ => exact hd q t hq

/-- Following the clues to each element gives one element for each target, an expansion where the
target is one, and accepted for the pack. -/
theorem gather_keeps {pack : ParamId} {found : List (Term × List Clue)} :
    ∀ {d d' : Deduction} {elements : List Term}, d.gather m pack found = some (elements, d') →
      Keeps d d' ∧ elements.map Term.isExpansion = found.map (·.1.isExpansion) ∧
        ∀ t ∈ elements, m.parameters[pack]?.any (m.model.accepts · t.expanded) = true := by
  induction found with
  | nil =>
    intro d d' elements h
    obtain ⟨rfl, rfl⟩ := Prod.mk.inj (Option.some.inj h)
    exact ⟨.refl d, rfl, fun _ ht => absurd ht List.not_mem_nil⟩
  | cons x found ih =>
    intro d d' elements h
    obtain ⟨target, cs⟩ := x
    obtain ⟨d₁, t, rest, hd₁, helement, hrest, rfl⟩ := gather_cons_eq_some.mp h
    obtain ⟨htail, hshapes, haccepted⟩ := ih hrest
    have hhead := (followClues_keeps hd₁).of_element d.element none
    have ht : m.parameters[pack]?.any (m.model.accepts · t) = true := by
      refine accepted_of_element hd₁ (fun q u hu => ?_) pack t helement
      exact absurd (Prod.mk.inj (Option.some.inj hu)).2 (Option.some_ne_none u).symm
    have hplain : t.isExpansion = false := by
      obtain ⟨p, -, hp⟩ := (Option.any_eq_true _ _).mp ht
      exact isExpansion_of_accepts hp
    refine ⟨hhead.trans htail, ?_, List.forall_mem_cons.mpr ⟨?_, haccepted⟩⟩
    · rw [List.map_cons, List.map_cons, hshapes, Term.isExpansion_expandedLike target hplain]
    · rwa [Term.expanded_expandedLike target hplain]

theorem bindPack_keeps {pack : ParamId} {elements : List Term} {d d' : Deduction}
    (h : d.bindPack m pack elements = some d') :
    Keeps d d' ∧ ∃ ts, d'.substitution.get? pack = some (.pack ts) ∧
      ts.map Term.isExpansion = elements.map Term.isExpansion := by
  rcases bindPack_eq_some.mp h with ⟨us, hget, hsame, rfl⟩ | ⟨hget, rfl⟩
  · exact ⟨.refl _, us, hget, Term.map_isExpansion_of_sameList hsame⟩
  · exact ⟨.insert hget _, elements, Substitution.get?_insert_self _ _ _, rfl⟩

/-- A pack is bound to one element for each target. -/
theorem followFinding_keeps {f : Finding} {d d' : Deduction} (h : d.followFinding m f = some d') :
    Keeps d d' ∧ ∀ pack found, f = .elements pack found →
      ∃ ts, d'.substitution.get? pack = some (.pack ts) ∧
        ts.map Term.isExpansion = found.map (·.1.isExpansion) := by
  cases f with
  | clue c => exact ⟨followClue_keeps h, fun _ _ heq => Finding.noConfusion heq⟩
  | elements pack found =>
    obtain ⟨-, elements, d₁, hgather, hbind⟩ := followFinding_elements_eq_some.mp h
    obtain ⟨hfirst, hshapes, -⟩ := gather_keeps hgather
    obtain ⟨hsecond, ts, hts, hshapes'⟩ := bindPack_keeps hbind
    refine ⟨hfirst.trans hsecond, fun pack' found' heq => ?_⟩
    obtain ⟨rfl, rfl⟩ := Finding.elements.inj heq
    exact ⟨ts, hts, hshapes'.trans hshapes⟩

/-- **A match takes nothing back,** and every pack that it ran over is bound. -/
theorem follow_keeps {found : List Finding} : ∀ {d d' : Deduction}, d.follow m found = some d' →
    Keeps d d' ∧ ∀ pack xs, .elements pack xs ∈ found →
      ∃ ts, d'.substitution.get? pack = some (.pack ts) ∧
        ts.map Term.isExpansion = xs.map (·.1.isExpansion) := by
  induction found with
  | nil =>
    intro d d' h
    obtain rfl := Option.some.inj h
    exact ⟨.refl d, fun _ _ hmem => absurd hmem List.not_mem_nil⟩
  | cons f found ih =>
    intro d d' h
    obtain ⟨d₁, hd₁, h⟩ := Option.bind_eq_some_iff.mp h
    obtain ⟨hhead, hpacks⟩ := followFinding_keeps hd₁
    obtain ⟨htail, hlater⟩ := ih h
    refine ⟨hhead.trans htail, fun pack xs hmem => ?_⟩
    rcases List.mem_cons.mp hmem with heq | hmem
    · obtain ⟨ts, hts, hshapes⟩ := hpacks pack xs heq.symm
      exact ⟨ts, htail.bindings pack _ hts, hshapes⟩
    · exact hlater pack xs hmem

end Deduction

/-! ### Conversions -/

/-- The conversion that the clue is about. -/
def Clue.conversion? : Clue → Option Conversion
  | .convert c => some c
  | .bind _ _ | .defer _ _ => none

namespace Deduction

variable {m : Matching}

theorem Meets.conversions {id : ParamId} {t : Term} {d d' : Deduction} (h : Meets m id t d d') :
    d'.substitution.conversions = d.substitution.conversions := by
  cases h <;> rfl

theorem followClue_conversions {c : Clue} {d d' : Deduction} (h : d.followClue m c = some d') :
    d'.substitution.conversions = d.substitution.conversions ++ [c].filterMap Clue.conversion? := by
  cases c with
  | bind id t =>
    rw [(bindArgument_eq_some.mp h).2.conversions]
    exact (List.append_nil _).symm
  | defer pattern t =>
    obtain rfl := Option.some.inj h
    exact (List.append_nil _).symm
  | convert c =>
    obtain rfl := Option.some.inj h
    rfl

theorem followClues_conversions {cs : List Clue} : ∀ {d d' : Deduction},
    d.followClues m cs = some d' →
      d'.substitution.conversions =
        d.substitution.conversions ++ cs.filterMap Clue.conversion? := by
  induction cs with
  | nil =>
    intro d d' h
    obtain rfl := Option.some.inj h
    exact (List.append_nil _).symm
  | cons c cs ih =>
    intro d d' h
    obtain ⟨d₁, hd₁, h⟩ := Option.bind_eq_some_iff.mp h
    rw [ih h, followClue_conversions hd₁, List.append_assoc, ← List.filterMap_append,
      List.singleton_append]

theorem gather_conversions {pack : ParamId} {found : List (Term × List Clue)} :
    ∀ {d d' : Deduction} {elements : List Term}, d.gather m pack found = some (elements, d') →
      d'.substitution.conversions =
        d.substitution.conversions ++ (found.flatMap (·.2)).filterMap Clue.conversion? := by
  induction found with
  | nil =>
    intro d d' elements h
    obtain ⟨-, rfl⟩ := Prod.mk.inj (Option.some.inj h)
    exact (List.append_nil _).symm
  | cons x found ih =>
    intro d d' elements h
    obtain ⟨target, cs⟩ := x
    obtain ⟨d₁, t, rest, hd₁, -, hrest, -⟩ := gather_cons_eq_some.mp h
    rw [ih hrest, followClues_conversions hd₁, List.append_assoc, ← List.filterMap_append,
      List.flatMap_cons]

theorem bindPack_conversions {pack : ParamId} {elements : List Term} {d d' : Deduction}
    (h : d.bindPack m pack elements = some d') :
    d'.substitution.conversions = d.substitution.conversions := by
  rcases bindPack_eq_some.mp h with ⟨us, -, -, rfl⟩ | ⟨-, rfl⟩ <;> rfl

theorem followFinding_conversions {f : Finding} {d d' : Deduction}
    (h : d.followFinding m f = some d') :
    d'.substitution.conversions =
      d.substitution.conversions ++ f.clues.filterMap Clue.conversion? := by
  cases f with
  | clue c => exact followClue_conversions h
  | elements pack found =>
    obtain ⟨-, elements, d₁, hgather, hbind⟩ := followFinding_elements_eq_some.mp h
    rw [bindPack_conversions hbind, gather_conversions hgather, Finding.clues]

/-- **What is recorded are the conversions that were noticed,** in order. -/
theorem follow_conversions {found : List Finding} : ∀ {d d' : Deduction},
    d.follow m found = some d' →
      d'.substitution.conversions =
        d.substitution.conversions ++ (found.flatMap Finding.clues).filterMap Clue.conversion? := by
  induction found with
  | nil =>
    intro d d' h
    obtain rfl := Option.some.inj h
    exact (List.append_nil _).symm
  | cons f found ih =>
    intro d d' h
    obtain ⟨d₁, hd₁, h⟩ := Option.bind_eq_some_iff.mp h
    rw [ih h, followFinding_conversions hd₁, List.append_assoc, ← List.filterMap_append,
      List.flatMap_cons]

theorem follow_converts {found : List Finding} {d d' : Deduction} (h : d.follow m found = some d')
    {f : Finding} (hf : f ∈ found) {c : Conversion} (hc : .convert c ∈ f.clues) :
    c ∈ d'.substitution.conversions := by
  rw [follow_conversions h]
  have hmem : .convert c ∈ found.flatMap Finding.clues := List.mem_flatMap.mpr ⟨f, hf, hc⟩
  exact List.mem_append_right _ (List.mem_filterMap.mpr ⟨_, hmem, rfl⟩)

end Deduction

/-! ### The places that bind -/

namespace Matching

variable {m : Matching} {id : ParamId}

/-- Some place outside all expansions binds the parameter. -/
def BindsOutside (id : ParamId) (xs : List Finding) : Prop := ∃ u, .clue (.bind id u) ∈ xs

/-- The parameter is bound somewhere, or some expansion has no targets. -/
def BindsUnlessEmpty (id : ParamId) (xs : List Finding) : Prop :=
  (∃ f ∈ xs, f.Binds id) ∨ ∃ pack, .elements pack [] ∈ xs

theorem bindsOutside_append {xs ys : List Finding} :
    BindsOutside id (xs ++ ys) ↔ BindsOutside id xs ∨ BindsOutside id ys := by
  simp only [BindsOutside, List.mem_append, exists_or]

theorem BindsUnlessEmpty.left {xs : List Finding} (h : BindsUnlessEmpty id xs)
    (ys : List Finding) : BindsUnlessEmpty id (xs ++ ys) := by
  rcases h with ⟨f, hf, hbinds⟩ | ⟨pack, hpack⟩
  · exact .inl ⟨f, List.mem_append_left _ hf, hbinds⟩
  · exact .inr ⟨pack, List.mem_append_left _ hpack⟩

theorem BindsUnlessEmpty.right {ys : List Finding} (h : BindsUnlessEmpty id ys)
    (xs : List Finding) : BindsUnlessEmpty id (xs ++ ys) := by
  rcases h with ⟨f, hf, hbinds⟩ | ⟨pack, hpack⟩
  · exact .inl ⟨f, List.mem_append_right _ hf, hbinds⟩
  · exact .inr ⟨pack, List.mem_append_right _ hpack⟩

theorem not_bindsOutside_gain {wanted given : Qualifiers} {k : Nat} {xs : List Finding}
    (h : m.gain wanted given k = some xs) : ¬ BindsOutside id xs := by
  rintro ⟨u, hu⟩
  rw [gain] at h
  split at h
  · obtain rfl := Option.some.inj h
    exact List.not_mem_nil hu
  · split at h
    · obtain rfl := Option.some.inj h
      simp at hu
    · exact Option.some_ne_none xs h.symm

theorem not_bindsOutside_guard {c : Prop} [Decidable c] {xs : List Finding}
    (h : (if c then some ([] : List Finding) else none) = some xs) : ¬ BindsOutside id xs := by
  rintro ⟨u, hu⟩
  split at h
  · obtain rfl := Option.some.inj h
    exact List.not_mem_nil hu
  · exact Option.some_ne_none xs h.symm

mutual

/-- A parameter is bound outside the expansions exactly if it occurs there, offsets apart. -/
theorem bind_mem_read_iff : ∀ (p t : Term) (k : Nat) (xs : List Finding),
    m.read p t k = some xs → (BindsOutside id xs ↔ id ∈ p.outerOccurrences)
  | .param j, t, k, xs, h => by
    obtain rfl := Option.some.inj h
    simp [BindsOutside, Term.outerOccurrences]
  | .offset _ _, t, k, xs, h => by
    obtain rfl := Option.some.inj h
    simp [BindsOutside, Term.outerOccurrences]
  | .qualified quals inner, t, k, xs, h => by
    rw [read] at h
    obtain ⟨ys, zs, hys, hzs, rfl⟩ := Finding.join_eq_some.mp h
    rw [bindsOutside_append, bind_mem_read_iff inner _ k zs hzs]
    exact or_iff_right (not_bindsOutside_gain hys)
  | .placeholder _, t, k, xs, h | .type _, t, k, xs, h | .template _, t, k, xs, h
  | .value _ _, t, k, xs, h => by
    cases t <;> simp only [read, reduceCtorEq] at h
    exact iff_of_false (not_bindsOutside_guard h) List.not_mem_nil
  | .pointer p, t, k, xs, h => by
    cases t <;> simp only [read, reduceCtorEq] at h
    exact bind_mem_read_iff p _ k xs h
  | .reference kind p, t, k, xs, h => by
    cases t <;> simp only [read, reduceCtorEq] at h
    split at h
    · exact bind_mem_read_iff p _ k xs h
    · exact absurd h (Option.some_ne_none xs).symm
  | .expansion inner, t, k, xs, h => by cases t <;> simp [read] at h
  | .apply head args, t, k, xs, h => by
    cases t <;> simp only [read, reduceCtorEq] at h
    obtain ⟨ys, zs, hys, hzs, rfl⟩ := Finding.join_eq_some.mp h
    rw [bindsOutside_append, bind_mem_read_iff head _ k ys hys,
      bind_mem_readList_iff args _ k zs hzs, Term.outerOccurrences, List.mem_append]

theorem bind_mem_readList_iff : ∀ (ps ts : List Term) (k : Nat) (xs : List Finding),
    m.readList ps ts k = some xs → (BindsOutside id xs ↔ id ∈ Term.outerOccurrencesList ps)
  | [], ts, k, xs, h => by
    cases ts with
    | nil =>
      obtain rfl := Option.some.inj h
      simp [BindsOutside, Term.outerOccurrencesList]
    | cons t ts => exact absurd h (Option.some_ne_none xs).symm
  | p :: ps, ts, k, xs, h => by
    by_cases hexp : p.isExpansion = true
    · obtain ⟨inner, rfl⟩ := Term.exists_of_isExpansion hexp
      obtain ⟨pack, found, ys, -, -, hys, rfl⟩ := readList_expansion_eq_some.mp h
      have hrest := bind_mem_readList_iff ps [] k ys hys
      rw [Term.outerOccurrencesList, Term.outerOccurrences, List.nil_append, ← hrest]
      simp [BindsOutside]
    · rw [Bool.not_eq_true] at hexp
      obtain ⟨t, rest, ys, zs, rfl, hys, hzs, rfl⟩ := (readList_cons_eq_some hexp).mp h
      rw [bindsOutside_append, bind_mem_read_iff p t k ys hys,
        bind_mem_readList_iff ps rest k zs hzs, Term.outerOccurrencesList, List.mem_append]

end

/-- Inside an expansion each target binds what occurs there. -/
theorem binds_of_foundIn {inner t : Term} {k : Nat} {x : Term × List Clue}
    (hx : m.FoundIn inner k t x)
    (hinner : ∀ xs, m.read inner t.expanded k = some xs → BindsUnlessEmpty id xs) :
    ∃ u, .bind id u ∈ x.2 := by
  rcases hinner _ hx.2 with ⟨f, hf, hbinds⟩ | ⟨pack, hpack⟩
  · obtain ⟨c, hc, rfl⟩ := List.mem_map.mp hf
    rcases hbinds with ⟨found, heq⟩ | ⟨u, hu⟩
    · exact Finding.noConfusion heq
    · obtain rfl := List.mem_singleton.mp hu
      exact ⟨u, hc⟩
  · obtain ⟨c, -, heq⟩ := List.mem_map.mp hpack
    exact Finding.noConfusion heq

mutual

/-- A parameter that occurs outside the offsets is bound, unless it occurs in expansions only and
one of them has no targets. -/
theorem binds_of_read : ∀ (p t : Term) (k : Nat) (xs : List Finding), m.read p t k = some xs →
    id ∈ p.deducibleOccurrences → BindsUnlessEmpty id xs
  | .param j, t, k, xs, h, hid => by
    obtain rfl := Option.some.inj h
    obtain rfl := List.mem_singleton.mp hid
    exact .inl ⟨_, List.mem_singleton_self _, .inr ⟨t, List.mem_singleton_self _⟩⟩
  | .offset _ _, t, k, xs, h, hid | .placeholder _, t, k, xs, h, hid | .type _, t, k, xs, h, hid
  | .template _, t, k, xs, h, hid | .value _ _, t, k, xs, h, hid => absurd hid List.not_mem_nil
  | .qualified quals inner, t, k, xs, h, hid => by
    rw [read] at h
    obtain ⟨ys, zs, -, hzs, rfl⟩ := Finding.join_eq_some.mp h
    exact (binds_of_read inner _ k zs hzs hid).right ys
  | .pointer p, t, k, xs, h, hid => by
    cases t <;> simp only [read, reduceCtorEq] at h
    exact binds_of_read p _ k xs h hid
  | .reference kind p, t, k, xs, h, hid => by
    cases t <;> simp only [read, reduceCtorEq] at h
    split at h
    · exact binds_of_read p _ k xs h hid
    · exact absurd h (Option.some_ne_none xs).symm
  | .expansion inner, t, k, xs, h, hid => by cases t <;> simp [read] at h
  | .apply head args, t, k, xs, h, hid => by
    cases t <;> simp only [read, reduceCtorEq] at h
    obtain ⟨ys, zs, hys, hzs, rfl⟩ := Finding.join_eq_some.mp h
    rcases List.mem_append.mp hid with hid | hid
    · exact (binds_of_read head _ k ys hys hid).left zs
    · exact (binds_of_readList args _ k zs hzs hid).right ys

theorem binds_of_readList : ∀ (ps ts : List Term) (k : Nat) (xs : List Finding),
    m.readList ps ts k = some xs → id ∈ Term.deducibleOccurrencesList ps → BindsUnlessEmpty id xs
  | [], ts, k, xs, h, hid => absurd hid List.not_mem_nil
  | p :: ps, ts, k, xs, h, hid => by
    rw [Term.deducibleOccurrencesList, List.mem_append] at hid
    by_cases hexp : p.isExpansion = true
    · obtain ⟨inner, rfl⟩ := Term.exists_of_isExpansion hexp
      obtain ⟨pack, found, ys, -, hfound, hys, rfl⟩ := readList_expansion_eq_some.mp h
      rcases hid with hid | hid
      · cases hfound with
        | nil => exact .inr ⟨pack, List.mem_cons_self⟩
        | @cons t x ts found hx _ =>
          have hbound := binds_of_foundIn hx fun xs hxs =>
            binds_of_read inner t.expanded k xs hxs hid
          refine .inl ⟨_, List.mem_cons_self, ?_⟩
          exact Finding.binds_elements.mpr (.inr ⟨x, List.mem_cons_self, hbound⟩)
      · exact (binds_of_readList ps [] k ys hys hid).right [_]
    · rw [Bool.not_eq_true] at hexp
      obtain ⟨t, rest, ys, zs, rfl, hys, hzs, rfl⟩ := (readList_cons_eq_some hexp).mp h
      rcases hid with hid | hid
      · exact (binds_of_read p t k ys hys hid).left zs
      · exact (binds_of_readList ps rest k zs hzs hid).right ys

end

end Matching

/-! ### Whole matches -/

namespace Pattern

variable {model : TypeModel} {p : Pattern}

/-- A structural match without a seed binds what its reading binds. -/
theorem exists_reading_of_match? (hslots : ∀ slot ∈ p.slots, slot.default = none)
    {targets : List Term} {σ : Substitution}
    (h : p.match? model .structural .empty targets = some σ) :
    ∃ xs, (Matching.structural model p.parameters).readList p.args targets 0 = some xs ∧
      (∀ f ∈ xs, f.OverPacks (Matching.structural model p.parameters)) ∧
      (Matching.structural model p.parameters).Suits σ ∧
      (∀ id, (σ.get? id).isSome = true ↔ ∃ f ∈ xs, f.Binds id) ∧
      ∀ pack found, .elements pack found ∈ xs →
        ∃ ts, σ.get? pack = some (.pack ts) ∧ ts.length = found.length := by
  obtain ⟨xs, d, hxs, hfollow, -, rfl⟩ := Matching.run_eq_some.mp h
  change (Matching.structural model p.parameters).readSlots p.slots 0 targets = some xs at hxs
  rw [Matching.readSlots_eq rfl p.slots hslots] at hxs
  have hpacks : ∀ f ∈ xs, f.OverPacks (Matching.structural model p.parameters) :=
    fun f hf => (Matching.within_readList _ _ _ xs hxs f hf).packs
  obtain ⟨-, hextends⟩ := Deduction.follow_extends hpacks rfl hfollow
  refine ⟨xs, hxs, hpacks, hextends.suits (Matching.suits_empty _), fun id => ?_, ?_⟩
  · exact (hextends.bound id).trans (or_iff_right fun hid => Bool.noConfusion hid)
  · intro pack found hmem
    obtain ⟨ts, hts, hshapes⟩ := (Deduction.follow_keeps hfollow).2 pack found hmem
    exact ⟨ts, hts, by simpa using congrArg List.length hshapes⟩

/-! ### Completion -/

theorem get?_completeAt (i : ParamId) (q : Parameter) (σ : Substitution) (id : ParamId) :
    (completeAt model i q σ).get? id =
      if id = i then (σ.get? i).or (defaultBinding model q σ) else σ.get? id := by
  rw [completeAt]
  split
  · rename_i b hget hdefault
    rw [Substitution.get?_insert, hget, hdefault, Option.none_or]
  · rename_i hother
    by_cases hid : id = i
    · subst hid
      rw [if_pos rfl]
      cases hget : σ.get? id with
      | some b => rfl
      | none =>
        cases hdefault : defaultBinding model q σ with
        | none => rfl
        | some b => exact absurd hdefault (hother b hget)
    · rw [if_neg hid]

theorem isSome_defaultBinding (q : Parameter) (σ : Substitution) :
    (defaultBinding model q σ).isSome = (model.isPack q || q.default.isSome) := by
  rw [defaultBinding]
  cases model.isPack q <;> simp

/-- What was bound before stays bound to the same. -/
theorem get?_completeFrom_of_some (qs : List Parameter) : ∀ (i : ParamId) {σ : Substitution}
    {id : ParamId} {b : Binding}, σ.get? id = some b →
      (completeFrom model i qs σ).get? id = some b := by
  induction qs with
  | nil => exact fun _ _ _ _ h => h
  | cons q qs ih =>
    intro i σ id b h
    refine ih (i + 1) ?_
    rw [get?_completeAt]
    by_cases hid : id = i
    · rw [if_pos hid, ← hid, h, Option.some_or]
    · rw [if_neg hid, h]

theorem isSome_get?_completeAt (i : ParamId) (q : Parameter) (σ : Substitution) (id : ParamId) :
    ((completeAt model i q σ).get? id).isSome = true ↔
      (σ.get? id).isSome = true ∨ id = i ∧ (model.isPack q || q.default.isSome) = true := by
  rw [get?_completeAt]
  by_cases hid : id = i
  · subst hid
    rw [if_pos rfl, Option.isSome_or, isSome_defaultBinding, Bool.or_eq_true]
    exact or_congr_right ⟨fun h => ⟨rfl, h⟩, fun h => h.2⟩
  · rw [if_neg hid]
    exact (or_iff_left fun h => hid h.1).symm

theorem isSome_get?_completeFrom (qs : List Parameter) : ∀ (i : ParamId) (σ : Substitution)
    (id : ParamId), ((completeFrom model i qs σ).get? id).isSome = true ↔
      (σ.get? id).isSome = true ∨
        ∃ k q, qs[k]? = some q ∧ id = i + k ∧ (model.isPack q || q.default.isSome) = true := by
  induction qs with
  | nil => simp [completeFrom]
  | cons q qs ih =>
    intro i σ id
    rw [completeFrom, ih, isSome_get?_completeAt, or_assoc]
    refine or_congr_right ⟨?_, ?_⟩
    · rintro (⟨rfl, hq⟩ | ⟨k, q', hq', rfl, hdefault⟩)
      · exact ⟨0, q, rfl, rfl, hq⟩
      · exact ⟨k + 1, q', hq', Nat.succ_add_eq_add_succ i k, hdefault⟩
    · rintro ⟨k, q', hq', rfl, hdefault⟩
      cases k with
      | zero =>
        obtain rfl := Option.some.inj hq'
        exact .inl ⟨rfl, hdefault⟩
      | succ k =>
        exact .inr ⟨k, q', hq', (Nat.succ_add_eq_add_succ i k).symm, hdefault⟩

/-- Completion binds the packs and what has a default, and nothing else. -/
theorem isSome_get?_complete (σ : Substitution) (id : ParamId) :
    ((p.complete model σ).get? id).isSome = true ↔
      (σ.get? id).isSome = true ∨
        ∃ q, p.parameter? id = some q ∧ (model.isPack q || q.default.isSome) = true := by
  rw [complete, isSome_get?_completeFrom]
  refine or_congr_right ⟨?_, ?_⟩
  · rintro ⟨k, q, hq, rfl, hdefault⟩
    exact ⟨q, by rwa [parameter?, Nat.zero_add], hdefault⟩
  · rintro ⟨q, hq, hdefault⟩
    exact ⟨id, q, hq, (Nat.zero_add id).symm, hdefault⟩

theorem isPack_of_completeFrom (qs : List Parameter) : ∀ (i : ParamId) {σ : Substitution}
    {id : ParamId} {ts : List Term}, (completeFrom model i qs σ).get? id = some (.pack ts) →
      σ.get? id = some (.pack ts) ∨
        ∃ k q, qs[k]? = some q ∧ id = i + k ∧ model.isPack q = true := by
  induction qs with
  | nil => exact fun _ _ _ _ h => .inl h
  | cons q qs ih =>
    intro i σ id ts h
    rcases ih (i + 1) h with h | ⟨k, q', hq', rfl, hpack⟩
    · rw [get?_completeAt] at h
      split at h
      · rename_i hid
        rcases Option.or_eq_some_iff.mp h with h | ⟨-, h⟩
        · exact .inl (hid ▸ h)
        · refine .inr ⟨0, q, rfl, hid, ?_⟩
          rw [defaultBinding] at h
          split at h
          · assumption
          · obtain ⟨t, -, ht⟩ := Option.map_eq_some_iff.mp h
            exact Binding.noConfusion ht
      · exact .inl h
    · exact .inr ⟨k + 1, q', hq', Nat.succ_add_eq_add_succ i k, hpack⟩

/-- Completion binds packs to lists only where a pack is declared. -/
theorem kinded_complete {σ : Substitution}
    (h : (Matching.structural model p.parameters).Kinded σ) :
    (Matching.structural model p.parameters).Kinded (p.complete model σ) := by
  intro id ts hid
  rcases isPack_of_completeFrom p.parameters 0 hid with hid | ⟨k, q, hq, rfl, hpack⟩
  · exact h id ts hid
  · rw [Matching.isPack, Nat.zero_add]
    exact (Option.any_eq_true _ _).mpr ⟨q, hq, hpack⟩

end Pattern

theorem Substitution.isSome_flatten (σ : Substitution) (count : Nat) :
    (σ.flatten count).isSome = true ↔ ∀ id < count, (σ.get? id).isSome = true := by
  have hmapM : ∀ ids : List ParamId, (ids.mapM σ.get?).isSome = true ↔
      ∀ id ∈ ids, (σ.get? id).isSome = true := by
    intro ids
    induction ids with
    | nil => simp
    | cons id ids ih =>
      rw [List.mapM_cons, List.forall_mem_cons, ← ih]
      cases σ.get? id with
      | none => simp
      | some b => cases ids.mapM σ.get? <;> simp
  rw [flatten, Option.isSome_map, hmapM]
  simp only [List.mem_range]

end TemplateResolution
