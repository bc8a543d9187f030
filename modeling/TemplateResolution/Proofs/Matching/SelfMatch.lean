import TemplateResolution.Proofs.Matching.RoundTrip

/-!
# A pattern matches what stands for itself

With a placeholder for each of its parameters, and one that may be repeated for a pack,
the argument list of a pattern is matched by the pattern (`isSome_run_subst`).  Since no
pack is empty then, an expansion finds whatever it mentions (`findsIn_of_readList`); so
what an offset mentions may be found inside an expansion here.
-/

namespace TemplateResolution

/-- Following the findings binds the parameter, if no expansion among them is without a target. -/
def Finding.FindsIn (xs : List Finding) (id : ParamId) : Prop :=
  ∃ f ∈ xs, f.Binds id ∨ ∃ pack, f = .elements pack []

namespace Finding.FindsIn

variable {xs ys : List Finding} {id : ParamId}

theorem left (h : FindsIn xs id) (ys : List Finding) : FindsIn (xs ++ ys) id := by
  obtain ⟨f, hf, hbinds⟩ := h
  exact ⟨f, List.mem_append_left _ hf, hbinds⟩

theorem right (h : FindsIn ys id) (xs : List Finding) : FindsIn (xs ++ ys) id := by
  obtain ⟨f, hf, hbinds⟩ := h
  exact ⟨f, List.mem_append_right _ hf, hbinds⟩

end Finding.FindsIn

namespace Matching

variable {m : Matching}

/-! ### What a reading binds -/

mutual

theorem findsIn_of_read : ∀ (p t : Term) (k : Nat) (xs : List Finding), m.read p t k = some xs →
    ∀ id ∈ p.deducibleOccurrences, Finding.FindsIn xs id
  | .param _, t, k, xs, h, id, hid => by
    obtain rfl := Option.some.inj h
    obtain rfl := List.mem_singleton.mp hid
    exact ⟨_, List.mem_singleton_self _, .inl (.inr ⟨t, List.mem_singleton_self _⟩)⟩
  | .offset _ _, _, _, _, _, _, hid | .placeholder _, _, _, _, _, _, hid
  | .type _, _, _, _, _, _, hid | .value _ _, _, _, _, _, _, hid
  | .template _, _, _, _, _, _, hid => absurd hid List.not_mem_nil
  | .qualified quals inner, t, k, xs, h, id, hid => by
    rw [read] at h
    obtain ⟨ys, zs, -, hzs, rfl⟩ := Finding.join_eq_some.mp h
    exact (findsIn_of_read inner _ k zs hzs id hid).right ys
  | .pointer p, t, k, xs, h, id, hid => by
    cases t <;> simp only [read, reduceCtorEq] at h
    exact findsIn_of_read p _ k xs h id hid
  | .reference kind p, t, k, xs, h, id, hid => by
    cases t <;> simp only [read, reduceCtorEq] at h
    split at h
    · exact findsIn_of_read p _ k xs h id hid
    · exact absurd h (Option.some_ne_none xs).symm
  | .expansion inner, t, k, xs, h, _, _ => by cases t <;> simp [read] at h
  | .apply head args, t, k, xs, h, id, hid => by
    cases t <;> simp only [read, reduceCtorEq] at h
    obtain ⟨ys, zs, hys, hzs, rfl⟩ := Finding.join_eq_some.mp h
    rcases List.mem_append.mp hid with hid | hid
    · exact (findsIn_of_read head _ k ys hys id hid).left zs
    · exact (findsIn_of_readList args _ k zs hzs id hid).right ys

/-- A reading finds every parameter that occurs outside the offsets. -/
theorem findsIn_of_readList : ∀ (ps ts : List Term) (k : Nat) (xs : List Finding),
    m.readList ps ts k = some xs → ∀ id ∈ Term.deducibleOccurrencesList ps, Finding.FindsIn xs id
  | [], _, _, _, _, _, hid => absurd hid List.not_mem_nil
  | p :: ps, ts, k, xs, h, id, hid => by
    by_cases hexp : p.isExpansion = true
    · obtain ⟨inner, rfl⟩ := Term.exists_of_isExpansion hexp
      obtain ⟨pack, found, ys, -, hfound, hys, rfl⟩ := readList_expansion_eq_some.mp h
      rcases List.mem_append.mp hid with hid | hid
      · refine ⟨_, List.mem_cons_self, ?_⟩
        cases hfound with
        | nil => exact .inr ⟨pack, rfl⟩
        | @cons t x ts found hx _ =>
          -- one target is enough
          obtain ⟨f, hf, hbinds⟩ := findsIn_of_read inner _ k _ hx.2 id hid
          obtain ⟨c, hc, rfl⟩ := List.mem_map.mp hf
          rcases hbinds with (⟨xs, heq⟩ | ⟨u, hu⟩) | ⟨pack', heq⟩
          · exact Finding.noConfusion heq
          · obtain rfl := List.mem_singleton.mp hu
            exact .inl (Finding.binds_elements.mpr (.inr ⟨x, List.mem_cons_self, u, hc⟩))
          · exact Finding.noConfusion heq
      · obtain ⟨f, hf, hbinds⟩ := findsIn_of_readList ps [] k ys hys id hid
        exact ⟨f, List.mem_cons_of_mem _ hf, hbinds⟩
    · rw [Bool.not_eq_true] at hexp
      obtain ⟨t, rest, ys, zs, rfl, hys, hzs, rfl⟩ := (readList_cons_eq_some hexp).mp h
      rcases List.mem_append.mp hid with hid | hid
      · exact (findsIn_of_read p t k ys hys id hid).left zs
      · exact (findsIn_of_readList ps rest k zs hzs id hid).right ys

end

/-- **A pattern matches its argument list with something for each of its parameters,** where no pack
is empty. -/
theorem isSome_run_subst {model : TypeModel} (hrefl : ∀ n, model.sameLeaf n n = true)
    {parameters : List Parameter} {slots : List Slot}
    (hunique : ∀ i j, (structural model parameters).isPack i = true →
      (structural model parameters).isPack j = true → i = j)
    (hnormal : ∀ t ∈ slots.map (·.term), t.isNormal = true)
    (hdeclared : ∀ id ∈ Term.occurrencesList (slots.map (·.term)), id < parameters.length)
    (hplaces : Term.placesPacksList (structural model parameters).isPack false
      (slots.map (·.term)) = true)
    (hdeducible : ∀ id ∈ Term.occurrencesList (slots.map (·.term)),
      id ∈ Term.deducibleOccurrencesList (slots.map (·.term)))
    {σ : Substitution} (hσ : (structural model parameters).Fills σ)
    (hsome : ∀ id, σ.get? id ≠ some (.pack [])) :
    (run model .structural parameters slots .empty
      (Term.substList σ (slots.map (·.term)))).isSome = true := by
  obtain ⟨hsingles, xs, hxs, -, hholds⟩ := exists_reading_subst hunique hσ rfl hrefl
    (Term.isNormalList_iff.mpr hnormal) hplaces hdeclared
  have hbinds : ∀ id ∈ Term.occurrencesList (slots.map (·.term)), ∃ f ∈ xs, f.Binds id := by
    intro id hid
    obtain ⟨f, hf, hbinds | ⟨pack, rfl⟩⟩ := findsIn_of_readList _ _ _ xs hxs id (hdeducible id hid)
    · exact ⟨f, hf, hbinds⟩
    · obtain ⟨ts, hts, hnone⟩ := hholds _ hf
      cases hnone
      exact absurd hts (hsome pack)
  obtain ⟨τ, hτ, -⟩ := run_of_holds_beq hrefl hxs hsingles hholds hbinds
  rw [hτ]
  rfl

end Matching

end TemplateResolution
