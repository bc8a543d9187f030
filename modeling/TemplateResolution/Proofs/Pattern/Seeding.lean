import TemplateResolution.Proofs.Pattern.TemplateArguments

/-!
# Seeds and lists

Template arguments are bound one after the other until none are left, so the parameters
that a seed binds are the first ones, and what it binds them to is the list that was given,
cut into pieces (`seedFrom_bindings`).  Writing a seed out gives the list back.

In the other direction the cuts are lost.  If a pack comes last, only one thing has to be
recovered: whether an empty pack stood at the end.  It did, for all parameters had been
bound, and completion puts it back (`seed?_inverse_flatten`).
-/

namespace TemplateResolution

namespace Substitution

/-! ### Parameters bound in order -/

theorem insertInto_of_notMem {id : ParamId} {b : Binding} {l : List (ParamId × Binding)}
    (h : id ∉ l.map (·.1)) : insertInto id b l = l ++ [(id, b)] := by
  induction l with
  | nil => rfl
  | cons entry rest ih =>
    obtain ⟨hne, hrest⟩ := List.ne_and_not_mem_of_not_mem_cons h
    rw [insertInto, if_neg (Ne.symm hne), ih hrest, List.cons_append]

theorem lookup_of_keys {l : List (ParamId × Binding)} :
    ∀ {k : ParamId}, l.map (·.1) = List.range' k l.length →
      ∀ j, l.lookup (k + j) = (l[j]?).map (·.2) := by
  induction l with
  | nil => exact fun _ _ => rfl
  | cons entry rest ih =>
    intro k hkeys j
    obtain ⟨i, b⟩ := entry
    obtain ⟨rfl, hrest⟩ := List.cons.inj hkeys
    cases j with
    | zero => exact List.lookup_cons_self
    | succ j =>
      have hne : (i + (j + 1) == i) = false :=
        beq_eq_false_iff_ne.mpr (Nat.ne_of_gt (Nat.lt_add_of_pos_right (Nat.succ_pos j)))
      rw [List.lookup_cons, hne, List.getElem?_cons_succ, ← ih hrest j, Nat.succ_add_eq_add_succ]

/-- If the first parameters are bound in order, writing them out is reading off what is bound. -/
theorem flatten_of_ids {σ : Substitution} (h : σ.ids = List.range σ.size) :
    σ.flatten σ.size = some (σ.bindings.flatMap (·.2.terms)) := by
  have hkeys : σ.bindings.map (·.1) = List.range' 0 σ.bindings.length :=
    h.trans List.range_eq_range'
  have hget : ∀ id < (σ.bindings.map (·.2)).length, σ.get? id = (σ.bindings.map (·.2))[id]? := by
    intro id _
    rw [List.getElem?_map, ← lookup_of_keys hkeys, Nat.zero_add]
    rfl
  have hflatten := flatten_of_bindings hget
  rwa [List.length_map, List.flatMap_map] at hflatten

end Substitution

namespace Pattern

variable {model : TypeModel}

/-- **Template arguments are bound piece by piece,** to one parameter after the other. -/
theorem seedFrom_bindings (qs : List Parameter) : ∀ (id : ParamId) (args : List Term)
    (seed seed' : Substitution), (∀ j ∈ seed.ids, j < id) →
    seedFrom model id qs args seed = some seed' →
    ∃ entries : List (ParamId × Binding), seed'.bindings = seed.bindings ++ entries ∧
      entries.map (·.1) = List.range' id entries.length ∧ entries.length ≤ qs.length ∧
      entries.flatMap (·.2.terms) = args := by
  induction qs with
  | nil =>
    intro id args seed seed' _ h
    cases args with
    | nil =>
      obtain rfl := Option.some.inj h
      exact ⟨[], (List.append_nil _).symm, rfl, Nat.le_refl 0, rfl⟩
    | cons arg args => exact absurd h (Option.some_ne_none seed').symm
  | cons q qs ih =>
    intro id args seed seed' hids h
    have hinsert : ∀ b, (seed.insert id b).bindings = seed.bindings ++ [(id, b)] := fun b =>
      Substitution.insertInto_of_notMem fun hid => Nat.lt_irrefl id (hids id hid)
    cases args with
    | nil =>
      obtain rfl := Option.some.inj h
      exact ⟨[], (List.append_nil _).symm, rfl, Nat.zero_le _, rfl⟩
    | cons arg args =>
      rw [seedFrom] at h
      split at h
      · -- a pack takes all that is left
        split at h
        · obtain rfl := Option.some.inj h
          exact ⟨[(id, .pack (arg :: args))], hinsert _, rfl, Nat.succ_le_succ (Nat.zero_le _),
            List.append_nil _⟩
        · exact absurd h (Option.some_ne_none seed').symm
      · split at h
        · have hbelow : ∀ j ∈ (seed.insert id (.single arg)).ids, j < id + 1 := by
            intro j hj
            rw [Substitution.ids, hinsert, List.map_append, List.mem_append] at hj
            rcases hj with hj | hj
            · exact Nat.lt_succ_of_lt (hids j hj)
            · obtain rfl := List.mem_singleton.mp hj
              exact Nat.lt_succ_self j
          obtain ⟨entries, hbindings, hkeys, hlength, hterms⟩ := ih (id + 1) args _ seed' hbelow h
          refine ⟨(id, .single arg) :: entries, ?_, ?_, Nat.succ_le_succ hlength, ?_⟩
          · rw [hbindings, hinsert, List.append_assoc, List.singleton_append]
          · rw [List.map_cons, hkeys, List.length_cons, List.range'_succ]
          · rw [List.flatMap_cons, hterms]
            rfl
        · exact absurd h (Option.some_ne_none seed').symm

/-- **Seeding and writing out are inverse to each other.**  A seed binds the first parameters, and
written out it is the list that it was made from.  A substitution for all parameters, of terms of
their kinds and with the pack in the last place, can be written out; the list is taken as template
arguments, and the completed seed binds what the substitution did. -/
theorem seed?_inverse_flatten (model : TypeModel) (p : Pattern) :
    (∀ args seed, p.seed? model args = some seed →
      seed.ids = List.range seed.size ∧ seed.size ≤ p.parameters.length ∧
        seed.bindings.flatMap (·.2.terms) = args ∧ seed.flatten seed.size = some args) ∧
    (Parameter.PackLast model p.parameters → ∀ σ : Substitution,
      (∀ id b, σ.get? id = some b → ∃ q, p.parameter? id = some q ∧ b.Suits model q) →
      (∀ id < p.parameters.length, (σ.get? id).isSome = true) →
      ∃ D seed, σ.flatten p.parameters.length = some D ∧ p.seed? model D = some seed ∧
        ∀ id, (p.complete model seed).get? id = σ.get? id) := by
  refine ⟨fun args seed hseed => ?_, fun hlast σ hσ htotal => ?_⟩
  · obtain ⟨entries, hbindings, hkeys, hlength, hterms⟩ := seedFrom_bindings p.parameters 0 args
      .empty seed (fun _ hj => absurd hj List.not_mem_nil) hseed
    obtain rfl : seed.bindings = entries := hbindings
    have hids : seed.ids = List.range seed.size := hkeys.trans List.range_eq_range'.symm
    exact ⟨hids, hlength, hterms, hterms ▸ Substitution.flatten_of_ids hids⟩
  · obtain ⟨D, hD⟩ := Option.isSome_iff_exists.mp
      ((σ.isSome_flatten p.parameters.length).mpr htotal)
    obtain ⟨bs, hbs, rfl, -⟩ := Substitution.exists_forall₂_of_flatten hσ hD
    obtain ⟨seed, hseed, -⟩ := seedFrom_terms p.parameters 0 bs .empty hbs hlast
    have hforms : σ.RespectsForms model p.parameters := by
      intro id b hb
      obtain ⟨q, hq, hsuits⟩ := hσ id b hb
      exact ⟨q, hq, Binding.Suits.ofForm hsuits⟩
    exact ⟨_, seed, hD, hseed, get?_complete_seed hlast hforms hD hseed⟩

/-- Three template arguments for `template<typename T, typename... Ts>` are given back, and from the
one that is left of an empty pack the pack is recovered. -/
theorem seed?_inverse_flatten_empty :
    let model := AliasTable.empty.model
    let p := primary "X" [{ name := "T", kind := .type },
      { name := "Ts", kind := .type, pack := true }]
    let one := Substitution.empty.insert 0 (.single (.type "int"))
    let three := one.insert 1 (.pack [.type "char", .pointer (.type "int")])
    let σ := one.insert 1 (.pack [])
    (p.seed? model [.type "int", .type "char", .pointer (.type "int")] = some three ∧
      three.flatten three.size = some [.type "int", .type "char", .pointer (.type "int")]) ∧
    Parameter.PackLast model p.parameters ∧
    (∀ id b, σ.get? id = some b → ∃ q, p.parameter? id = some q ∧ b.Suits model q) ∧
    (∀ id < p.parameters.length, (σ.get? id).isSome = true) ∧
    σ.flatten 2 = some [.type "int"] ∧ p.seed? model [.type "int"] = some one ∧
    ∀ id, (p.complete model one).get? id = σ.get? id := by
  intro model p one three σ
  obtain ⟨hseed, hflatten⟩ := seed?_inverse_flatten model p
  have hlast : Parameter.PackLast model p.parameters := by
    rintro (_ | _ | id) q hq hpack
    · obtain rfl := Option.some.inj hq
      exact Bool.noConfusion hpack
    · rfl
    · exact absurd hq (Option.some_ne_none q).symm
  have hsuits : ∀ id b, σ.get? id = some b → ∃ q, p.parameter? id = some q ∧ b.Suits model q := by
    rintro (_ | _ | id) b hb
    · obtain rfl := Option.some.inj hb
      exact ⟨_, rfl, rfl, rfl⟩
    · obtain rfl := Option.some.inj hb
      exact ⟨_, rfl, rfl, fun _ ht => absurd ht List.not_mem_nil⟩
    · exact absurd hb (Option.some_ne_none b).symm
  have htotal : ∀ id < p.parameters.length, (σ.get? id).isSome = true := by decide
  obtain ⟨D, seed, hD, hseeded, hget⟩ := hflatten hlast σ hsuits htotal
  obtain rfl : [.type "int"] = D := Option.some.inj hD
  obtain rfl : one = seed := Option.some.inj hseeded
  exact ⟨⟨rfl, (hseed _ three rfl).2.2.2⟩, hlast, hsuits, htotal, rfl, rfl, hget⟩

end Pattern

end TemplateResolution
