import TemplateResolution.Proofs.Registry.Reachable
import TemplateResolution.Resolution.Resolve

/-!
# The candidates for a query

Which patterns compete for a query follows from their names and roles
(`Pattern.competes`), and which of them are candidates follows from the screening
of each by itself (`Declarations.Admits`).  The resolver goes through the family
of the name instead; in a registry whose families file its patterns both come to
the same, and the candidates stand in the order of registration.
-/

namespace TemplateResolution

/-- Whether a pattern competes for a query: a primary or an overload of that name, and a partial
specialization unless the query leaves those out. -/
def Pattern.competes (q : Query) (p : Pattern) : Bool :=
  p.name = q.name && (p.role.isBase || p.role.isPartial && !q.primaryOnly)

namespace Declarations

variable (d : Declarations) (family : Family) (q : Query)

/-- The arguments that candidates are matched with. -/
def siteArgs : List Term :=
  match family.flavor with
  | .functionLike => q.args
  | .classLike => d.completeArgs family q.args

/-- The screening of what competes for a query. -/
def screening : Screening :=
  Screening.ofPatterns d.model family.flavor (d.siteArgs family q) q.explicitArgs
    (d.withIds (family.contenders q.primaryOnly))

/-- The candidates for a query. -/
def viable : List Candidate := (d.screening family q).viable

/-- A registered pattern that competes for the query and takes its arguments. -/
structure Admits (c : Candidate) : Prop where
  registered : d.pattern? c.id = some c.pattern
  competes : c.pattern.competes q = true
  takes : c.pattern.screen d.model family.flavor (d.siteArgs family q) q.explicitArgs =
    .ok c.substitution

/-! ### The members that compete -/

variable {d family q}

theorem Filed.contenders (h : d.Filed) (hf : d.family? q.name = some family) :
    family.contenders q.primaryOnly = d.idsWhere (Pattern.competes q) := by
  obtain ⟨hprimaries, hpartials, -⟩ := h.files hf
  rw [Family.contenders, hprimaries, hpartials]
  cases hq : q.primaryOnly with
  | true =>
    rw [if_pos rfl, ascending_idsWhere_self]
    refine congrArg d.idsWhere (funext fun p => ?_)
    rw [Pattern.competes, hq, Bool.not_true, Bool.and_false, Bool.or_false]
  | false =>
    have hdisjoint : ∀ p : Pattern, (p.name = q.name && p.role.isBase) = true →
        (p.name = q.name && p.role.isPartial) = false := by
      intro p hp
      rcases p with ⟨name, role, parameters, slots⟩
      cases role <;> simp_all [Role.isBase, Role.isPartial]
    rw [if_neg Bool.false_ne_true, ascending_idsWhere d hdisjoint]
    refine congrArg d.idsWhere (funext fun p => ?_)
    rw [Pattern.competes, hq, Bool.not_false, Bool.and_true, Bool.and_or_distrib_left]

theorem map_fst_withIds {ids : List PatternId} (h : ∀ id ∈ ids, ∃ p, d.pattern? id = some p) :
    (d.withIds ids).map (·.1) = ids := by
  induction ids with
  | nil => rfl
  | cons id ids ih =>
    obtain ⟨p, hp⟩ := h id List.mem_cons_self
    have htail := ih fun i hi => h i (List.mem_cons_of_mem _ hi)
    rw [withIds] at htail ⊢
    rw [List.filterMap_cons, hp, Option.map_some, List.map_cons, htail]

theorem map_fst_withIds_idsWhere (keep : Pattern → Bool) :
    (d.withIds (d.idsWhere keep)).map (·.1) = d.idsWhere keep :=
  map_fst_withIds fun _ hid =>
    ((d.mem_idsWhere keep).mp hid).imp fun _ h => h.1

end Declarations

/-! ### Screening -/

namespace Screening

variable {model : TypeModel} {flavor : Flavor} {args explicitArgs : List Term}
  {entries : List (PatternId × Pattern)}

/-- The candidates are what the screening of each entry by itself lets through. -/
theorem viable_ofPatterns :
    (ofPatterns model flavor args explicitArgs entries).viable = entries.filterMap fun e =>
      match e.2.screen model flavor args explicitArgs with
      | .ok σ => some ⟨e.1, e.2, σ⟩
      | .error _ => none := by
  induction entries with
  | nil => rfl
  | cons entry entries ih =>
    rw [ofPatterns, List.filterMap_cons, ← ih]
    cases entry.2.screen model flavor args explicitArgs <;> rfl

theorem rejected_ofPatterns :
    (ofPatterns model flavor args explicitArgs entries).rejected = entries.filterMap fun e =>
      match e.2.screen model flavor args explicitArgs with
      | .ok _ => none
      | .error reason => some (e.1, reason) := by
  induction entries with
  | nil => rfl
  | cons entry entries ih =>
    rw [ofPatterns, List.filterMap_cons, ← ih]
    cases entry.2.screen model flavor args explicitArgs <;> rfl

theorem mem_viable_ofPatterns {c : Candidate} :
    c ∈ (ofPatterns model flavor args explicitArgs entries).viable ↔
      (c.id, c.pattern) ∈ entries ∧
        c.pattern.screen model flavor args explicitArgs = .ok c.substitution := by
  rw [viable_ofPatterns, List.mem_filterMap]
  constructor
  · intro h
    obtain ⟨⟨id, p⟩, hmem, hc⟩ := h
    cases hscreen : p.screen model flavor args explicitArgs with
    | ok σ =>
      rw [hscreen] at hc
      obtain rfl := Option.some.inj hc
      exact ⟨hmem, hscreen⟩
    | error reason =>
      rw [hscreen] at hc
      exact absurd hc (Option.some_ne_none c).symm
  · intro h
    obtain ⟨hmem, hok⟩ := h
    exact ⟨(c.id, c.pattern), hmem, by rw [hok]⟩

theorem mem_rejected_ofPatterns {id : PatternId} {reason : Rejection} :
    (id, reason) ∈ (ofPatterns model flavor args explicitArgs entries).rejected ↔
      ∃ p, (id, p) ∈ entries ∧ p.screen model flavor args explicitArgs = .error reason := by
  rw [rejected_ofPatterns, List.mem_filterMap]
  constructor
  · intro h
    obtain ⟨⟨id', p⟩, hmem, hr⟩ := h
    cases hscreen : p.screen model flavor args explicitArgs with
    | ok σ =>
      rw [hscreen] at hr
      exact absurd hr (Option.some_ne_none _).symm
    | error reason' =>
      rw [hscreen] at hr
      obtain ⟨rfl, rfl⟩ := Prod.mk.inj (Option.some.inj hr)
      exact ⟨p, hmem, hscreen⟩
  · intro h
    obtain ⟨p, hmem, herror⟩ := h
    exact ⟨(id, p), hmem, by rw [herror]⟩

theorem viable_ids_sublist :
    ((ofPatterns model flavor args explicitArgs entries).viable.map (·.id)).Sublist
      (entries.map (·.1)) := by
  induction entries with
  | nil => exact .slnil
  | cons entry entries ih =>
    obtain ⟨id, p⟩ := entry
    rw [ofPatterns]
    cases p.screen model flavor args explicitArgs with
    | ok σ => exact ih.cons_cons id
    | error reason => exact ih.cons id

/-- Where there is no candidate, everything is rejected. -/
theorem rejected_ids_of_viable_eq_nil
    (h : (ofPatterns model flavor args explicitArgs entries).viable = []) :
    (ofPatterns model flavor args explicitArgs entries).rejected.map (·.1) =
      entries.map (·.1) := by
  induction entries with
  | nil => rfl
  | cons entry entries ih =>
    obtain ⟨id, p⟩ := entry
    rw [ofPatterns] at h ⊢
    cases hscreen : p.screen model flavor args explicitArgs with
    | ok σ => rw [hscreen] at h; exact absurd h (List.cons_ne_nil _ _)
    | error reason =>
      rw [hscreen] at h
      exact congrArg (id :: ·) (ih h)

end Screening

/-! ### The candidates of a registry -/

namespace Declarations

variable {d : Declarations} {family : Family} {q : Query}

theorem Filed.screening (h : d.Filed) (hf : d.family? q.name = some family) :
    d.screening family q =
      Screening.ofPatterns d.model family.flavor (d.siteArgs family q) q.explicitArgs
        (d.withIds (d.idsWhere (Pattern.competes q))) := by
  rw [Declarations.screening, h.contenders hf]

theorem mem_viable (h : d.Filed) (hf : d.family? q.name = some family) {c : Candidate} :
    c ∈ d.viable family q ↔ d.Admits family q c := by
  rw [viable, h.screening hf, Screening.mem_viable_ofPatterns, mem_withIds, mem_idsWhere]
  constructor
  · rintro ⟨⟨⟨p, hp, hcompetes⟩, hc⟩, htakes⟩
    obtain rfl : p = c.pattern := Option.some.inj (hp.symm.trans hc)
    exact ⟨hc, hcompetes, htakes⟩
  · rintro ⟨hc, hcompetes, htakes⟩
    exact ⟨⟨⟨c.pattern, hc, hcompetes⟩, hc⟩, htakes⟩

theorem registered_of_mem_viable {c : Candidate} (hc : c ∈ d.viable family q) :
    d.pattern? c.id = some c.pattern :=
  (mem_withIds.mp (Screening.mem_viable_ofPatterns.mp hc).1).2

/-- Two candidates never have the same number. -/
theorem eq_of_id_eq {u v : Candidate} (hu : u ∈ d.viable family q) (hv : v ∈ d.viable family q)
    (hid : u.id = v.id) : u = v := by
  have hpu := registered_of_mem_viable hu
  have hpv := registered_of_mem_viable hv
  obtain ⟨-, htu⟩ := Screening.mem_viable_ofPatterns.mp hu
  obtain ⟨-, htv⟩ := Screening.mem_viable_ofPatterns.mp hv
  obtain ⟨id, p, σ⟩ := u
  obtain ⟨id', p', σ'⟩ := v
  obtain rfl : id = id' := hid
  obtain rfl : p = p' := Option.some.inj (hpu.symm.trans hpv)
  obtain rfl : σ = σ' := Except.ok.inj (htu.symm.trans htv)
  rfl

/-- The candidates stand in the order of registration. -/
theorem viable_pairwise (h : d.Filed) (hf : d.family? q.name = some family) :
    (d.viable family q).Pairwise (·.id < ·.id) := by
  have hids : ((d.viable family q).map (·.id)).Sublist (d.idsWhere (Pattern.competes q)) := by
    rw [← map_fst_withIds_idsWhere, viable, h.screening hf]
    exact Screening.viable_ids_sublist
  exact List.pairwise_map.mp ((d.idsWhere_pairwise _).sublist hids)

theorem nodup_viable (h : d.Filed) (hf : d.family? q.name = some family) :
    (d.viable family q).Nodup :=
  (viable_pairwise h hf).imp fun hlt heq => Nat.ne_of_lt hlt (congrArg Candidate.id heq)

/-- Without a candidate, each member that competes is rejected, in the order of registration. -/
theorem rejected_ids (h : d.Filed) (hf : d.family? q.name = some family)
    (hnone : d.viable family q = []) :
    (d.screening family q).rejected.map (·.1) = d.idsWhere (Pattern.competes q) := by
  rw [viable, h.screening hf] at hnone
  rw [h.screening hf, Screening.rejected_ids_of_viable_eq_nil hnone, map_fst_withIds_idsWhere]

theorem nodup_rejected (h : d.Filed) (hf : d.family? q.name = some family)
    (hnone : d.viable family q = []) : (d.screening family q).rejected.Nodup := by
  refine List.Nodup.of_map Prod.fst ?_
  rw [rejected_ids h hf hnone]
  exact (d.idsWhere_pairwise _).imp Nat.ne_of_lt

theorem mem_rejected (h : d.Filed) (hf : d.family? q.name = some family) {id : PatternId}
    {reason : Rejection} :
    (id, reason) ∈ (d.screening family q).rejected ↔
      ∃ p, d.pattern? id = some p ∧ p.competes q = true ∧
        p.screen d.model family.flavor (d.siteArgs family q) q.explicitArgs = .error reason := by
  rw [h.screening hf, Screening.mem_rejected_ofPatterns]
  constructor
  · rintro ⟨p, hmem, herror⟩
    obtain ⟨hid, hp⟩ := mem_withIds.mp hmem
    obtain ⟨p', hp', hcompetes⟩ := (d.mem_idsWhere _).mp hid
    obtain rfl : p = p' := Option.some.inj (hp.symm.trans hp')
    exact ⟨p, hp, hcompetes, herror⟩
  · rintro ⟨p, hp, hcompetes, herror⟩
    exact ⟨p, mem_withIds.mpr ⟨(d.mem_idsWhere _).mpr ⟨p, hp, hcompetes⟩, hp⟩, herror⟩

end Declarations

end TemplateResolution
