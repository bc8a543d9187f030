import TemplateResolution.Registry.Register
import Mathlib.Data.List.Nodup
import Mathlib.Data.List.Range

/-!
# Reachable registries

A registry comes about by declaring patterns one after the other, and it may be
closed on the way.  What every such registry has in common is that its families
are a filing of its patterns: each family lists the numbers of the patterns of
its name, by role and in the order of registration (`Reachable.filed`).

Whether a pattern is accepted plays no part in this, since `record` files what
it is given; so the invariant is one statement about `record`
(`Filed.record`), and a declaration that is refused changes nothing.
-/

namespace TemplateResolution

/-- Primaries and overloads, which the other roles refer to. -/
def Role.isBase : Role → Bool
  | .primary | .overload => true
  | .partialOf _ | .explicitOf _ _ => false

def Role.isPartial : Role → Bool
  | .partialOf _ => true
  | .primary | .overload | .explicitOf _ _ => false

def Role.isExplicit : Role → Bool
  | .explicitOf _ _ => true
  | .primary | .overload | .partialOf _ => false

namespace Declarations

/-! ### The numbers of some patterns -/

/-- The numbers of the patterns of some kind, in the order of registration. -/
def idsWhere (d : Declarations) (keep : Pattern → Bool) : List PatternId :=
  (d.patterns.zipIdx.filter fun (p, _) => keep p).map (·.2)

variable (d : Declarations) (keep : Pattern → Bool)

theorem mem_idsWhere {id : PatternId} :
    id ∈ d.idsWhere keep ↔ ∃ p, d.pattern? id = some p ∧ keep p = true := by
  rw [idsWhere, List.mem_map]
  constructor
  · rintro ⟨⟨p, i⟩, hmem, rfl⟩
    obtain ⟨hp, hkeep⟩ := List.mem_filter.mp hmem
    exact ⟨p, List.mk_mem_zipIdx_iff_getElem?.mp hp, hkeep⟩
  · rintro ⟨p, hp, hkeep⟩
    exact ⟨(p, id), List.mem_filter.mpr ⟨List.mk_mem_zipIdx_iff_getElem?.mpr hp, hkeep⟩, rfl⟩

theorem idsWhere_pairwise : (d.idsWhere keep).Pairwise (· < ·) := by
  have hall : (d.patterns.zipIdx.map (·.2)).Pairwise (· < ·) := by
    rw [List.zipIdx_map_snd]
    exact List.pairwise_lt_range' 1
  exact hall.sublist (List.filter_sublist.map _)

theorem idsWhere_nodup : (d.idsWhere keep).Nodup :=
  (d.idsWhere_pairwise keep).imp fun h => Nat.ne_of_lt h

theorem idsWhere_record (p : Pattern) :
    (d.record p).idsWhere keep = d.idsWhere keep ++ if keep p then [d.size] else [] := by
  rw [idsWhere, record, List.zipIdx_append, List.filter_append, List.map_append, Nat.zero_add]
  refine congrArg (d.idsWhere keep ++ ·) ?_
  cases hkeep : keep p <;> simp [hkeep, size]

/-- Two kinds that exclude each other, put together. -/
theorem ascending_idsWhere {keep keep' : Pattern → Bool}
    (hdisjoint : ∀ p, keep p = true → keep' p = false) :
    ascending (d.idsWhere keep ++ d.idsWhere keep') = d.idsWhere fun p => keep p || keep' p := by
  have hnodup : (d.idsWhere keep ++ d.idsWhere keep').Nodup := by
    refine List.Nodup.append (d.idsWhere_nodup keep) (d.idsWhere_nodup keep') ?_
    intro id hid hid'
    obtain ⟨p, hp, hkeep⟩ := (d.mem_idsWhere keep).mp hid
    obtain ⟨p', hp', hkeep'⟩ := (d.mem_idsWhere keep').mp hid'
    obtain rfl : p = p' := Option.some.inj (hp.symm.trans hp')
    rw [hdisjoint p hkeep] at hkeep'
    exact Bool.noConfusion hkeep'
  refine ascending_eq ?_ (d.idsWhere_pairwise _)
  refine (List.perm_ext_iff_of_nodup hnodup (d.idsWhere_nodup _)).mpr fun id => ?_
  rw [List.mem_append, mem_idsWhere, mem_idsWhere, mem_idsWhere]
  constructor
  · rintro (⟨p, hp, hkeep⟩ | ⟨p, hp, hkeep⟩)
    · exact ⟨p, hp, by rw [hkeep, Bool.true_or]⟩
    · exact ⟨p, hp, by rw [hkeep, Bool.or_true]⟩
  · rintro ⟨p, hp, hkeep⟩
    rcases (Bool.or_eq_true _ _).mp hkeep with hkeep | hkeep
    · exact .inl ⟨p, hp, hkeep⟩
    · exact .inr ⟨p, hp, hkeep⟩

theorem mem_withIds {d : Declarations} {ids : List PatternId} {id : PatternId} {p : Pattern} :
    (id, p) ∈ d.withIds ids ↔ id ∈ ids ∧ d.pattern? id = some p := by
  rw [withIds, List.mem_filterMap]
  constructor
  · rintro ⟨i, hi, hp⟩
    obtain ⟨p', hp', heq⟩ := Option.map_eq_some_iff.mp hp
    obtain ⟨rfl, rfl⟩ := Prod.mk.inj heq
    exact ⟨hi, hp'⟩
  · rintro ⟨hid, hp⟩
    exact ⟨id, hid, by rw [hp]; rfl⟩

theorem ascending_idsWhere_self : ascending (d.idsWhere keep) = d.idsWhere keep :=
  ascending_eq (.refl _) (d.idsWhere_pairwise keep)

/-! ### Filing -/

/-- A family that lists the patterns of its name. -/
structure Files (d : Declarations) (name : String) (f : Family) : Prop where
  primaries : f.primaries = d.idsWhere fun p => p.name = name && p.role.isBase
  partials : f.partials = d.idsWhere fun p => p.name = name && p.role.isPartial
  explicits : f.explicits = d.idsWhere fun p => p.name = name && p.role.isExplicit

/-- Every name's family lists the patterns of that name; a name without a family has none. -/
def Filed (d : Declarations) : Prop :=
  ∀ (name : String) (flavor : Flavor), d.Files name ((d.family? name).getD { name, flavor })

theorem filed_empty (model : TypeModel) : Filed { model } :=
  fun _ _ => ⟨rfl, rfl, rfl⟩

variable {d}

/-- A new pattern goes behind those of its role in its own family, and nowhere else. -/
theorem Files.record {name : String} {f : Family} (h : d.Files name f) (p : Pattern) :
    (d.record p).Files name (if p.name = name then f.add p.role d.size else f) := by
  obtain ⟨hprimaries, hpartials, hexplicits⟩ := h
  by_cases hname : p.name = name
  · rw [if_pos hname]
    cases hrole : p.role <;>
      constructor <;>
      simp [Family.add, idsWhere_record, hname, hrole, Role.isBase, Role.isPartial,
        Role.isExplicit, hprimaries, hpartials, hexplicits]
  · rw [if_neg hname]
    constructor <;> simp [idsWhere_record, hname, hprimaries, hpartials, hexplicits]

theorem Filed.record (h : d.Filed) (p : Pattern) : (d.record p).Filed := by
  intro name flavor
  rw [family?_record]
  by_cases hname : p.name = name
  · subst hname
    have hfiles := (h p.name p.role.flavor).record p
    rw [if_pos rfl] at hfiles ⊢
    exact hfiles
  · have hfiles := (h name flavor).record p
    rw [if_neg hname] at hfiles ⊢
    exact hfiles

theorem Filed.files (h : d.Filed) {name : String} {f : Family} (hf : d.family? name = some f) :
    d.Files name f := by
  have hfiles := h name f.flavor
  rwa [hf] at hfiles

end Declarations

/-! ### Runs of declarations -/

namespace Registry

/-- The registries that come about by declaring patterns and by closing. -/
inductive Reachable : Registry → Prop
  | empty (model : TypeModel) : Reachable (.empty model)
  | register {r r' : Registry} {p : Pattern} {id : PatternId} (h : Reachable r)
      (hp : r.register p = .ok (id, r')) : Reachable r'
  | freeze {r : Registry} (h : Reachable r) : Reachable r.freeze

theorem Reachable.registerAll {ps : List Pattern} {r r' : Registry} (h : r.Reachable)
    (hps : r.registerAll ps = .ok r') : r'.Reachable := by
  induction ps generalizing r with
  | nil =>
    obtain rfl := Except.ok.inj hps
    exact h
  | cons p ps ih =>
    rw [Registry.registerAll] at hps
    split at hps
    · rename_i id r₁ hp
      exact ih (h.register hp) hps
    · exact Except.noConfusion rfl rfl (heq_of_eq hps)

/-- A declaration that succeeds records what was accepted, under the next number. -/
theorem register_inv {r r' : Registry} {p : Pattern} {id : PatternId}
    (h : r.register p = .ok (id, r')) :
    ∃ accepted, r.frozen = false ∧ r.declarations.accept p = .ok accepted ∧
      id = r.declarations.size ∧
      r' = { r with declarations := r.declarations.record accepted } := by
  rw [register] at h
  cases hfrozen : r.frozen with
  | true => rw [hfrozen] at h; exact Except.noConfusion rfl rfl (heq_of_eq h)
  | false =>
    rw [hfrozen, if_neg Bool.false_ne_true] at h
    cases haccept : r.declarations.accept p with
    | error e => rw [haccept] at h; exact Except.noConfusion rfl rfl (heq_of_eq h)
    | ok accepted =>
      rw [haccept] at h
      obtain ⟨rfl, rfl⟩ := Prod.mk.inj (Except.ok.inj h)
      exact ⟨accepted, rfl, rfl, rfl, rfl⟩

/-- **The families of a registry file its patterns.** -/
theorem Reachable.filed {r : Registry} (h : r.Reachable) : r.declarations.Filed := by
  induction h with
  | empty model => exact Declarations.filed_empty model
  | register _ hp ih =>
    obtain ⟨accepted, -, -, -, rfl⟩ := register_inv hp
    exact ih.record accepted
  | freeze _ ih => exact ih

end Registry

end TemplateResolution
