import TemplateResolution.Proofs.Registry.Duplicates
import Mathlib.Data.List.Perm.Basic

/-!
# Registering overloads

What comes of registering overloads of one name and nothing else.  They are accepted
if each is well-formed and no two of them declare the same (`registerAll_overloads`),
and neither depends on the order in which they come.  The registry is then what
recording them leads to, with one family that lists them all (`families_ofOverloads`).
-/

namespace TemplateResolution

/-- An overload of that name, in terms without placeholders. -/
structure Pattern.IsOverload (name : String) (p : Pattern) : Prop where
  name : p.name = name
  role : p.role = .overload
  placeholderFree : p.PlaceholderFree

/-- The comparator of overloads at registration. -/
def overloadComparator (model : TypeModel) : Comparator := ⟨model, {}, .functionLike⟩

namespace Declarations

variable {model : TypeModel} {name : String} {ps qs : List Pattern} {p : Pattern}

/-! ### Recording overloads -/

/-- The declarations of these patterns in this order. -/
def ofPatterns (model : TypeModel) (ps : List Pattern) : Declarations := ps.foldl record { model }

theorem ofPatterns_concat (ps : List Pattern) (p : Pattern) :
    ofPatterns model (ps ++ [p]) = (ofPatterns model ps).record p :=
  List.foldl_concat record { model } p ps

@[simp] theorem model_ofPatterns : (ofPatterns model ps).model = model := by
  induction ps using List.reverseRecOn with
  | nil => rfl
  | append_singleton ps p ih => rw [ofPatterns_concat]; exact ih

@[simp] theorem patterns_ofPatterns : (ofPatterns model ps).patterns = ps := by
  induction ps using List.reverseRecOn with
  | nil => rfl
  | append_singleton ps p ih =>
    rw [ofPatterns_concat]
    exact congrArg (· ++ [p]) ih

theorem pattern?_ofPatterns (id : PatternId) : (ofPatterns model ps).pattern? id = ps[id]? := by
  rw [pattern?, patterns_ofPatterns]

theorem filed_ofPatterns : (ofPatterns model ps).Filed := by
  induction ps using List.reverseRecOn with
  | nil => exact filed_empty model
  | append_singleton ps p ih => rw [ofPatterns_concat]; exact ih.record p

/-- The family of some overloads. -/
def familyOf (name : String) (ps : List Pattern) : Family :=
  { name, flavor := .functionLike, primaries := List.range ps.length }

theorem families_ofOverloads (hps : ∀ p ∈ ps, p.IsOverload name) :
    (ofPatterns model ps).families = if ps = [] then [] else [familyOf name ps] := by
  induction ps using List.reverseRecOn with
  | nil => rfl
  | append_singleton ps p ih =>
    have hp := hps p (List.mem_append_right _ (List.mem_singleton_self p))
    have hfamilies := ih fun q hq => hps q (List.mem_append_left _ hq)
    have hsize : (ofPatterns model ps).size = ps.length := by rw [size, patterns_ofPatterns]
    rw [ofPatterns_concat, if_neg (List.append_ne_nil_of_right_ne_nil _ (List.cons_ne_nil _ _))]
    show Family.enroll p.name p.role (ofPatterns model ps).size (ofPatterns model ps).families = _
    rw [hfamilies, hsize, hp.name, hp.role]
    cases ps with
    | nil => rfl
    | cons q ps =>
      have hname : (familyOf name (q :: ps)).name = name := rfl
      rw [if_neg (List.cons_ne_nil _ _), Family.enroll, if_pos hname]
      simp [Family.add, familyOf, List.range_succ]

theorem family?_ofOverloads (hps : ∀ p ∈ ps, p.IsOverload name) (other : String) :
    (ofPatterns model ps).family? other =
      if ps ≠ [] ∧ other = name then some (familyOf name ps) else none := by
  rw [family?, families_ofOverloads hps]
  by_cases hnil : ps = []
  · simp [hnil]
  · by_cases hname : other = name
    · subst hname
      simp [hnil, familyOf]
    · have hne : ¬ name = other := fun h => hname h.symm
      simp [hnil, hname, hne, familyOf]

/-! ### Accepting overloads -/

theorem checkOverload_ofOverloads (hps : ∀ q ∈ ps, q.IsOverload name) (hp : p.IsOverload name) :
    (ofPatterns model ps).checkOverload p = .ok () ↔
      p.checkArguments model = .ok () ∧
        ∀ q ∈ ps, (overloadComparator model).coincides q p = false := by
  rw [checkOverload, except_bind_eq_ok, model_ofPatterns, hp.name, family?_ofOverloads hps]
  by_cases hnil : ps = []
  · subst hnil
    constructor
    · rintro ⟨⟨⟩, harguments, -⟩
      exact ⟨harguments, fun q hq => absurd hq List.not_mem_nil⟩
    · rintro ⟨harguments, -⟩
      exact ⟨(), harguments, rfl⟩
  · have hfamily : ps ≠ [] ∧ name = name := ⟨hnil, rfl⟩
    rw [if_pos hfamily]
    have hfree : ∀ id ∈ List.range ps.length, ∀ q, (ofPatterns model ps).pattern? id = some q →
        q.PlaceholderFree := by
      intro id _ q hq
      rw [pattern?_ofPatterns] at hq
      exact (hps q (List.mem_of_getElem? hq)).placeholderFree
    have hnew : (ofPatterns model ps).checkNew .functionLike (List.range ps.length) p = .ok () ↔
        ∀ q ∈ ps, (overloadComparator model).coincides q p = false := by
      rw [checkNew_eq_ok hp.placeholderFree hfree, comparator, model_ofPatterns]
      constructor
      · intro h q hq
        obtain ⟨id, hid⟩ := List.getElem?_of_mem hq
        have hlt := (List.getElem?_eq_some_iff.mp hid).1
        exact h id (List.mem_range.mpr hlt) q (by rw [pattern?_ofPatterns, hid])
      · intro h id _ q hq
        rw [pattern?_ofPatterns] at hq
        exact h q (List.mem_of_getElem? hq)
    rw [← hnew]
    constructor
    · rintro ⟨⟨⟩, harguments, h⟩
      exact ⟨harguments, h⟩
    · rintro ⟨harguments, h⟩
      exact ⟨(), harguments, h⟩

/-- An overload is accepted if it is well-formed and declares something new. -/
theorem accept_overload_iff (hps : ∀ q ∈ ps, q.IsOverload name) (hp : p.IsOverload name)
    {p' : Pattern} :
    (ofPatterns model ps).accept p = .ok p' ↔
      (p.WellFormed model ∧ ∀ q ∈ ps, (overloadComparator model).coincides q p = false) ∧
        p' = p := by
  rw [accept, except_bind_eq_ok, model_ofPatterns, hp.role]
  dsimp only
  constructor
  · rintro ⟨⟨⟩, hparameters, h⟩
    obtain ⟨⟨⟩, hoverload, h⟩ := except_bind_eq_ok.mp h
    obtain ⟨harguments, hnew⟩ := (checkOverload_ofOverloads hps hp).mp hoverload
    exact ⟨⟨⟨hparameters, harguments⟩, hnew⟩, (Except.ok.inj h).symm⟩
  · rintro ⟨⟨⟨hparameters, harguments⟩, hnew⟩, rfl⟩
    have hoverload := (checkOverload_ofOverloads hps hp).mpr ⟨harguments, hnew⟩
    exact ⟨(), hparameters, except_bind_eq_ok.mpr ⟨(), hoverload, rfl⟩⟩

end Declarations

namespace Registry

open Declarations (ofPatterns accept_overload_iff)

variable {model : TypeModel} {name : String}

theorem register_overload {ps : List Pattern} {p : Pattern} (hps : ∀ q ∈ ps, q.IsOverload name)
    (hp : p.IsOverload name) {id : PatternId} {r : Registry} :
    register { declarations := ofPatterns model ps } p = .ok (id, r) ↔
      (p.WellFormed model ∧ ∀ q ∈ ps, (overloadComparator model).coincides q p = false) ∧
        id = ps.length ∧ r = { declarations := ofPatterns model (ps ++ [p]) } := by
  have hsize : (ofPatterns model ps).size = ps.length := by
    rw [Declarations.size, Declarations.patterns_ofPatterns]
  rw [register, if_neg Bool.false_ne_true, except_bind_eq_ok, hsize, Declarations.ofPatterns_concat]
  constructor
  · rintro ⟨p', haccept, h⟩
    obtain ⟨hnew, rfl⟩ := (accept_overload_iff hps hp).mp haccept
    obtain ⟨rfl, rfl⟩ := Prod.mk.inj (Except.ok.inj h)
    exact ⟨hnew, rfl, rfl⟩
  · rintro ⟨hnew, rfl, rfl⟩
    exact ⟨p, (accept_overload_iff hps hp).mpr ⟨hnew, rfl⟩, rfl⟩

variable (model) in
/-- Overloads are accepted after others if each is well-formed and declares something new. -/
theorem registerAll_more_overloads {ps qs : List Pattern} (hps : ∀ p ∈ ps, p.IsOverload name)
    (hqs : ∀ q ∈ qs, q.IsOverload name) {r : Registry} :
    registerAll { declarations := ofPatterns model ps } qs = .ok r ↔
      ((∀ q ∈ qs, q.WellFormed model) ∧
        (∀ p ∈ ps, ∀ q ∈ qs, (overloadComparator model).coincides p q = false) ∧
        qs.Pairwise fun p q => (overloadComparator model).coincides p q = false) ∧
      r = { declarations := ofPatterns model (ps ++ qs) } := by
  induction qs generalizing ps with
  | nil =>
    rw [registerAll, List.append_nil]
    constructor
    · intro h
      exact ⟨⟨fun q hq => absurd hq List.not_mem_nil,
        fun p _ q hq => absurd hq List.not_mem_nil, .nil⟩, (Except.ok.inj h).symm⟩
    · rintro ⟨-, rfl⟩
      rfl
  | cons q qs ih =>
    obtain ⟨hq, hqs'⟩ := List.forall_mem_cons.mp hqs
    have hps' : ∀ p ∈ ps ++ [q], p.IsOverload name := by
      intro p hp
      rcases List.mem_append.mp hp with hp | hp
      · exact hps p hp
      · exact List.mem_singleton.mp hp ▸ hq
    have hstep : registerAll { declarations := ofPatterns model ps } (q :: qs) = .ok r ↔
        (q.WellFormed model ∧ ∀ p ∈ ps, (overloadComparator model).coincides p q = false) ∧
          registerAll { declarations := ofPatterns model (ps ++ [q]) } qs = .ok r := by
      rw [registerAll]
      constructor
      · intro h
        cases hregister : register { declarations := ofPatterns model ps } q with
        | error e =>
          rw [hregister] at h
          exact Except.noConfusion rfl rfl (heq_of_eq h)
        | ok result =>
          obtain ⟨hnew, -, hr⟩ := (register_overload hps hq).mp hregister
          rw [hregister] at h
          exact ⟨hnew, hr ▸ h⟩
      · rintro ⟨hnew, h⟩
        rw [(register_overload hps hq).mpr ⟨hnew, rfl, rfl⟩]
        exact h
    rw [hstep, ih hps' hqs', List.append_assoc, List.singleton_append]
    simp only [List.forall_mem_cons, List.pairwise_cons, List.mem_append, List.mem_singleton]
    constructor
    · rintro ⟨⟨hwf, hnew⟩, ⟨hwfs, hapart, hpairwise⟩, hr⟩
      exact ⟨⟨⟨hwf, hwfs⟩, fun p hp => ⟨hnew p hp, hapart p (.inl hp)⟩, hapart q (.inr rfl),
        hpairwise⟩, hr⟩
    · rintro ⟨⟨⟨hwf, hwfs⟩, hapart, hfirst, hpairwise⟩, hr⟩
      refine ⟨⟨hwf, fun p hp => (hapart p hp).1⟩, ⟨hwfs, ?_, hpairwise⟩, hr⟩
      rintro p (hp | rfl)
      · exact (hapart p hp).2
      · exact hfirst

/-- **Overloads are accepted if each is well-formed and no two of them declare the same.** -/
theorem registerAll_overloads {ps : List Pattern} (hps : ∀ p ∈ ps, p.IsOverload name)
    {r : Registry} :
    (empty model).registerAll ps = .ok r ↔
      ((∀ p ∈ ps, p.WellFormed model) ∧
        ps.Pairwise fun p q => (overloadComparator model).coincides p q = false) ∧
      r = { declarations := ofPatterns model ps } := by
  have hnil : ∀ p ∈ ([] : List Pattern), p.IsOverload name := fun p hp =>
    absurd hp List.not_mem_nil
  have h := registerAll_more_overloads (r := r) model hnil hps
  rw [List.nil_append] at h
  constructor
  · intro hr
    obtain ⟨⟨hwf, -, hpairwise⟩, hr⟩ := h.mp hr
    exact ⟨⟨hwf, hpairwise⟩, hr⟩
  · rintro ⟨⟨hwf, hpairwise⟩, hr⟩
    exact h.mpr ⟨⟨hwf, fun p hp => absurd hp List.not_mem_nil, hpairwise⟩, hr⟩

end Registry

end TemplateResolution
