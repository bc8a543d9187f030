import TemplateResolution.Proofs.Registry.Overloads
import TemplateResolution.Proofs.Resolution.Ranking
import Mathlib.Data.Sym.Sym2
import Mathlib.Logic.Equiv.Basic

/-!
# The order of declaration does not matter

Overloads of one name can be declared in any order.  Another order gives them other
numbers, and that is all: they are accepted in the one order if they are in the other,
and a query is answered with the same overloads under their other numbers
(`registerAll_order`).

The candidates for a query correspond one to one (`viable_renumber`).  Two of them are
compared at the same patterns and the same substitutions, so they outrank each other as
before; and where the order of two sides shows, in the pairs that are not ordered, it is
a comparison and its reversal, which give the same reason.
-/

namespace TemplateResolution

open Relation

/-! ### Corresponding resolutions -/

def Candidate.renumber (π : PatternId → PatternId) (c : Candidate) : Candidate :=
  { c with id := π c.id }

def OrderedPair.renumber (π : PatternId → PatternId) (e : OrderedPair) : OrderedPair :=
  { e with more := π e.more, less := π e.less }

def UnorderedPair.renumber (π : PatternId → PatternId) (e : UnorderedPair) : UnorderedPair :=
  { e with a := π e.a, b := π e.b }

/-- The two sides in either order, with the reason why they are not ordered. -/
def UnorderedPair.tie (e : UnorderedPair) : Sym2 PatternId × OrderingBasis := (s(e.a, e.b), e.basis)

/-- Two resolutions say the same of patterns that have other numbers in the second. -/
inductive Resolution.Corresponds (π : PatternId → PatternId) : Resolution → Resolution → Prop
  | resolved (s : Selection) :
    Corresponds π (.resolved s)
      (.resolved { s with pattern := π s.pattern, specializes := s.specializes.map π })
  | ambiguous {a b : Ambiguity} (maximal : (a.maximal.map π).Perm b.maximal)
      (considered : (a.considered.map π).Perm b.considered)
      (unordered : (a.unordered.map fun e => (e.renumber π).tie).Perm (b.unordered.map (·.tie)))
      (cycle : ∀ e, e ∈ a.cycle.map (·.renumber π) ↔ e ∈ b.cycle) :
    Corresponds π (.ambiguous a) (.ambiguous b)
  | unmatched {u v : Unmatched} (knownName : u.knownName = v.knownName)
      (considered : (u.considered.map fun e => (π e.1, e.2)).Perm v.considered) :
    Corresponds π (.unmatched u) (.unmatched v)

/-! ### Lists in another order -/

section Pairs

variable {α β : Type}

theorem pairs_map (f : α → β) (l : List α) : pairs (l.map f) = (pairs l).map (Prod.map f f) := by
  induction l with
  | nil => rfl
  | cons x l ih =>
    rw [List.map_cons, pairs, pairs, ih, List.map_append, List.map_map, List.map_map]
    rfl

/-- What is the same for both orders of a pair is found in the pairs of both orders of a list. -/
theorem pairs_filterMap_perm {l l' : List α} (h : l.Perm l') {f : α × α → Option β}
    (hf : ∀ x ∈ l, ∀ y ∈ l, f (x, y) = f (y, x)) :
    ((pairs l).filterMap f).Perm ((pairs l').filterMap f) := by
  induction h with
  | nil => exact .refl _
  | @cons x l l' hperm ih =>
    have hrest := ih fun y hy z hz => hf y (List.mem_cons_of_mem _ hy) z (List.mem_cons_of_mem _ hz)
    rw [pairs, pairs, List.filterMap_append, List.filterMap_append]
    exact ((hperm.map _).filterMap f).append hrest
  | swap x y l =>
    have hswap := hf y List.mem_cons_self x (List.mem_cons_of_mem _ List.mem_cons_self)
    simp only [pairs, List.map_cons, List.cons_append, List.filterMap_append, List.filterMap_cons,
      hswap]
    have hrest := List.perm_append_comm_assoc ((l.map (y, ·)).filterMap f)
      ((l.map (x, ·)).filterMap f) ((pairs l).filterMap f)
    cases f (x, y) with
    | none => exact hrest
    | some b => exact hrest.cons b
  | @trans l l' l'' hperm _ ih ih' =>
    refine (ih hf).trans (ih' fun x hx y hy => ?_)
    exact hf x (hperm.mem_iff.mpr hx) y (hperm.mem_iff.mpr hy)

end Pairs

/-- Lists with the same items at renumbered places are the same but for their order. -/
theorem perm_of_renumbering {α : Type} {ps qs : List α} (π : Equiv.Perm Nat)
    (h : ∀ i, qs[π i]? = ps[i]?) : ps.Perm qs := by
  have hnodup : ∀ l : List α, l.zipIdx.Nodup := by
    intro l
    refine List.Nodup.of_map Prod.snd ?_
    rw [List.zipIdx_map_snd]
    exact List.nodup_range'
  have hzip : (ps.zipIdx.map fun e => (e.1, π e.2)).Perm qs.zipIdx := by
    refine (List.perm_ext_iff_of_nodup ((hnodup ps).map ?_) (hnodup qs)).mpr ?_
    · rintro ⟨a, i⟩ ⟨b, j⟩ heq
      obtain ⟨hab, hij⟩ := Prod.mk.inj heq
      exact Prod.ext hab (π.injective hij)
    · rintro ⟨a, i⟩
      rw [List.mem_map, List.mk_mem_zipIdx_iff_getElem?]
      constructor
      · rintro ⟨⟨b, j⟩, hmem, heq⟩
        obtain ⟨rfl, rfl⟩ := Prod.mk.inj heq
        rw [h, List.mk_mem_zipIdx_iff_getElem?.mp hmem]
      · intro ha
        refine ⟨(a, π.symm i), List.mk_mem_zipIdx_iff_getElem?.mpr ?_, ?_⟩
        · rw [← h, Equiv.apply_symm_apply, ha]
        · rw [Equiv.apply_symm_apply]
  have hfst := hzip.map Prod.fst
  rw [List.map_map, List.zipIdx_map_fst] at hfst
  have hps : ps.zipIdx.map (Prod.fst ∘ fun e : α × Nat => (e.1, π e.2)) = ps :=
    List.zipIdx_map_fst 0 ps
  rwa [hps] at hfst

namespace Declarations

section

variable {model : TypeModel} {rules : OrderingRules} {name : String} {q : Query}
  {ps qs : List Pattern} {π : Equiv.Perm PatternId} (hπ : ∀ i, qs[π i]? = ps[i]?)
  (hps : ∀ p ∈ ps, p.IsOverload name) (hqs : ∀ p ∈ qs, p.IsOverload name)

theorem renumber_injective (π : Equiv.Perm PatternId) :
    Function.Injective (Candidate.renumber π) := by
  rintro ⟨i, p, σ⟩ ⟨j, p', σ'⟩ h
  obtain ⟨hid, hp, hσ⟩ := Candidate.mk.inj h
  exact congr (congr (congrArg Candidate.mk (π.injective hid)) hp) hσ

theorem map_id_renumber {us vs : List Candidate} (h : (us.map (Candidate.renumber π)).Perm vs) :
    ((us.map (·.id)).map π).Perm (vs.map (·.id)) := by
  have hid := h.map (·.id)
  rwa [List.map_map] at hid ⊢

variable (model) in
/-- The family of overloads, where there are some of that name. -/
theorem family?_eq_familyOf (hps : ∀ p ∈ ps, p.IsOverload name) (hne : ps ≠ [])
    (hname : q.name = name) : (ofPatterns model ps).family? q.name = some (familyOf name ps) := by
  rw [family?_ofOverloads hps, if_pos ⟨hne, hname⟩]

theorem resolve_ofOverloads (hps : ∀ p ∈ ps, p.IsOverload name) (hne : ps ≠ [])
    (hname : q.name = name) :
    (ofPatterns model ps).resolve rules q =
      (ofPatterns model ps).resolveAmong rules (familyOf name ps) q
        ((ofPatterns model ps).siteArgs (familyOf name ps) q) := by
  rw [resolve, family?_eq_familyOf model hps hne hname]
  rfl

/-- Without explicit specializations, what is selected is the candidate itself. -/
theorem select_ofOverloads (hps : ∀ p ∈ ps, p.IsOverload name) {c : Candidate}
    (hc : c ∈ (ofPatterns model ps).viable (familyOf name ps) q) (path : SelectionPath) :
    (ofPatterns model ps).select (familyOf name ps) q.primaryOnly path c =
      ⟨c.id, c.pattern.complete model c.substitution, path, none⟩ := by
  have hmem : c.pattern ∈ ps := by
    have hid := registered_of_mem_viable hc
    rw [pattern?_ofPatterns] at hid
    exact List.mem_of_getElem? hid
  have hspecializes : c.pattern.specializes = none := by
    rw [Pattern.specializes, (hps _ hmem).role]
  have hnone : (ofPatterns model ps).explicitAt? (familyOf name ps) c.id = fun _ => none := rfl
  rw [select, model_ofPatterns, hspecializes, hnone]
  simp

theorem free_ofPatterns (hps : ∀ p ∈ ps, p.IsOverload name) :
    ∀ p ∈ (ofPatterns model ps).patterns, p.PlaceholderFree := by
  intro p hp
  rw [patterns_ofPatterns] at hp
  exact (hps p hp).placeholderFree

/-- Two candidates are compared at their patterns and substitutions, whatever their numbers. -/
theorem comparison_renumber (π : PatternId → PatternId) (u v : Candidate) :
    (ofPatterns model qs).comparison rules (familyOf name ps) q (u.renumber π) (v.renumber π) =
      (ofPatterns model ps).comparison rules (familyOf name ps) q u v := by
  rw [comparison, comparison, model_ofPatterns, model_ofPatterns]
  rfl

/-- The pairs that are not ordered, with something that is told of each. -/
theorem map_tie_filter {β : Type} (d : Declarations) (family : Family)
    (l : List (Candidate × Candidate)) (f : UnorderedPair → β) :
    ((l.filter fun e => !(d.comparison rules family q e.1 e.2).isOrdered).map
        (d.tie rules family q)).map f =
      l.filterMap fun e =>
        if (d.comparison rules family q e.1 e.2).isOrdered then none
        else some (f (d.tie rules family q e)) := by
  rw [List.map_map, ← List.filterMap_eq_map', List.filterMap_filter]
  refine List.filterMap_congr fun e _ => ?_
  cases (d.comparison rules family q e.1 e.2).isOrdered <;> rfl

variable (rules) in
/-- Why two candidates are not ordered can be told in either order. -/
theorem tie_swap (hps : ∀ p ∈ ps, p.IsOverload name) {family : Family} {u v : Candidate}
    (hu : u ∈ (ofPatterns model ps).viable family q)
    (hv : v ∈ (ofPatterns model ps).viable family q) :
    ((ofPatterns model ps).comparison rules family q v u).isOrdered =
        ((ofPatterns model ps).comparison rules family q u v).isOrdered ∧
      ((ofPatterns model ps).tie rules family q (v, u)).tie =
        ((ofPatterns model ps).tie rules family q (u, v)).tie := by
  have hswap := comparison_swap rules (free_ofPatterns hps) hu hv
  constructor
  · rw [hswap, Comparison.isOrdered, Comparison.isOrdered, Comparison.reversed]
    cases ((ofPatterns model ps).comparison rules family q u v).specificity <;> rfl
  · have hbasis : ((ofPatterns model ps).comparison rules family q v u).basis =
        ((ofPatterns model ps).comparison rules family q u v).basis := by
      rw [hswap]
      rfl
    show (s(v.id, u.id), ((ofPatterns model ps).comparison rules family q v u).basis) =
      (s(u.id, v.id), ((ofPatterns model ps).comparison rules family q u v).basis)
    rw [hbasis, Sym2.eq_swap]

include hπ

theorem ne_nil_of_renumbering (hne : ps ≠ []) : qs ≠ [] := by
  rintro rfl
  exact hne (perm_of_renumbering π hπ).eq_nil

theorem familyOf_renumber : familyOf name qs = familyOf name ps := by
  rw [familyOf, familyOf, (perm_of_renumbering π hπ).length_eq]

include hps hqs

/-- **The candidates correspond.** -/
theorem mem_viable_renumber (hne : ps ≠ []) (hname : q.name = name) {c : Candidate} :
    c.renumber π ∈ (ofPatterns model qs).viable (familyOf name ps) q ↔
      c ∈ (ofPatterns model ps).viable (familyOf name ps) q := by
  have hfamily : (ofPatterns model qs).family? q.name = some (familyOf name ps) := by
    rw [family?_eq_familyOf model hqs (ne_nil_of_renumbering hπ hne) hname, familyOf_renumber hπ]
  rw [mem_viable filed_ofPatterns hfamily,
    mem_viable filed_ofPatterns (family?_eq_familyOf model hps hne hname)]
  have hregistered : (ofPatterns model qs).pattern? (π c.id) =
      (ofPatterns model ps).pattern? c.id := by
    rw [pattern?_ofPatterns, pattern?_ofPatterns, hπ]
  constructor
  · rintro ⟨hid, hcompetes, htakes⟩
    refine ⟨hregistered ▸ hid, hcompetes, ?_⟩
    rw [model_ofPatterns] at htakes ⊢
    exact htakes
  · rintro ⟨hid, hcompetes, htakes⟩
    refine ⟨hregistered.trans hid, hcompetes, ?_⟩
    rw [model_ofPatterns] at htakes ⊢
    exact htakes

variable (model) in
theorem viable_renumber (hne : ps ≠ []) (hname : q.name = name) :
    (((ofPatterns model ps).viable (familyOf name ps) q).map (Candidate.renumber π)).Perm
      ((ofPatterns model qs).viable (familyOf name ps) q) := by
  have hfamily : (ofPatterns model qs).family? q.name = some (familyOf name ps) := by
    rw [family?_eq_familyOf model hqs (ne_nil_of_renumbering hπ hne) hname, familyOf_renumber hπ]
  have hnodup : ((ofPatterns model ps).viable (familyOf name ps) q).Nodup :=
    nodup_viable filed_ofPatterns (family?_eq_familyOf model hps hne hname)
  have hnodup' : ((ofPatterns model qs).viable (familyOf name ps) q).Nodup :=
    nodup_viable filed_ofPatterns hfamily
  refine (List.perm_ext_iff_of_nodup (hnodup.map (renumber_injective π)) hnodup').mpr fun c => ?_
  rw [List.mem_map]
  constructor
  · rintro ⟨c, hc, rfl⟩
    exact (mem_viable_renumber hπ hps hqs hne hname).mpr hc
  · intro hc
    have heq : (c.renumber π.symm).renumber π = c := by
      rw [Candidate.renumber, Candidate.renumber, Equiv.apply_symm_apply]
    rw [← heq, mem_viable_renumber hπ hps hqs hne hname] at hc
    exact ⟨_, hc, heq⟩

/-- A candidate outranks another as it did under their other numbers. -/
theorem outranks_renumber (hne : ps ≠ []) (hname : q.name = name) {u v : Candidate} :
    (ofPatterns model qs).Outranks rules (familyOf name ps) q (u.renumber π) (v.renumber π) ↔
      (ofPatterns model ps).Outranks rules (familyOf name ps) q u v := by
  rw [Outranks, Outranks, mem_viable_renumber hπ hps hqs hne hname,
    mem_viable_renumber hπ hps hqs hne hname, comparison_renumber]

variable (model rules) in
theorem undominated_renumber (hne : ps ≠ []) (hname : q.name = name) :
    (((ofPatterns model ps).undominated rules (familyOf name ps) q).map
        (Candidate.renumber π)).Perm
      ((ofPatterns model qs).undominated rules (familyOf name ps) q) := by
  have hviable := viable_renumber model hπ hps hqs hne hname
  have hkeep : ∀ v, (decide (∀ u ∈ (ofPatterns model qs).viable (familyOf name ps) q,
        ¬ (ofPatterns model qs).Outranks rules (familyOf name ps) q u (v.renumber π))) =
      decide (∀ u ∈ (ofPatterns model ps).viable (familyOf name ps) q,
        ¬ (ofPatterns model ps).Outranks rules (familyOf name ps) q u v) := by
    intro v
    rw [decide_eq_decide]
    constructor
    · intro h u hu houtranks
      exact h (u.renumber π) ((mem_viable_renumber hπ hps hqs hne hname).mpr hu)
        ((outranks_renumber hπ hps hqs hne hname).mpr houtranks)
    · intro h u hu houtranks
      obtain ⟨w, hw, rfl⟩ := List.mem_map.mp (hviable.mem_iff.mpr hu)
      exact h w hw ((outranks_renumber hπ hps hqs hne hname).mp houtranks)
  have hfilter := hviable.filter fun v =>
    decide (∀ u ∈ (ofPatterns model qs).viable (familyOf name ps) q,
      ¬ (ofPatterns model qs).Outranks rules (familyOf name ps) q u v)
  rw [List.filter_map] at hfilter
  rw [undominated, undominated]
  refine List.Perm.trans (.of_eq ?_) hfilter
  exact congrArg (List.map _) (List.filter_congr fun v _ => (hkeep v).symm)

/-- Orderings on a cycle stay on it. -/
theorem cycle_renumber (hne : ps ≠ []) (hname : q.name = name) {e : OrderedPair}
    (he : e ∈ ((ofPatterns model ps).ranking rules (familyOf name ps) q).edges.filter
      ((ofPatterns model ps).ranking rules (familyOf name ps) q).onCycle) :
    e.renumber π ∈ ((ofPatterns model qs).ranking rules (familyOf name ps) q).edges.filter
      ((ofPatterns model qs).ranking rules (familyOf name ps) q).onCycle := by
  obtain ⟨u, v, houtranks, hback, rfl⟩ := (mem_cycle (free_ofPatterns hps)).mp he
  refine (mem_cycle (free_ofPatterns hqs)).mpr ⟨u.renumber π, v.renumber π,
    (outranks_renumber hπ hps hqs hne hname).mpr houtranks, ?_, ?_⟩
  · exact hback.lift (Candidate.renumber π) fun _ _ h =>
      (outranks_renumber hπ hps hqs hne hname).mpr h
  · rw [ordering, ordering, comparison_renumber]
    rfl

theorem mem_cycle_renumber (hne : ps ≠ []) (hname : q.name = name) (e : OrderedPair) :
    e ∈ (((ofPatterns model ps).ranking rules (familyOf name ps) q).edges.filter
        ((ofPatterns model ps).ranking rules (familyOf name ps) q).onCycle).map (·.renumber π) ↔
      e ∈ ((ofPatterns model qs).ranking rules (familyOf name ps) q).edges.filter
        ((ofPatterns model qs).ranking rules (familyOf name ps) q).onCycle := by
  have hback : ∀ i, ps[π.symm i]? = qs[i]? := by
    intro i
    rw [← hπ, Equiv.apply_symm_apply]
  rw [List.mem_map]
  constructor
  · rintro ⟨e, he, rfl⟩
    exact cycle_renumber hπ hps hqs hne hname he
  · intro he
    refine ⟨e.renumber π.symm, ?_, ?_⟩
    · rw [← familyOf_renumber hπ] at he ⊢
      exact cycle_renumber hback hqs hps (ne_nil_of_renumbering hπ hne) hname he
    · rw [OrderedPair.renumber, OrderedPair.renumber, Equiv.apply_symm_apply,
        Equiv.apply_symm_apply]

variable (rules) in
/-- The pairs of some candidates that are not ordered correspond, up to the order of their sides. -/
theorem unordered_renumber (hne : ps ≠ []) (hname : q.name = name) {us vs : List Candidate}
    (hperm : (us.map (Candidate.renumber π)).Perm vs)
    (hus : ∀ u ∈ us, u ∈ (ofPatterns model ps).viable (familyOf name ps) q) :
    ((((pairs us).filter fun e =>
        !((ofPatterns model ps).comparison rules (familyOf name ps) q e.1 e.2).isOrdered).map
          ((ofPatterns model ps).tie rules (familyOf name ps) q)).map
            fun e => (e.renumber π).tie).Perm
      ((((pairs vs).filter fun e =>
        !((ofPatterns model qs).comparison rules (familyOf name ps) q e.1 e.2).isOrdered).map
          ((ofPatterns model qs).tie rules (familyOf name ps) q)).map (·.tie)) := by
  rw [map_tie_filter, map_tie_filter]
  have hpairs : ((pairs us).filterMap fun e =>
        if ((ofPatterns model ps).comparison rules (familyOf name ps) q e.1 e.2).isOrdered then none
        else some ((((ofPatterns model ps).tie rules (familyOf name ps) q e).renumber π).tie)) =
      (pairs (us.map (Candidate.renumber π))).filterMap fun e =>
        if ((ofPatterns model qs).comparison rules (familyOf name ps) q e.1 e.2).isOrdered then none
        else some ((ofPatterns model qs).tie rules (familyOf name ps) q e).tie := by
    rw [pairs_map, List.filterMap_map]
    refine List.filterMap_congr fun e _ => ?_
    simp only [Function.comp_apply, Prod.map_fst, Prod.map_snd, tie, comparison_renumber]
    rfl
  rw [hpairs]
  refine pairs_filterMap_perm hperm fun x hx y hy => ?_
  have hmem : ∀ z ∈ us.map (Candidate.renumber π),
      z ∈ (ofPatterns model qs).viable (familyOf name ps) q := by
    intro z hz
    obtain ⟨u, hu, rfl⟩ := List.mem_map.mp hz
    exact (mem_viable_renumber hπ hps hqs hne hname).mpr (hus u hu)
  obtain ⟨hordered, htie⟩ := tie_swap rules hqs (hmem y hy) (hmem x hx)
  rw [hordered, htie]

/-- The pairs of candidates that none outranks correspond, up to the order of their sides. -/
theorem ties_renumber (hne : ps ≠ []) (hname : q.name = name) :
    ((((pairs ((ofPatterns model ps).undominated rules (familyOf name ps) q)).map
          ((ofPatterns model ps).tie rules (familyOf name ps) q)).map
            fun e => (e.renumber π).tie)).Perm
      (((pairs ((ofPatterns model qs).undominated rules (familyOf name ps) q)).map
          ((ofPatterns model qs).tie rules (familyOf name ps) q)).map (·.tie)) := by
  have hbest := undominated_renumber model rules hπ hps hqs hne hname
  have h := unordered_renumber rules hπ hps hqs hne hname hbest
    fun u hu => List.mem_of_mem_filter hu
  rwa [unordered_undominated (free_ofPatterns hps), unordered_undominated (free_ofPatterns hqs)]
    at h

/-- What is reported as ambiguous corresponds. -/
theorem ambiguity_renumber (hne : ps ≠ []) (hname : q.name = name) :
    Resolution.Corresponds π
      (.ambiguous ((ofPatterns model ps).ranking rules (familyOf name ps) q).ambiguity)
      (.ambiguous ((ofPatterns model qs).ranking rules (familyOf name ps) q).ambiguity) := by
  have hviable := viable_renumber model hπ hps hqs hne hname
  have hbest := undominated_renumber model rules hπ hps hqs hne hname
  by_cases hnone : (ofPatterns model ps).undominated rules (familyOf name ps) q = []
  · have hnone' : (ofPatterns model qs).undominated rules (familyOf name ps) q = [] := by
      rw [hnone] at hbest
      exact hbest.nil_eq.symm
    rw [ambiguity_of_dominated (free_ofPatterns hps) hnone,
      ambiguity_of_dominated (free_ofPatterns hqs) hnone']
    exact .ambiguous (map_id_renumber hviable) (map_id_renumber hviable)
      (unordered_renumber rules hπ hps hqs hne hname hviable fun _ hu => hu)
      (mem_cycle_renumber hπ hps hqs hne hname)
  · have hsome : (ofPatterns model qs).undominated rules (familyOf name ps) q ≠ [] := by
      intro hnil
      rw [hnil] at hbest
      exact hnone (List.map_eq_nil_iff.mp hbest.eq_nil)
    rw [ambiguity_of_undominated (free_ofPatterns hps) hnone,
      ambiguity_of_undominated (free_ofPatterns hqs) hsome]
    exact .ambiguous (map_id_renumber hbest) (map_id_renumber hviable)
      (ties_renumber hπ hps hqs hne hname) fun e => Iff.rfl

/-- Without a candidate, the same overloads are rejected for the same reasons. -/
theorem rejected_renumber (hne : ps ≠ []) (hname : q.name = name)
    (hnone : (ofPatterns model ps).viable (familyOf name ps) q = []) :
    ((((ofPatterns model ps).screening (familyOf name ps) q).rejected).map
        fun e => (π e.1, e.2)).Perm
      ((ofPatterns model qs).screening (familyOf name ps) q).rejected := by
  have hfamily := family?_eq_familyOf model hps hne hname
  have hfamily' : (ofPatterns model qs).family? q.name = some (familyOf name ps) := by
    rw [family?_eq_familyOf model hqs (ne_nil_of_renumbering hπ hne) hname, familyOf_renumber hπ]
  have hnone' : (ofPatterns model qs).viable (familyOf name ps) q = [] := by
    have hviable := viable_renumber model hπ hps hqs hne hname
    rw [hnone] at hviable
    exact hviable.nil_eq.symm
  have hnodup := nodup_rejected filed_ofPatterns hfamily hnone
  have hnodup' := nodup_rejected filed_ofPatterns hfamily' hnone'
  have hinjective : Function.Injective fun e : PatternId × Rejection => (π e.1, e.2) := by
    rintro ⟨i, a⟩ ⟨j, b⟩ heq
    obtain ⟨hid, hreason⟩ := Prod.mk.inj heq
    exact Prod.ext (π.injective hid) hreason
  refine (List.perm_ext_iff_of_nodup (hnodup.map hinjective) hnodup').mpr ?_
  rintro ⟨id, reason⟩
  have hregistered : (ofPatterns model qs).pattern? id =
      (ofPatterns model ps).pattern? (π.symm id) := by
    rw [pattern?_ofPatterns, pattern?_ofPatterns, ← hπ, Equiv.apply_symm_apply]
  rw [mem_rejected filed_ofPatterns hfamily', hregistered, List.mem_map]
  constructor
  · rintro ⟨⟨i, reason⟩, hmem, heq⟩
    obtain ⟨rfl, rfl⟩ := Prod.mk.inj heq
    obtain ⟨p, hp, hcompetes, herror⟩ := (mem_rejected filed_ofPatterns hfamily).mp hmem
    rw [model_ofPatterns] at herror ⊢
    exact ⟨p, by rw [Equiv.symm_apply_apply, hp], hcompetes, herror⟩
  · rintro ⟨p, hp, hcompetes, herror⟩
    refine ⟨(π.symm id, reason), (mem_rejected filed_ofPatterns hfamily).mpr ⟨p, hp, hcompetes, ?_⟩,
      Prod.ext (Equiv.apply_symm_apply π id) rfl⟩
    rw [model_ofPatterns] at herror ⊢
    exact herror

/-- What a candidate is selected with does not depend on its number. -/
theorem select_renumber (hne : ps ≠ []) (hname : q.name = name) {v : Candidate}
    (hv : v ∈ (ofPatterns model ps).viable (familyOf name ps) q) (path : SelectionPath) :
    Resolution.Corresponds π
      (.resolved ((ofPatterns model ps).select (familyOf name ps) q.primaryOnly path v))
      (.resolved ((ofPatterns model qs).select (familyOf name ps) q.primaryOnly path
        (v.renumber π))) := by
  have hv' : v.renumber π ∈ (ofPatterns model qs).viable (familyOf name qs) q := by
    rw [familyOf_renumber hπ, mem_viable_renumber hπ hps hqs hne hname]
    exact hv
  have hselect := select_ofOverloads hqs hv' path
  rw [familyOf_renumber hπ] at hselect
  rw [select_ofOverloads hps hv, hselect]
  exact .resolved ⟨v.id, v.pattern.complete model v.substitution, path, none⟩

theorem resolveAmong_renumber (hne : ps ≠ []) (hname : q.name = name) :
    Resolution.Corresponds π
      ((ofPatterns model ps).resolveAmong rules (familyOf name ps) q
        ((ofPatterns model ps).siteArgs (familyOf name ps) q))
      ((ofPatterns model qs).resolveAmong rules (familyOf name ps) q
        ((ofPatterns model qs).siteArgs (familyOf name ps) q)) := by
  have hviable := viable_renumber model hπ hps hqs hne hname
  have hbest := undominated_renumber model rules hπ hps hqs hne hname
  have hlength := hviable.length_eq
  rw [List.length_map] at hlength
  by_cases hnone : (ofPatterns model ps).viable (familyOf name ps) q = []
  · have hnone' : (ofPatterns model qs).viable (familyOf name ps) q = [] := by
      rw [hnone] at hviable
      exact hviable.nil_eq.symm
    rw [resolveAmong_nil hnone, resolveAmong_nil hnone']
    exact .unmatched rfl (rejected_renumber hπ hps hqs hne hname hnone)
  by_cases hmany : 2 ≤ ((ofPatterns model ps).viable (familyOf name ps) q).length
  · have hmany' : 2 ≤ ((ofPatterns model qs).viable (familyOf name ps) q).length := hlength ▸ hmany
    by_cases hsole : ((ofPatterns model ps).undominated rules (familyOf name ps) q).length = 1
    · obtain ⟨v, hv⟩ := List.length_eq_one_iff.mp hsole
      have hmem : v ∈ (ofPatterns model ps).viable (familyOf name ps) q := by
        have hbest : v ∈ (ofPatterns model ps).undominated rules (familyOf name ps) q := by
          rw [hv]
          exact List.mem_singleton_self v
        exact List.mem_of_mem_filter hbest
      rw [hv, List.map_singleton] at hbest
      rw [resolveAmong_best (free_ofPatterns hps) hmany hv,
        resolveAmong_best (free_ofPatterns hqs) hmany' (List.singleton_perm.mp hbest).symm]
      exact select_renumber hπ hps hqs hne hname hmem _
    · have hsole' := hbest.length_eq
      rw [List.length_map] at hsole'
      rw [resolveAmong_ambiguous (free_ofPatterns hps) hmany hsole,
        resolveAmong_ambiguous (free_ofPatterns hqs) hmany' (hsole' ▸ hsole)]
      exact ambiguity_renumber hπ hps hqs hne hname
  · obtain ⟨v, hv⟩ : ∃ v, (ofPatterns model ps).viable (familyOf name ps) q = [v] := by
      have hpos := List.length_pos_iff.mpr hnone
      exact List.length_eq_one_iff.mp (by omega)
    rw [hv, List.map_singleton] at hviable
    rw [resolveAmong_singleton hv, resolveAmong_singleton (List.singleton_perm.mp hviable).symm]
    exact select_renumber hπ hps hqs hne hname (hv ▸ List.mem_singleton_self v) _

/-- **Overloads that are recorded in another order resolve every query alike.** -/
theorem resolve_renumber :
    Resolution.Corresponds π ((ofPatterns model ps).resolve rules q)
      ((ofPatterns model qs).resolve rules q) := by
  have hlength := (perm_of_renumbering π hπ).length_eq
  by_cases hfound : ps ≠ [] ∧ q.name = name
  · obtain ⟨hne, hname⟩ := hfound
    rw [resolve_ofOverloads hps hne hname,
      resolve_ofOverloads hqs (ne_nil_of_renumbering hπ hne) hname, familyOf_renumber hπ]
    exact resolveAmong_renumber hπ hps hqs hne hname
  · have hnone : (ofPatterns model ps).family? q.name = none := by
      rw [family?_ofOverloads hps, if_neg hfound]
    have hnone' : (ofPatterns model qs).family? q.name = none := by
      rw [family?_ofOverloads hqs, if_neg]
      rintro ⟨hne, hname⟩
      refine hfound ⟨?_, hname⟩
      rintro rfl
      exact hne (List.length_eq_zero_iff.mp hlength.symm)
    rw [resolve, resolve, hnone, hnone']
    exact .unmatched rfl (.refl _)

end

end Declarations

namespace Registry

open Declarations (ofPatterns)

/-- **The order in which overloads are declared does not matter.**  If they are accepted in one
order they are in any other, and queries are resolved alike. -/
theorem registerAll_order (model : TypeModel) {name : String} {ps qs : List Pattern}
    (π : Equiv.Perm PatternId) (hπ : ∀ i, qs[π i]? = ps[i]?) (hps : ∀ p ∈ ps, p.IsOverload name) :
    ((∃ r, (empty model).registerAll ps = .ok r) ↔ ∃ r, (empty model).registerAll qs = .ok r) ∧
      ∀ r r', (empty model).registerAll ps = .ok r → (empty model).registerAll qs = .ok r' →
        ∀ rules q, Resolution.Corresponds π (r.declarations.resolve rules q)
          (r'.declarations.resolve rules q) := by
  have hperm := perm_of_renumbering π hπ
  have hqs : ∀ p ∈ qs, p.IsOverload name := fun p hp => hps p (hperm.mem_iff.mpr hp)
  have hchecks : ((∀ p ∈ ps, p.WellFormed model) ∧
        ps.Pairwise fun p q => (overloadComparator model).coincides p q = false) ↔
      ((∀ p ∈ qs, p.WellFormed model) ∧
        qs.Pairwise fun p q => (overloadComparator model).coincides p q = false) := by
    refine and_congr (forall_congr' fun p => imp_congr hperm.mem_iff Iff.rfl) ?_
    refine hperm.pairwise_iff fun h => ?_
    rwa [Comparator.coincides_comm]
  constructor
  · constructor
    · rintro ⟨r, hr⟩
      obtain ⟨hpassed, -⟩ := (registerAll_overloads hps).mp hr
      exact ⟨_, (registerAll_overloads hqs).mpr ⟨hchecks.mp hpassed, rfl⟩⟩
    · rintro ⟨r, hr⟩
      obtain ⟨hpassed, -⟩ := (registerAll_overloads hqs).mp hr
      exact ⟨_, (registerAll_overloads hps).mpr ⟨hchecks.mpr hpassed, rfl⟩⟩
  · intro r r' hr hr' rules q
    obtain ⟨-, rfl⟩ := (registerAll_overloads hps).mp hr
    obtain ⟨-, rfl⟩ := (registerAll_overloads hqs).mp hr'
    exact Declarations.resolve_renumber hπ hps hqs

/-- The query `f(int*)` goes to `f(T*)`, whether it is declared after `f(T)` or before it. -/
theorem registerAll_order_pointer :
    let model := AliasTable.empty.model
    let any := Pattern.overload "f" [{ name := "T", kind := .type }] [{ term := .param 0 }]
    let pointer :=
      Pattern.overload "f" [{ name := "T", kind := .type }] [{ term := .pointer (.param 0) }]
    let π : Equiv.Perm PatternId := Equiv.swap 0 1
    let d := ofPatterns model [any, pointer]
    let d' := ofPatterns model [pointer, any]
    let q : Query := { name := "f", args := [.pointer (.type "int")] }
    (∀ i, [pointer, any][π i]? = [any, pointer][i]?) ∧
      (∀ p ∈ [any, pointer], p.IsOverload "f") ∧
      (empty model).registerAll [any, pointer] = .ok { declarations := d } ∧
      (empty model).registerAll [pointer, any] = .ok { declarations := d' } ∧
      (d.resolve {} q).selected = some 1 ∧ (d'.resolve {} q).selected = some 0 ∧
      Resolution.Corresponds π (d.resolve {} q) (d'.resolve {} q) := by
  intro model any pointer π d d' q
  have hπ : ∀ i, [pointer, any][π i]? = [any, pointer][i]? := by
    intro i
    match i with
    | 0 => rfl
    | 1 => rfl
    | i + 2 => rw [Equiv.swap_apply_of_ne_of_ne (by simp) (by simp)]; rfl
  have hps : ∀ p ∈ [any, pointer], p.IsOverload "f" := by
    have hall : ∀ p ∈ [any, pointer], p.name = "f" ∧ p.role = .overload ∧ p.PlaceholderFree := by
      decide
    intro p hp
    obtain ⟨hname, hrole, hfree⟩ := hall p hp
    exact ⟨hname, hrole, hfree⟩
  have hd : (empty model).registerAll [any, pointer] = .ok { declarations := d } := rfl
  have hd' : (empty model).registerAll [pointer, any] = .ok { declarations := d' } := rfl
  obtain ⟨-, hcorresponds⟩ := registerAll_order model π hπ hps
  exact ⟨hπ, hps, hd, hd', rfl, rfl, hcorresponds _ _ hd hd' {} q⟩

end Registry

end TemplateResolution
