import TemplateResolution.Proofs.Resolution.Entrants
import TemplateResolution.Proofs.Resolution.Graph
import TemplateResolution.Proofs.Specificity.Reversal

/-!
# The contest of the candidates

The candidates for a query are compared pair by pair in one run, each pair once.
Its graph has the candidates as nodes, and its edges are a relation between
candidates, `Beats`: numbers are paths between candidates written by number
(`path_iff`), since two candidates never have the same one.

Where the patterns mention no placeholder, it does not matter that the pairs are
compared in one run: the graph is what comparisons made one by one say
(`ranking_edges`, `ranking_unordered`), and one candidate beats another when a
comparison of the two ranks it above the other (`beats_iff`).
-/

namespace TemplateResolution

open Relation

/-! ### Pairs -/

section Pairs

variable {α : Type} {l : List α} {x y : α}

theorem mem_of_mem_pairs (h : (x, y) ∈ pairs l) : x ∈ l ∧ y ∈ l := by
  induction l with
  | nil => exact absurd h List.not_mem_nil
  | cons z l ih =>
    rcases List.mem_append.mp h with h | h
    · obtain ⟨w, hw, heq⟩ := List.mem_map.mp h
      obtain ⟨rfl, rfl⟩ := Prod.mk.inj heq
      exact ⟨List.mem_cons_self, List.mem_cons_of_mem _ hw⟩
    · obtain ⟨hx, hy⟩ := ih h
      exact ⟨List.mem_cons_of_mem _ hx, List.mem_cons_of_mem _ hy⟩

theorem mem_pairs_or (hx : x ∈ l) (hy : y ∈ l) (hne : x ≠ y) :
    (x, y) ∈ pairs l ∨ (y, x) ∈ pairs l := by
  induction l with
  | nil => exact absurd hx List.not_mem_nil
  | cons z l ih =>
    rcases List.mem_cons.mp hx with rfl | hx'
    · have hy' : y ∈ l := List.mem_of_ne_of_mem hne.symm hy
      exact .inl (List.mem_append_left _ (List.mem_map.mpr ⟨y, hy', rfl⟩))
    · rcases List.mem_cons.mp hy with rfl | hy'
      · exact .inr (List.mem_append_left _ (List.mem_map.mpr ⟨x, hx', rfl⟩))
      · exact (ih hx' hy').imp (List.mem_append_right _) (List.mem_append_right _)

theorem pairs_filter (keep : α → Bool) (l : List α) :
    pairs (l.filter keep) = (pairs l).filter fun e => keep e.1 && keep e.2 := by
  induction l with
  | nil => rfl
  | cons z l ih =>
    rw [pairs, List.filter_append, ← ih, List.filter_map, List.filter_cons]
    cases hz : keep z with
    | true =>
      rw [if_pos rfl, pairs]
      refine congrArg (fun zs : List α => zs.map (z, ·) ++ pairs (l.filter keep)) ?_
      refine List.filter_congr fun y _ => ?_
      rw [Function.comp_apply, hz, Bool.true_and]
    | false =>
      have hnone : l.filter ((fun e => keep e.1 && keep e.2) ∘ (z, ·)) = [] := by
        refine List.filter_eq_nil_iff.mpr fun y _ => ?_
        rw [Function.comp_apply, hz, Bool.false_and]
        exact Bool.false_ne_true
      rw [if_neg Bool.false_ne_true, hnone, List.map_nil, List.nil_append]

end Pairs

/-! ### Runs over a list -/

section Runs

variable {σ α β : Type} {f : α → StateM σ β}

/-- What a run over a list gives is what some item of the list gives in some state. -/
theorem exists_run_fst_of_mem_mapM {l : List α} {s : σ} {bs : List β}
    (hrun : ((l.mapM f).run s).1 = bs) {b : β} (h : b ∈ bs) :
    ∃ a ∈ l, ∃ s', ((f a).run s').1 = b := by
  subst hrun
  induction l generalizing s with
  | nil => exact absurd h List.not_mem_nil
  | cons a l ih =>
    rw [List.mapM_cons] at h
    rcases List.mem_cons.mp h with rfl | h
    · exact ⟨a, List.mem_cons_self, s, rfl⟩
    · obtain ⟨a', ha', s', hb⟩ := ih h
      exact ⟨a', List.mem_cons_of_mem _ ha', s', hb⟩

/-- A run over a list of items that give the same in every state. -/
theorem mapM_run_fst {g : α → β} {l : List α} (h : ∀ a ∈ l, ∀ s, ((f a).run s).1 = g a) (s : σ) :
    ((l.mapM f).run s).1 = l.map g := by
  induction l generalizing s with
  | nil => rfl
  | cons a l ih =>
    rw [List.mapM_cons]
    have htail := fun s' => ih (fun a' ha' => h a' (List.mem_cons_of_mem _ ha')) s'
    exact congrArg₂ List.cons (h a List.mem_cons_self s) (htail ((f a).run s).2)

end Runs

namespace Declarations

variable (d : Declarations) (rules : OrderingRules) (family : Family) (q : Query)

/-- The comparison of two candidates at the use-site, by a comparator of its own. -/
def comparison (u v : Candidate) : Comparison :=
  ((Comparator.compareAt ⟨d.model, rules, family.flavor⟩ u.pattern v.pattern
    (some ⟨q.args.length, u.substitution, v.substitution⟩)).run {}).1

/-- The graph of the candidates for a query. -/
def ranking : SpecificityGraph :=
  d.graph rules family.flavor q.args.length (d.viable family q)

/-- Of two candidates, the first is ranked above the second when they are compared. -/
def Outranks (u v : Candidate) : Prop :=
  u ∈ d.viable family q ∧ v ∈ d.viable family q ∧
    (d.comparison rules family q u v).specificity = .aMoreSpecific

/-- Of two candidates, the first was ranked above the second when the query was resolved. -/
def Beats (u v : Candidate) : Prop :=
  u ∈ d.viable family q ∧ v ∈ d.viable family q ∧ (d.ranking rules family q).Edge u.id v.id

variable {d rules family q}

/-! ### Nodes and edges -/

theorem ranking_nodes : (d.ranking rules family q).nodes = (d.viable family q).map (·.id) := rfl

/-- An edge comes from a comparison of two candidates, in some state of the supply. -/
theorem exists_comparison_of_mem_edges {e : OrderedPair}
    (he : e ∈ (d.ranking rules family q).edges) :
    ∃ u ∈ d.viable family q, ∃ v ∈ d.viable family q, ∃ supply,
      SpecificityGraph.edgeOf u.id v.id ((Comparator.compareAt ⟨d.model, rules, family.flavor⟩
        u.pattern v.pattern
        (some ⟨q.args.length, u.substitution, v.substitution⟩)).run supply).1 = some e := by
  obtain ⟨⟨a, b, c⟩, hmem, hedge⟩ := List.mem_filterMap.mp he
  obtain ⟨⟨x, y⟩, hxy, supply, hrun⟩ := exists_run_fst_of_mem_mapM rfl hmem
  obtain ⟨rfl, rfl, rfl⟩ : x.id = a ∧ y.id = b ∧ _ = c :=
    ⟨congrArg (·.1) hrun, congrArg (·.2.1) hrun, congrArg (·.2.2) hrun⟩
  obtain ⟨hx, hy⟩ := mem_of_mem_pairs hxy
  exact ⟨x, hx, y, hy, supply, hedge⟩

theorem exists_of_mem_edges {e : OrderedPair} (he : e ∈ (d.ranking rules family q).edges) :
    ∃ u ∈ d.viable family q, ∃ v ∈ d.viable family q, e.more = u.id ∧ e.less = v.id := by
  obtain ⟨x, hx, y, hy, supply, hedge⟩ := exists_comparison_of_mem_edges he
  rw [SpecificityGraph.edgeOf] at hedge
  split at hedge
  · obtain rfl := Option.some.inj hedge
    exact ⟨x, hx, y, hy, rfl, rfl⟩
  · obtain rfl := Option.some.inj hedge
    exact ⟨y, hy, x, hx, rfl, rfl⟩
  · exact absurd hedge (Option.some_ne_none e).symm

theorem ranking_closed : (d.ranking rules family q).Closed := by
  intro e he
  obtain ⟨u, -, v, hv, -, hless⟩ := exists_of_mem_edges he
  rw [hless, ranking_nodes]
  exact List.mem_map_of_mem hv

theorem edge_iff {a b : PatternId} :
    (d.ranking rules family q).Edge a b ↔
      ∃ u v, d.Beats rules family q u v ∧ u.id = a ∧ v.id = b := by
  constructor
  · rintro ⟨e, he, rfl, rfl⟩
    obtain ⟨u, hu, v, hv, hmore, hless⟩ := exists_of_mem_edges he
    exact ⟨u, v, ⟨hu, hv, e, he, hmore, hless⟩, hmore.symm, hless.symm⟩
  · rintro ⟨u, v, ⟨-, -, hedge⟩, rfl, rfl⟩
    exact hedge

/-- **Paths between numbers are paths between candidates.** -/
theorem path_iff {u v : Candidate} (hu : u ∈ d.viable family q) (hv : v ∈ d.viable family q) :
    ReflTransGen (d.ranking rules family q).Edge u.id v.id ↔
      ReflTransGen (d.Beats rules family q) u v := by
  constructor
  · intro hpath
    have hlift : ∀ {b : PatternId}, ReflTransGen (d.ranking rules family q).Edge u.id b →
        ∃ w ∈ d.viable family q, w.id = b ∧ ReflTransGen (d.Beats rules family q) u w := by
      intro b hpath
      induction hpath with
      | refl => exact ⟨u, hu, rfl, .refl⟩
      | tail _ hedge ih =>
        obtain ⟨w, hw, hid, hpath'⟩ := ih
        obtain ⟨w', x, hbeats, hid', rfl⟩ := edge_iff.mp hedge
        obtain rfl : w' = w := eq_of_id_eq hbeats.1 hw (hid'.trans hid.symm)
        exact ⟨x, hbeats.2.1, rfl, hpath'.tail hbeats⟩
    obtain ⟨w, hw, hid, hpath'⟩ := hlift hpath
    rwa [eq_of_id_eq hw hv hid] at hpath'
  · exact fun hpath => ReflTransGen.lift Candidate.id (fun _ _ hbeats => hbeats.2.2) _ _ hpath

/-- A candidate is maximal when none beats it. -/
theorem isMaximal_iff {v : Candidate} (hv : v ∈ d.viable family q) :
    (d.ranking rules family q).isMaximal v.id = true ↔ ∀ u, ¬ d.Beats rules family q u v := by
  rw [SpecificityGraph.isMaximal_iff]
  constructor
  · exact fun hmax u hbeats => hmax u.id hbeats.2.2
  · intro hmax a hedge
    obtain ⟨u, v', hbeats, -, hid⟩ := edge_iff.mp hedge
    obtain rfl : v' = v := eq_of_id_eq hbeats.2.1 hv hid
    exact hmax u hbeats

variable (rules) in
/-- Behind every candidate stands one that none beats, or one on a cycle. -/
theorem exists_unbeaten_or_cycle {v : Candidate} (hv : v ∈ d.viable family q) :
    ∃ s ∈ d.viable family q, ReflTransGen (d.Beats rules family q) s v ∧
      ((∀ u, ¬ d.Beats rules family q u s) ∨ TransGen (d.Beats rules family q) s s) := by
  have hviable : ∀ s, ReflTransGen (d.Beats rules family q) s v → s ∈ d.viable family q := by
    intro s hpath
    rcases hpath.cases_head with rfl | ⟨w, hbeats, -⟩
    · exact hv
    · exact hbeats.1
  have hfinite := (List.finite_toSet (d.viable family q)).subset hviable
  obtain ⟨s, hpath, hs⟩ := exists_source_or_cycle hfinite
  exact ⟨s, hviable s hpath, hpath, hs⟩

/-! ### Placeholder-free patterns -/

section PlaceholderFree

variable (hfree : ∀ p ∈ d.patterns, p.PlaceholderFree)
include hfree

theorem placeholderFree_of_mem_viable {c : Candidate} (hc : c ∈ d.viable family q) :
    c.pattern.PlaceholderFree :=
  hfree c.pattern (List.mem_of_getElem? (registered_of_mem_viable hc))

/-- A comparison of candidates gives the same from every supply. -/
theorem compareCandidates_run_fst {u v : Candidate} (hu : u ∈ d.viable family q)
    (hv : v ∈ d.viable family q) (supply : PlaceholderSupply) :
    ((compareCandidates ⟨d.model, rules, family.flavor⟩ q.args.length u v).run supply).1 =
      (u.id, v.id, d.comparison rules family q u v) := by
  have hu' := placeholderFree_of_mem_viable hfree hu
  have hv' := placeholderFree_of_mem_viable hfree hv
  have hrun := Comparator.compareAt_run_fst ⟨d.model, rules, family.flavor⟩ hu' hv'
    (some ⟨q.args.length, u.substitution, v.substitution⟩)
  exact congrArg (fun c : Comparison => (u.id, v.id, c)) ((hrun supply).trans (hrun {}).symm)

variable (rules) in
/-- Two candidates in the other order. -/
theorem comparison_swap {u v : Candidate} (hu : u ∈ d.viable family q)
    (hv : v ∈ d.viable family q) :
    d.comparison rules family q v u = (d.comparison rules family q u v).reversed := by
  have hu' := placeholderFree_of_mem_viable hfree hu
  have hv' := placeholderFree_of_mem_viable hfree hv
  rw [comparison, comparison, Comparator.compareAt_run_fst _ hu' hv',
    Comparator.compareAt_run_fst _ hv' hu']
  exact Comparator.outcome_swap _ u.pattern v.pattern
    (some ⟨q.args.length, u.substitution, v.substitution⟩)

theorem not_outranks_self (u : Candidate) : ¬ d.Outranks rules family q u u := by
  rintro ⟨hu, -, hmore⟩
  have hu' := placeholderFree_of_mem_viable hfree hu
  rw [comparison, Comparator.compareAt_run_fst _ hu' hu', Comparator.outcome_self] at hmore
  · exact Specificity.noConfusion hmore
  · rintro site ⟨⟩
    rfl

/-- Comparing in one run is comparing each pair by itself. -/
theorem ranking_eq :
    d.ranking rules family q =
      .ofComparisons ((d.viable family q).map (·.id)) ((pairs (d.viable family q)).map fun e =>
        (e.1.id, e.2.id, d.comparison rules family q e.1 e.2)) := by
  refine congrArg (SpecificityGraph.ofComparisons _) (mapM_run_fst ?_ _)
  rintro ⟨x, y⟩ hxy supply
  obtain ⟨hx, hy⟩ := mem_of_mem_pairs hxy
  exact compareCandidates_run_fst hfree hx hy supply

/-- **The edges are the pairs of candidates of which the first outranks the second.** -/
theorem mem_ranking_edges {e : OrderedPair} :
    e ∈ (d.ranking rules family q).edges ↔
      ∃ u v, d.Outranks rules family q u v ∧
        e = ⟨u.id, v.id, (d.comparison rules family q u v).basis⟩ := by
  rw [ranking_eq hfree, SpecificityGraph.ofComparisons, List.filterMap_map, List.mem_filterMap]
  constructor
  · rintro ⟨⟨x, y⟩, hxy, hedge⟩
    obtain ⟨hx, hy⟩ := mem_of_mem_pairs hxy
    cases hs : (d.comparison rules family q x y).specificity with
    | aMoreSpecific =>
      simp only [Function.comp_apply, SpecificityGraph.edgeOf, hs, Option.some.injEq] at hedge
      exact ⟨x, y, ⟨hx, hy, hs⟩, hedge.symm⟩
    | bMoreSpecific =>
      simp only [Function.comp_apply, SpecificityGraph.edgeOf, hs, Option.some.injEq] at hedge
      have hswap := comparison_swap rules hfree hx hy
      refine ⟨y, x, ⟨hy, hx, ?_⟩, ?_⟩
      · rw [hswap, Comparison.reversed, hs]
        rfl
      · rw [hswap]
        exact hedge.symm
    | unordered =>
      simp only [Function.comp_apply, SpecificityGraph.edgeOf, hs, reduceCtorEq] at hedge
  · rintro ⟨u, v, ⟨hu, hv, hs⟩, rfl⟩
    have hne : u ≠ v := by
      rintro rfl
      exact not_outranks_self hfree u ⟨hu, hu, hs⟩
    -- the two were compared in the order in which they were registered
    rcases mem_pairs_or hu hv hne with huv | hvu
    · refine ⟨(u, v), huv, ?_⟩
      simp only [Function.comp_apply, SpecificityGraph.edgeOf, hs]
    · refine ⟨(v, u), hvu, ?_⟩
      have hswap := comparison_swap rules hfree hu hv
      simp only [Function.comp_apply, SpecificityGraph.edgeOf, hswap, Comparison.reversed, hs,
        Specificity.reversed]

theorem beats_iff {u v : Candidate} :
    d.Beats rules family q u v ↔ d.Outranks rules family q u v := by
  constructor
  · rintro ⟨hu, hv, e, he, hmore, hless⟩
    obtain ⟨u', v', houtranks, rfl⟩ := (mem_ranking_edges hfree).mp he
    obtain rfl : u' = u := eq_of_id_eq houtranks.1 hu hmore
    obtain rfl : v' = v := eq_of_id_eq houtranks.2.1 hv hless
    exact houtranks
  · intro houtranks
    exact ⟨houtranks.1, houtranks.2.1, _, (mem_ranking_edges hfree).mpr ⟨u, v, houtranks, rfl⟩,
      rfl, rfl⟩

theorem beats_eq : d.Beats rules family q = d.Outranks rules family q := by
  funext u v
  exact propext (beats_iff hfree)

end PlaceholderFree

end Declarations

end TemplateResolution
