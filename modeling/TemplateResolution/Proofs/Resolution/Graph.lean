import TemplateResolution.Resolution.Graph
import Mathlib.Data.Finset.Card
import Mathlib.Data.Set.Card
import Mathlib.Data.Set.Finite.Lemmas
import Mathlib.Logic.Relation

/-!
# Paths in a specificity graph

`reaches` searches in rounds, as many as there are nodes.  That is enough: a
round either finds nothing new, and then nothing is left to be found, or it adds
a node (`mem_within`).  So `reaches` decides whether a path exists
(`reaches_iff`), and the edges it takes to lie on a cycle are those that do
(`onCycle_iff`).

A cycle is what keeps a finite relation from having a source.  Going back from
any node, one comes to a source or to a node on a cycle (`exists_source_or_cycle`).
-/

namespace TemplateResolution

open Relation

/-! ### Finite relations -/

/-- **Behind every node stands a source or a cycle.** -/
theorem exists_source_or_cycle {α : Type} {r : α → α → Prop} {v : α}
    (hfinite : {s | ReflTransGen r s v}.Finite) :
    ∃ s, ReflTransGen r s v ∧ ((∀ u, ¬ r u s) ∨ TransGen r s s) := by
  -- a node with the fewest nodes behind it has behind it only such as it leads to itself
  obtain ⟨s, hs, hleast⟩ := Set.exists_min_image {s | ReflTransGen r s v}
    (fun s => {u | ReflTransGen r u s}.ncard) hfinite ⟨v, .refl⟩
  refine ⟨s, hs, ?_⟩
  by_cases hsource : ∀ u, ¬ r u s
  · exact .inl hsource
  · push Not at hsource
    obtain ⟨u, hu⟩ := hsource
    have hsub : {w | ReflTransGen r w u} ⊆ {w | ReflTransGen r w s} := fun w hw => hw.tail hu
    have hfinite' : {w | ReflTransGen r w s}.Finite := hfinite.subset fun w hw => hw.trans hs
    have hsame : {w | ReflTransGen r w u} = {w | ReflTransGen r w s} :=
      Set.eq_of_subset_of_ncard_le hsub (hleast u (hs.head hu)) hfinite'
    have hback : ReflTransGen r s u := by
      have hmem : s ∈ {w | ReflTransGen r w s} := .refl
      rwa [← hsame] at hmem
    exact .inr (TransGen.tail' hback hu)

namespace SpecificityGraph

/-- The first of two nodes is the more specialized by some edge. -/
def Edge (g : SpecificityGraph) (a b : PatternId) : Prop := ∃ e ∈ g.edges, e.more = a ∧ e.less = b

/-- The edges lead to nodes. -/
def Closed (g : SpecificityGraph) : Prop := ∀ e ∈ g.edges, e.less ∈ g.nodes

variable {g : SpecificityGraph}

theorem isMaximal_iff {id : PatternId} : g.isMaximal id = true ↔ ∀ a, ¬ g.Edge a id := by
  rw [isMaximal, Bool.not_eq_true', List.any_eq_false]
  constructor
  · rintro h a ⟨e, he, -, hless⟩
    exact h e he (decide_eq_true hless)
  · intro h e he hless
    exact h e.more ⟨e, he, rfl, of_decide_eq_true hless⟩

/-! ### One round -/

theorem mem_successors {reached : List PatternId} {b : PatternId} :
    b ∈ g.successors reached ↔ b ∉ reached ∧ ∃ a ∈ reached, g.Edge a b := by
  rw [successors, List.mem_map]
  constructor
  · rintro ⟨e, he, rfl⟩
    obtain ⟨hedge, hends⟩ := List.mem_filter.mp he
    rw [Bool.and_eq_true, List.contains_iff_mem, Bool.not_eq_true', List.contains_eq_mem,
      decide_eq_false_iff_not] at hends
    exact ⟨hends.2, e.more, hends.1, e, hedge, rfl, rfl⟩
  · rintro ⟨hnew, a, ha, e, he, rfl, rfl⟩
    refine ⟨e, List.mem_filter.mpr ⟨he, ?_⟩, rfl⟩
    rw [Bool.and_eq_true, List.contains_iff_mem, Bool.not_eq_true', List.contains_eq_mem,
      decide_eq_false_iff_not]
    exact ⟨ha, hnew⟩

/-- What a round that finds nothing has reached is all that can be reached. -/
theorem mem_of_successors_eq_nil {reached : List PatternId} (h : g.successors reached = [])
    {a b : PatternId} (ha : a ∈ reached) (hpath : ReflTransGen g.Edge a b) : b ∈ reached := by
  induction hpath with
  | refl => exact ha
  | tail _ hedge ih =>
    by_contra hnew
    have hmem := mem_successors.mpr ⟨hnew, _, ih, hedge⟩
    rw [h] at hmem
    exact List.not_mem_nil hmem

theorem subset_within (steps : Nat) (reached : List PatternId) :
    reached ⊆ g.within steps reached := by
  induction steps generalizing reached with
  | zero => exact fun _ h => h
  | succ steps ih =>
    intro a ha
    exact ih _ (List.mem_append_left _ ha)

/-! ### All rounds -/

theorem path_of_mem_within (steps : Nat) {reached : List PatternId} {b : PatternId}
    (h : b ∈ g.within steps reached) : ∃ a ∈ reached, ReflTransGen g.Edge a b := by
  induction steps generalizing reached with
  | zero => exact ⟨b, h, .refl⟩
  | succ steps ih =>
    obtain ⟨a, ha, hpath⟩ := ih h
    rcases List.mem_append.mp ha with ha | ha
    · exact ⟨a, ha, hpath⟩
    · obtain ⟨-, a', ha', hedge⟩ := mem_successors.mp (List.mem_eraseDups.mp ha)
      exact ⟨a', ha', hpath.head hedge⟩

/-- Rounds for all the nodes that are not reached yet are enough. -/
theorem mem_within (hclosed : g.Closed) (steps : Nat) {reached : List PatternId}
    (hnodes : reached ⊆ g.nodes)
    (hsteps : g.nodes.toFinset.card ≤ steps + reached.toFinset.card) {a b : PatternId}
    (ha : a ∈ reached) (hpath : ReflTransGen g.Edge a b) : b ∈ g.within steps reached := by
  have hsub : reached.toFinset ⊆ g.nodes.toFinset := fun x hx =>
    List.mem_toFinset.mpr (hnodes (List.mem_toFinset.mp hx))
  induction steps generalizing reached with
  | zero =>
    rw [Nat.zero_add] at hsteps
    have hall : reached.toFinset = g.nodes.toFinset := Finset.eq_of_subset_of_card_le hsub hsteps
    have hb : b ∈ g.nodes := by
      rcases hpath.cases_tail with rfl | ⟨c, -, e, he, -, rfl⟩
      · exact hnodes ha
      · exact hclosed e he
    rw [← List.mem_toFinset, ← hall] at hb
    exact List.mem_toFinset.mp hb
  | succ steps ih =>
    by_cases hnone : g.successors reached = []
    · exact subset_within (steps + 1) reached (mem_of_successors_eq_nil hnone ha hpath)
    · obtain ⟨c, hc⟩ := List.exists_mem_of_ne_nil _ hnone
      obtain ⟨hnew, -⟩ := mem_successors.mp hc
      have hnodes' : reached ++ (g.successors reached).eraseDups ⊆ g.nodes := by
        intro x hx
        rcases List.mem_append.mp hx with hx | hx
        · exact hnodes hx
        · obtain ⟨-, -, -, e, he, -, rfl⟩ := mem_successors.mp (List.mem_eraseDups.mp hx)
          exact hclosed e he
      have hmore : reached.toFinset.card <
          (reached ++ (g.successors reached).eraseDups).toFinset.card := by
        refine Finset.card_lt_card ⟨fun x hx => ?_, fun hback => hnew ?_⟩
        · exact List.mem_toFinset.mpr (List.mem_append_left _ (List.mem_toFinset.mp hx))
        · have hc' := List.mem_append_right reached (List.mem_eraseDups.mpr hc)
          exact List.mem_toFinset.mp (hback (List.mem_toFinset.mpr hc'))
      refine ih hnodes' (by omega) (List.mem_append_left _ ha) fun x hx => ?_
      exact List.mem_toFinset.mpr (hnodes' (List.mem_toFinset.mp hx))

/-- **The search finds a path where there is one.** -/
theorem reaches_iff (hclosed : g.Closed) {a b : PatternId} (ha : a ∈ g.nodes) :
    g.reaches a b = true ↔ ReflTransGen g.Edge a b := by
  rw [reaches, List.contains_iff_mem]
  constructor
  · intro h
    obtain ⟨a', ha', hpath⟩ := path_of_mem_within _ h
    obtain rfl := List.mem_singleton.mp ha'
    exact hpath
  · intro hpath
    refine mem_within hclosed g.nodes.length (fun x hx => ?_) ?_ (List.mem_singleton_self a) hpath
    · obtain rfl := List.mem_singleton.mp hx
      exact ha
    · have hcard := List.toFinset_card_le g.nodes
      omega

/-- An edge lies on a cycle when it can be travelled back. -/
theorem onCycle_iff (hclosed : g.Closed) {e : OrderedPair} (he : e ∈ g.edges) :
    g.onCycle e = true ↔ ReflTransGen g.Edge e.less e.more :=
  reaches_iff hclosed (hclosed e he)

end SpecificityGraph

end TemplateResolution
