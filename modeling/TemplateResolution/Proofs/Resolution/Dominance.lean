import TemplateResolution.Proofs.Resolution.Ranking

/-!
# What the most specialized candidate beats

A candidate is selected as the most specialized when it is the only one that none
beats.  In an order that would put it above all others.  The rules for ties do not
make an order, though: three overloads can beat each other in a circle, each pair
for the sake of another parameter, and a fourth that is not ordered with any of
them is then the only one that none beats.

`mostSpecialized_dominates_iff` says when the selected candidate is above all
others, along a chain of comparisons: exactly when it is above every circle.
-/

namespace TemplateResolution

open Relation

namespace Declarations

variable {d : Declarations} {rules : OrderingRules} {family : Family} {q : Query}

/-! ### Inversion of a selection -/

theorem select_eq_or (d : Declarations) (family : Family) (primaryOnly : Bool)
    (path : SelectionPath) (v : Candidate) :
    d.select family primaryOnly path v = ⟨v.id, v.pattern.complete d.model v.substitution, path,
        v.pattern.specializes⟩ ∨
      (d.select family primaryOnly path v).path = .explicit := by
  rw [select]
  split
  · exact .inr rfl
  · exact .inl rfl

/-- In a class-like family, a candidate that is selected is not replaced. -/
theorem select_classLike (hclass : family.flavor = .classLike) (primaryOnly : Bool)
    (path : SelectionPath) (v : Candidate) :
    d.select family primaryOnly path v = ⟨v.id, v.pattern.complete d.model v.substitution, path,
      v.pattern.specializes⟩ := by
  rw [select, hclass]
  rfl

theorem path_of_selectExplicit {args : List Term} {id : PatternId} {s : Selection}
    (h : d.selectExplicit args id = some s) : s.path = .explicit := by
  rw [selectExplicit] at h
  split at h
  · exact absurd h (Option.some_ne_none s).symm
  · split at h
    · split at h
      · rw [← Option.some.inj h]
      · exact absurd h (Option.some_ne_none s).symm
    · exact absurd h (Option.some_ne_none s).symm

/-- What is not selected as an explicit specialization was selected among the candidates. -/
theorem resolveAmong_of_resolve {s : Selection} (hs : d.resolve rules q = .resolved s)
    (hpath : s.path ≠ .explicit) :
    ∃ family, d.family? q.name = some family ∧
      d.resolveAmong rules family q (d.siteArgs family q) = .resolved s := by
  rw [resolve] at hs
  cases hfamily : d.family? q.name with
  | none => rw [hfamily] at hs; exact Resolution.noConfusion hs
  | some family =>
    refine ⟨family, rfl, ?_⟩
    rw [hfamily] at hs
    rw [siteArgs]
    dsimp only at hs
    cases hflavor : family.flavor with
    | functionLike => rw [hflavor] at hs; exact hs
    | classLike =>
      rw [hflavor] at hs
      dsimp only at hs
      split at hs
      · rename_i selection hexplicit
        obtain rfl : selection = s := Resolution.resolved.inj hs
        split at hexplicit
        · exact absurd hexplicit (Option.some_ne_none selection).symm
        · obtain ⟨id, -, hid⟩ := List.exists_of_findSome?_eq_some hexplicit
          exact absurd (path_of_selectExplicit hid) hpath
      · exact hs

/-- The candidate behind a selection by rank: the only one that none beats, of several. -/
theorem exists_of_mostSpecialized {s : Selection} (hs : d.resolve rules q = .resolved s)
    (hpath : s.path = .mostSpecialized) :
    ∃ family w, d.family? q.name = some family ∧ 2 ≤ (d.viable family q).length ∧
      ((d.viable family q).filter fun c => (d.ranking rules family q).isMaximal c.id) = [w] ∧
      s = ⟨w.id, w.pattern.complete d.model w.substitution, .mostSpecialized,
        w.pattern.specializes⟩ := by
  have hne : s.path ≠ .explicit := fun h => SelectionPath.noConfusion (hpath.symm.trans h)
  obtain ⟨family, hfamily, hamong⟩ := resolveAmong_of_resolve hs hne
  rcases exists_of_resolveAmong hamong with ⟨u, -, rfl⟩ | ⟨w, hmany, hbest, rfl⟩
  · rcases d.select_eq_or family q.primaryOnly .soleCandidate u with hsole | hexplicit
    · rw [hsole] at hpath
      exact SelectionPath.noConfusion hpath
    · exact absurd hexplicit hne
  · refine ⟨family, w, hfamily, hmany, hbest, ?_⟩
    rcases d.select_eq_or family q.primaryOnly .mostSpecialized w with hselect | hexplicit
    · exact hselect
    · exact absurd hexplicit hne

/-! ### Above all others -/

/-- Behind a candidate other than the only one that none beats stands that one or a circle. -/
theorem beaten_by_best_or_cycle {w : Candidate} (hbest :
      ((d.viable family q).filter fun c => (d.ranking rules family q).isMaximal c.id) = [w])
    {v : Candidate} (hv : v ∈ d.viable family q) (hne : v ≠ w) :
    TransGen (d.Beats rules family q) w v ∨
      ∃ c, TransGen (d.Beats rules family q) c c ∧ ReflTransGen (d.Beats rules family q) c v := by
  obtain ⟨s, hs, hpath, hunbeaten | hcycle⟩ := exists_unbeaten_or_cycle rules hv
  · have hmem : s ∈ (d.viable family q).filter fun c =>
        (d.ranking rules family q).isMaximal c.id :=
      List.mem_filter.mpr ⟨hs, (isMaximal_iff hs).mpr hunbeaten⟩
    rw [hbest] at hmem
    obtain rfl := List.mem_singleton.mp hmem
    rcases reflTransGen_iff_eq_or_transGen.mp hpath with rfl | hpath
    · exact absurd rfl hne
    · exact .inl hpath
  · exact .inr ⟨s, hcycle, hpath⟩

/-- **The candidate selected as the most specialized is above all others exactly when it is above
every circle of candidates that beat each other.**  It is never beaten itself, and behind each
candidate that it is not above stands such a circle. -/
theorem mostSpecialized_dominates_iff {s : Selection} (hs : d.resolve rules q = .resolved s)
    (hpath : s.path = .mostSpecialized) :
    ∃ family w, d.family? q.name = some family ∧ w ∈ d.viable family q ∧ s.pattern = w.id ∧
      let candidates := d.viable family q
      let beats := d.Beats rules family q
      2 ≤ candidates.length ∧
      ((∀ v ∈ candidates, v ≠ w → TransGen beats w v) ↔
        ∀ c, TransGen beats c c → TransGen beats w c) ∧
      (∀ u, ¬ beats u w) ∧
      (∀ v ∈ candidates, v ≠ w → (∃ u, beats u v) ∧ (TransGen beats w v ∨
        ∃ c, TransGen beats c c ∧ ¬ TransGen beats w c ∧ ReflTransGen beats c v)) ∧
      ((∀ p ∈ d.patterns, p.PlaceholderFree) → beats = d.Outranks rules family q) := by
  obtain ⟨family, w, hfamily, hmany, hbest, rfl⟩ := exists_of_mostSpecialized hs hpath
  have hmem : w ∈ (d.viable family q).filter fun c => (d.ranking rules family q).isMaximal c.id :=
    hbest ▸ List.mem_singleton_self w
  obtain ⟨hw, hmax⟩ := List.mem_filter.mp hmem
  have hunbeaten : ∀ u, ¬ d.Beats rules family q u w := (isMaximal_iff hw).mp hmax
  refine ⟨family, w, hfamily, hw, rfl, hmany, ⟨?_, ?_⟩, hunbeaten, ?_, fun hfree => beats_eq hfree⟩
  · -- a candidate on a circle is beaten, so it is not the selected one
    intro hall c hcycle
    obtain ⟨b, -, hb⟩ := TransGen.tail'_iff.mp hcycle
    have hne : c ≠ w := by
      intro heq
      rw [heq] at hb
      exact hunbeaten b hb
    exact hall c hb.2.1 hne
  · intro hcycles v hv hne
    rcases beaten_by_best_or_cycle hbest hv hne with hpath | ⟨c, hcycle, hpath⟩
    · exact hpath
    · exact (hcycles c hcycle).trans_left hpath
  · intro v hv hne
    rcases beaten_by_best_or_cycle hbest hv hne with hpath | ⟨c, hcycle, hpath⟩
    · obtain ⟨b, -, hb⟩ := TransGen.tail'_iff.mp hpath
      exact ⟨⟨b, hb⟩, .inl hpath⟩
    · obtain ⟨b, -, hb⟩ := TransGen.tail'_iff.mp (hcycle.trans_left hpath)
      refine ⟨⟨b, hb⟩, ?_⟩
      by_cases habove : TransGen (d.Beats rules family q) w c
      · exact .inl (habove.trans_left hpath)
      · exact .inr ⟨c, hcycle, habove, hpath⟩

/-! ### A circle -/

/-- An overload `f` with three type parameters, one for each argument. -/
def threeWay (a b c : Term) : Pattern :=
  .overload "f" (["A", "B", "C"].map fun name => { name, kind := .type })
    [⟨a, none⟩, ⟨b, none⟩, ⟨c, none⟩]

/-- Three overloads that differ in their references, `f(A&, B, C&&)`, `f(A&&, B&, C)` and
`f(A, B&&, C&)`, and `f(A, B, C)`. -/
def circlePatterns : List Pattern :=
  [threeWay (.reference .lvalue (.param 0)) (.param 1) (.reference .rvalue (.param 2)),
    threeWay (.reference .rvalue (.param 0)) (.reference .lvalue (.param 1)) (.param 2),
    threeWay (.param 0) (.reference .rvalue (.param 1)) (.reference .lvalue (.param 2)),
    threeWay (.param 0) (.param 1) (.param 2)]

def circleOfOverloads : Declarations :=
  circlePatterns.foldl record Registry.standard.declarations

def circleFamily : Family := { name := "f", flavor := .functionLike, primaries := [0, 1, 2, 3] }

/-- A call with three lvalues. -/
def circleQuery : Query := { name := "f", args := .replicate 3 (.reference .lvalue (.type "int")) }

/-- The first three overloads beat each other in a circle, and the call goes to the fourth, which
beats none of them. -/
theorem mostSpecialized_dominates_iff_circle :
    let beats := circleOfOverloads.Beats {} circleFamily circleQuery
    Registry.Reachable { declarations := circleOfOverloads } ∧
    ∃ s w, circleOfOverloads.resolve {} circleQuery = .resolved s ∧ s.path = .mostSpecialized ∧
      s.pattern = 3 ∧ w ∈ circleOfOverloads.viable circleFamily circleQuery ∧ w.id = 3 ∧
      (∀ v, ¬ beats w v) ∧
      ¬ ∀ v ∈ circleOfOverloads.viable circleFamily circleQuery, v ≠ w → TransGen beats w v := by
  intro beats
  have haccepted : Registry.standard.registerAll circlePatterns =
      .ok { declarations := circleOfOverloads } := rfl
  have hfree : ∀ p ∈ circleOfOverloads.patterns, p.PlaceholderFree := by decide
  let int : Binding := .single (.type "int")
  have hs : circleOfOverloads.resolve {} circleQuery = .resolved
      ⟨3, ((Substitution.empty.insert 0 int).insert 1 int).insert 2 int, .mostSpecialized, none⟩ :=
    rfl
  obtain ⟨family, w, hfamily, hw, hid, -, hiff, -, -, hbeats⟩ :=
    mostSpecialized_dominates_iff hs rfl
  have hfamily' : circleOfOverloads.family? circleQuery.name = some circleFamily := rfl
  obtain rfl : circleFamily = family := Option.some.inj (hfamily'.symm.trans hfamily)
  have houtranks : beats = circleOfOverloads.Outranks {} circleFamily circleQuery := hbeats hfree
  have hnone : ∀ v, ¬ beats w v := by
    have hall : ∀ u ∈ circleOfOverloads.viable circleFamily circleQuery, u.id = 3 →
        ∀ v ∈ circleOfOverloads.viable circleFamily circleQuery,
          ¬ circleOfOverloads.Outranks {} circleFamily circleQuery u v := by decide
    intro v hv
    rw [houtranks] at hv
    exact hall w hw hid.symm v hv.2.1 hv
  have hcircle : ∃ a b c, beats a b ∧ beats b c ∧ beats c a := by
    have hsome : ∃ a ∈ circleOfOverloads.viable circleFamily circleQuery,
        ∃ b ∈ circleOfOverloads.viable circleFamily circleQuery,
        ∃ c ∈ circleOfOverloads.viable circleFamily circleQuery,
          circleOfOverloads.Outranks {} circleFamily circleQuery a b ∧
          circleOfOverloads.Outranks {} circleFamily circleQuery b c ∧
          circleOfOverloads.Outranks {} circleFamily circleQuery c a := by decide
    obtain ⟨a, -, b, -, c, -, h⟩ := hsome
    exact ⟨a, b, c, by rwa [houtranks]⟩
  refine ⟨Registry.Reachable.registerAll (.empty AliasTable.empty.model) haccepted,
    _, w, hs, rfl, rfl, hw, hid.symm, hnone, ?_⟩
  intro hall
  obtain ⟨a, b, c, hab, hbc, hca⟩ := hcircle
  have hcycle : TransGen beats a a := .tail (.tail (.single hab) hbc) hca
  obtain ⟨v, hv, -⟩ := TransGen.head'_iff.mp (hiff.mp hall a hcycle)
  exact hnone v hv

end Declarations

end TemplateResolution
