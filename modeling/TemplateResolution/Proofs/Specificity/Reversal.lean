import TemplateResolution.Proofs.Specificity.Outcome
import TemplateResolution.TypeModel.Alias

/-!
# Comparing the other way round

A comparison looks at the two patterns by turns: each is matched with the other,
and each rule for ties asks the same of both.  So with the patterns exchanged,
and the use-site with them, the outcome is the old one under the other names
(`outcome_swap`).

The rules that go through the positions need one thing for that: reversed
verdicts merge to the reversed verdict (`mergeAll_map_reversed`), since merging
never prefers a side.  With `compareAt_run_fst`, which makes the supplies of the two
runs indifferent, the statement holds of comparisons as they are run,
`compareAt_antisymmetric`.
-/

namespace TemplateResolution

/-! ### Verdicts -/

namespace Verdict

/-- The verdict with the two sides exchanged. -/
def reversed : Verdict → Verdict
  | neutral => neutral
  | decisive specificity basis => decisive specificity.reversed basis
  | conflict => conflict

theorem merge_reversed (v w : Verdict) : v.reversed.merge w.reversed = (v.merge w).reversed := by
  rcases v with _ | ⟨s, basis⟩ | _ <;> rcases w with _ | ⟨s', basis'⟩ | _ <;> try rfl
  cases s <;> cases s' <;> rfl

theorem mergeAll_map_reversed (verdicts : List Verdict) :
    mergeAll (verdicts.map reversed) = (mergeAll verdicts).reversed := by
  have hfold : ∀ v : Verdict,
      (verdicts.map reversed).foldl merge v.reversed = (verdicts.foldl merge v).reversed := by
    induction verdicts with
    | nil => intro v; rfl
    | cons w verdicts ih =>
      intro v
      rw [List.map_cons, List.foldl_cons, List.foldl_cons, merge_reversed, ih]
  exact hfold neutral

theorem ofTerms_swap (a b : Term) : ofTerms b a = (ofTerms a b).reversed := by
  cases a with
  | reference k x =>
    cases b with
    | reference l y =>
      rw [ofTerms, ofTerms]
      by_cases hkl : k = l
      · subst hkl
        by_cases hquals : x.quals = y.quals
        · simp [hquals, reversed]
        · -- two different sets of qualifiers do not include each other
          have hnot : ¬(x.quals.includes y.quals = true ∧ y.quals.includes x.quals = true) :=
            fun h => hquals (Qualifiers.includes_antisymm h.1 h.2)
          have hquals' : ¬y.quals = x.quals := fun h => hquals h.symm
          by_cases hx : x.quals.includes y.quals = true <;>
            by_cases hy : y.quals.includes x.quals = true
          · exact absurd ⟨hx, hy⟩ hnot
          · simp [hquals, hquals', hx, hy, reversed, Specificity.reversed]
          · simp [hquals, hquals', hx, hy, reversed, Specificity.reversed]
          · simp [hquals, hquals', hx, hy, reversed]
      · cases k <;> cases l <;> first | rfl | exact absurd rfl hkl
    | _ => rfl
  | _ => cases b <;> rfl

theorem ofSlots_swap (a b : List Slot) : ofSlots b a = (ofSlots a b).reversed := by
  rw [ofSlots, ofSlots, ← mergeAll_map_reversed, List.map_zipWith, List.zipWith_comm]
  refine congrArg (fun verdict => mergeAll (List.zipWith verdict a b)) ?_
  funext s t
  exact ofTerms_swap s.term.expanded t.term.expanded

end Verdict

/-- The use-site for the two candidates in the other order. -/
def UseSite.swap (site : UseSite) : UseSite := ⟨site.arity, site.b, site.a⟩

namespace Comparator

variable (c : Comparator)

theorem conversionVerdict_swap (site : UseSite) :
    conversionVerdict site.swap = (conversionVerdict site).reversed := by
  rw [conversionVerdict, conversionVerdict, ← Verdict.mergeAll_map_reversed, List.map_map]
  refine congrArg Verdict.mergeAll (List.map_congr_left fun position _ => ?_)
  dsimp only [UseSite.swap, Function.comp_apply]
  rcases site.a.hasConversionAt position with _ | _ <;>
    rcases site.b.hasConversionAt position with _ | _ <;> rfl

/-! ### Rules for ties -/

theorem breakTie_swap (a b : Pattern) (aSide bSide : Side) (bothWays : Bool) :
    c.breakTie b a bSide aSide bothWays =
      ((c.breakTie a b aSide bSide bothWays).1.reversed,
        (c.breakTie a b aSide bSide bothWays).2) := by
  have hdecorations : (if bothWays && c.flavor = .functionLike && c.rules.qualificationTieBreak then
        Verdict.ofSlots bSide.slots aSide.slots else .neutral) =
      Verdict.reversed (if bothWays && c.flavor = .functionLike && c.rules.qualificationTieBreak then
        Verdict.ofSlots aSide.slots bSide.slots else .neutral) := by
    split
    · exact Verdict.ofSlots_swap aSide.slots bSide.slots
    · rfl
  simp only [breakTie, hdecorations]
  generalize (if bothWays && c.flavor = .functionLike && c.rules.qualificationTieBreak then
    Verdict.ofSlots aSide.slots bSide.slots else .neutral) = decorations
  cases decorations with
  | decisive s basis => rfl
  | neutral | conflict =>
    -- what remains is the table of the pack rule, which reads the same from both sides
    rcases c.rules.packTieBreak with _ | _ <;> rcases a.isVariadic with _ | _ <;>
      rcases b.isVariadic with _ | _ <;> rfl

theorem weigh_swap (a b : Pattern) (aSide bSide : Side) (conversions : Verdict)
    (aFromB bFromA : Bool) :
    c.weigh b a bSide aSide conversions.reversed bFromA aFromB =
      (c.weigh a b aSide bSide conversions aFromB bFromA).reversed := by
  have htie := c.breakTie_swap a b aSide bSide
  rcases conversions with _ | ⟨s, basis⟩ | _ <;> rcases aFromB with _ | _ <;>
    rcases bFromA with _ | _ <;> simp [weigh, Verdict.reversed, Comparison.reversed, htie,
      Specificity.reversed]

/-! ### The two patterns exchanged -/

theorem heed_swap (site : Option UseSite) :
    c.heed (site.map UseSite.swap) = (c.heed site).map UseSite.swap := by
  rw [heed, heed]
  split <;> rfl

theorem sideAt_swap (site : Option UseSite) (p : Pattern) :
    c.sideAt (site.map UseSite.swap) p = c.sideAt site p := by
  rw [sideAt, sideAt, heed_swap]
  cases c.heed site <;> rfl

theorem conversionsFound_swap (a b : Side) (site : Option UseSite) :
    c.conversionsFound b a (site.map UseSite.swap) = (c.conversionsFound a b site).reversed := by
  rw [conversionsFound, conversionsFound, heed_swap,
    c.interchangeable_comm (b.mapTerms Term.erase)]
  cases c.heed site with
  | none => rfl
  | some site =>
    simp only [Option.map_some]
    split
    · exact conversionVerdict_swap site
    · rfl

theorem outcome_swap (a b : Pattern) (site : Option UseSite) :
    c.outcome b a (site.map UseSite.swap) = (c.outcome a b site).reversed := by
  simp only [outcome, sideAt_swap, conversionsFound_swap]
  exact c.weigh_swap a b _ _ _ _ _

/-- A pattern against itself, deduced in the same way, is never ordered. -/
theorem outcome_self (a : Pattern) {site : Option UseSite} (hsite : ∀ u ∈ site, u.a = u.b) :
    (c.outcome a a site).specificity = .unordered := by
  have hswap : site.map UseSite.swap = site := by
    cases site with
    | none => rfl
    | some u =>
      obtain ⟨arity, σ, τ⟩ := u
      obtain rfl : σ = τ := hsite _ rfl
      rfl
  have hself := congrArg Comparison.specificity (c.outcome_swap a a site)
  rw [hswap, Comparison.reversed] at hself
  cases hs : (c.outcome a a site).specificity with
  | unordered => rfl
  | _ => rw [hs] at hself; exact Specificity.noConfusion hself

/-- **Comparing is antisymmetric.**  From whatever supplies the placeholders are drawn, the patterns
in the other order give the reversed comparison, its evidence included; a pattern is not more
specialized than itself. -/
theorem compareAt_antisymmetric {a b : Pattern} (ha : a.PlaceholderFree)
    (hb : b.PlaceholderFree) :
    (∀ (site : Option UseSite) (supply supply' : PlaceholderSupply),
      ((c.compareAt b a (site.map UseSite.swap)).run supply').1 =
        ((c.compareAt a b site).run supply).1.reversed) ∧
    ∀ (site : Option UseSite) (supply : PlaceholderSupply), (∀ u ∈ site, u.a = u.b) →
      ((c.compareAt a a site).run supply).1.specificity = .unordered := by
  refine ⟨?_, ?_⟩
  · intro site supply supply'
    rw [c.compareAt_run_fst ha hb site supply, c.compareAt_run_fst hb ha _ supply', outcome_swap]
  · intro site supply hsite
    rw [c.compareAt_run_fst ha ha site supply]
    exact c.outcome_self a hsite

/-- `f(T&)` beats `f(T&&)` as the first of the two, and as the second with other placeholders. -/
theorem compareAt_antisymmetric_references :
    let c : Comparator := ⟨AliasTable.empty.model, {}, .functionLike⟩
    let parameters : List Parameter := [{ name := "T", kind := .type }]
    let lvalue := Pattern.overload "f" parameters [⟨.reference .lvalue (.param 0), none⟩]
    let forwarding := Pattern.overload "f" parameters [⟨.reference .rvalue (.param 0), none⟩]
    lvalue.PlaceholderFree ∧ forwarding.PlaceholderFree ∧
      ((c.compareAt lvalue forwarding none).run ⟨0⟩).1 =
        ⟨.aMoreSpecific, .referenceKind, true, true⟩ ∧
      ((c.compareAt forwarding lvalue none).run ⟨7⟩).1 =
        ⟨.bMoreSpecific, .referenceKind, true, true⟩ ∧
      ((c.compareAt lvalue lvalue none).run ⟨3⟩).1.specificity = .unordered := by
  intro c parameters lvalue forwarding
  have hl : lvalue.PlaceholderFree := by decide
  have hf : forwarding.PlaceholderFree := by decide
  have hordered : ((c.compareAt lvalue forwarding none).run ⟨0⟩).1 =
      ⟨.aMoreSpecific, .referenceKind, true, true⟩ := rfl
  obtain ⟨hswap, hself⟩ := c.compareAt_antisymmetric hl hf
  refine ⟨hl, hf, hordered, (hswap none ⟨0⟩ ⟨7⟩).trans ?_, hself none ⟨3⟩ ?_⟩
  · rw [hordered]
    rfl
  · intro u hu
    exact absurd hu (Option.not_mem_none u)

end Comparator

end TemplateResolution
