import TemplateResolution.Proofs.Specificity.Order

/-!
# More specialized by deduction

A comparison in a class-like family has two findings, whether `b` reproduces `a` and whether `a`
reproduces `b`, and it is decided by deduction exactly if one holds and the other does not
(`weigh_deduction_iff`).  Reproducing is covering (`Finds.aFromB_iff`), whatever the use-site and
whichever placeholders are drawn.  As covering is transitive for regular patterns, so is the finding
that one pattern reproduces another, and what deduction decides is a strict order.
-/

namespace TemplateResolution

namespace Comparator

/-- A comparison of `a` and `b`, at some use-site or none and with some placeholders, finds this. -/
def Finds (c : Comparator) (a b : Pattern) (found : Comparison) : Prop :=
  ∃ site supply, ((c.compareAt a b site).run supply).1 = found

/-- Some comparison decides by deduction that `a` is more specialized than `b`. -/
def Deduces (c : Comparator) (a b : Pattern) : Prop :=
  ∃ found, c.Finds a b found ∧ found.specificity = .aMoreSpecific ∧ found.basis = .deduction

section

variable {model : TypeModel} {rules : OrderingRules} {a b : Pattern} {found : Comparison}

/-- With nothing to say about conversions, deduction decides for `a` exactly if `b` reproduces it
and is not reproduced by it. -/
theorem weigh_deduction_iff {c : Comparator} {aSide bSide : Side} {aFromB bFromA : Bool}
    (hflavor : c.flavor = .classLike) :
    ((c.weigh a b aSide bSide .neutral aFromB bFromA).specificity = .aMoreSpecific ∧
        (c.weigh a b aSide bSide .neutral aFromB bFromA).basis = .deduction) ↔
      aFromB = true ∧ bFromA = false := by
  cases aFromB <;> cases bFromA <;> cases hrule : c.rules.packTieBreak <;>
    cases hva : a.isVariadic <;> cases hvb : b.isVariadic <;>
    simp [weigh, breakTie, hflavor, hrule, hva, hvb]

/-- What any comparison of two patterns in a class-like family finds. -/
theorem Finds.eq_weigh (ha : a.PlaceholderFree) (hb : b.PlaceholderFree)
    (h : (Comparator.mk model rules .classLike).Finds a b found) :
    found = (Comparator.mk model rules .classLike).weigh a b (.ofPattern a) (.ofPattern b) .neutral
      (b.match? model .structural .empty (a.image model)).isSome
      (a.match? model .structural .empty (b.image model)).isSome := by
  obtain ⟨site, supply, rfl⟩ := h
  exact compareAt_run_fst _ ha hb site supply

/-- The second pattern reproduces the first exactly if it covers it. -/
theorem Finds.aFromB_iff (ha : a.PlaceholderFree) (hb : b.PlaceholderFree)
    (h : (Comparator.mk model rules .classLike).Finds a b found) :
    found.aFromB = true ↔ b.Covers model a := by
  rw [h.eq_weigh ha hb]
  exact Iff.rfl

theorem deduces_iff (ha : a.PlaceholderFree) (hb : b.PlaceholderFree) :
    (Comparator.mk model rules .classLike).Deduces a b ↔
      b.Covers model a ∧ ¬ a.Covers model b := by
  constructor
  · rintro ⟨found, hfound, hdecided⟩
    rw [hfound.eq_weigh ha hb, weigh_deduction_iff rfl] at hdecided
    exact ⟨hdecided.1, Bool.eq_false_iff.mp hdecided.2⟩
  · rintro ⟨hba, hab⟩
    have hfound : (Comparator.mk model rules .classLike).Finds a b _ := ⟨none, {}, rfl⟩
    refine ⟨_, hfound, ?_⟩
    rw [hfound.eq_weigh ha hb, weigh_deduction_iff rfl]
    exact ⟨hba, Bool.eq_false_iff.mpr hab⟩

end

/-- **Reproducing is transitive, and deduction orders patterns strictly.**  The patterns are those
of regular shape that registration accepts, and names are the same up to an equivalence. -/
theorem deduction_order {model : TypeModel} (hrefl : ∀ n, model.sameLeaf n n = true)
    (hsymm : ∀ k l, model.sameLeaf k l = true → model.sameLeaf l k = true)
    (htrans : ∀ k l n, model.sameLeaf k l = true → model.sameLeaf l n = true →
      model.sameLeaf k n = true) (rules : OrderingRules) :
    let c : Comparator := ⟨model, rules, .classLike⟩
    let Ranked := { p : Pattern // p.Regular model ∧ p.WellFormed model }
    (∀ (p q r : Ranked) (pq qr pr : Comparison), c.Finds p q pq → c.Finds q r qr →
        c.Finds p r pr → pq.aFromB = true → qr.aFromB = true → pr.aFromB = true) ∧
      IsStrictOrder Ranked fun p q => c.Deduces p q := by
  intro c Ranked
  have hcovers : ∀ p q r : Ranked, q.1.Covers model p → r.1.Covers model q →
      r.1.Covers model p := by
    rintro ⟨p, hp, hpwf⟩ ⟨q, hq, hqwf⟩ ⟨r, hr, hrwf⟩ hqp hrq
    exact hrq.trans hrefl hsymm htrans hp hpwf hq hqwf hr hqp
  have hdeduces : ∀ p q : Ranked,
      c.Deduces p q ↔ q.1.Covers model p ∧ ¬ p.1.Covers model q :=
    fun p q => deduces_iff p.2.1.placeholderFree q.2.1.placeholderFree
  constructor
  · intro p q r pq qr pr hpq hqr hpr hqp hrq
    have hp := p.2.1.placeholderFree
    have hq := q.2.1.placeholderFree
    have hr := r.2.1.placeholderFree
    rw [hpq.aFromB_iff hp hq] at hqp
    rw [hqr.aFromB_iff hq hr] at hrq
    exact (hpr.aFromB_iff hp hr).mpr (hcovers p q r hqp hrq)
  · refine { irrefl := fun p hp => ?_, trans := fun p q r hpq hqr => ?_ }
    · obtain ⟨hcover, hnot⟩ := (hdeduces p p).mp hp
      exact hnot hcover
    · obtain ⟨hqp, hpq'⟩ := (hdeduces p q).mp hpq
      obtain ⟨hrq, -⟩ := (hdeduces q r).mp hqr
      refine (hdeduces p r).mpr ⟨hcovers p q r hqp hrq, fun hpr => hpq' ?_⟩
      exact hcovers q r p hrq hpr

/-- `X<T*, T*>` is more specialized than `X<U*, Us...>`, and that than `X<Ts...>`. -/
theorem deduction_order_pointers :
    let model := AliasTable.empty.model
    let c : Comparator := ⟨model, {}, .classLike⟩
    let t : Parameter := { name := "T", kind := .type }
    let ts : Parameter := { name := "Ts", kind := .type, pack := true }
    let p := Pattern.partialOf "X" 0 [t] [.pointer (.param 0), .pointer (.param 0)]
    let q := Pattern.partialOf "X" 0 [t, ts] [.pointer (.param 0), .expansion (.param 1)]
    let r := Pattern.primary "X" [ts]
    let found : Comparison := ⟨.aMoreSpecific, .deduction, true, false⟩
    (∀ n, model.sameLeaf n n = true) ∧
      (∀ k l, model.sameLeaf k l = true → model.sameLeaf l k = true) ∧
      (∀ k l n, model.sameLeaf k l = true → model.sameLeaf l n = true →
        model.sameLeaf k n = true) ∧
      (∀ x ∈ [p, q, r], x.Regular model ∧ x.WellFormed model) ∧
      ((c.compare p q).run {}).1 = found ∧ ((c.compare q r).run {}).1 = found ∧
      ((c.compare p r).run {}).1.aFromB = true ∧ c.Deduces p r := by
  intro model c t ts p q r found
  have hrefl : ∀ n, model.sameLeaf n n = true := AliasTable.empty.sameLeaf_refl
  have hsymm : ∀ k l, model.sameLeaf k l = true → model.sameLeaf l k = true :=
    fun _ _ => AliasTable.empty.sameLeaf_symm
  have htrans : ∀ k l n, model.sameLeaf k l = true → model.sameLeaf l n = true →
      model.sameLeaf k n = true := fun _ _ _ => AliasTable.empty.sameLeaf_trans
  have hp : p.Regular model ∧ p.WellFormed model := ⟨by decide, rfl, rfl⟩
  have hq : q.Regular model ∧ q.WellFormed model := ⟨by decide, rfl, rfl⟩
  have hr : r.Regular model ∧ r.WellFormed model := ⟨by decide, rfl, rfl⟩
  have hpq : c.Finds p q found := ⟨none, {}, rfl⟩
  have hqr : c.Finds q r found := ⟨none, {}, rfl⟩
  obtain ⟨hreproduces, horder⟩ := deduction_order hrefl hsymm htrans {}
  refine ⟨hrefl, hsymm, htrans, ?_, rfl, rfl, ?_, ?_⟩
  · simp [hp, hq, hr]
  · exact hreproduces ⟨p, hp⟩ ⟨q, hq⟩ ⟨r, hr⟩ _ _ _ hpq hqr ⟨none, {}, rfl⟩ rfl rfl
  · exact horder.trans ⟨p, hp⟩ ⟨q, hq⟩ ⟨r, hr⟩ ⟨found, hpq, rfl, rfl⟩ ⟨found, hqr, rfl, rfl⟩

end Comparator

end TemplateResolution
