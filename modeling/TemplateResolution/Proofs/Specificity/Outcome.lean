import TemplateResolution.Proofs.Matching.Renaming
import TemplateResolution.Proofs.Placeholder.Supply
import TemplateResolution.Specificity.Comparison

/-!
# Comparisons without a supply

A comparison draws its placeholders from a supply, and where it stands in a
series of comparisons decides which ones it gets.  That does not matter where
the patterns mention no placeholder themselves, since a match goes through a
renaming (`reproduces_run`).  So a comparison has one outcome, which `outcome`
writes without a supply, and every run gives it (`compareAt_run_fst`).
-/

namespace TemplateResolution

/-- The argument terms mention no placeholder. -/
def Side.PlaceholderFree (s : Side) : Prop := ∀ slot ∈ s.slots, slot.term.PlaceholderFree

/-- The argument terms mention no placeholder. -/
def Pattern.PlaceholderFree (p : Pattern) : Prop := (Side.ofPattern p).PlaceholderFree

instance (p : Pattern) : Decidable p.PlaceholderFree :=
  inferInstanceAs (Decidable (∀ slot ∈ p.slots, slot.term.PlaceholderFree))

namespace Side.PlaceholderFree

variable {s : Side}

theorem take (h : s.PlaceholderFree) (arity : Nat) : (s.take arity).PlaceholderFree :=
  fun slot hslot => h slot (List.mem_of_mem_take hslot)

theorem mapTerms_erase (h : s.PlaceholderFree) : (s.mapTerms Term.erase).PlaceholderFree := by
  intro slot hslot
  obtain ⟨slot, hmem, rfl⟩ := List.mem_map.mp hslot
  exact (h slot hmem).erase

theorem map_rename_slots (h : s.PlaceholderFree) (f : Nat → Nat) :
    s.slots.map (Slot.rename f) = s.slots := by
  have hslot : ∀ slot ∈ s.slots, slot.rename f = id slot := fun slot hmem => by
    rw [Slot.rename, Term.rename_of_placeholderFree (h slot hmem), id]
  rw [List.map_congr_left hslot, List.map_id]

theorem renameList_args (h : s.PlaceholderFree) (f : Nat → Nat) :
    Term.renameList f s.args = s.args := by
  rw [Term.renameList_eq_map]
  refine Term.map_rename_of_placeholderFree fun t ht => ?_
  obtain ⟨slot, hmem, rfl⟩ := List.mem_map.mp ht
  exact h slot hmem

end Side.PlaceholderFree

namespace Comparator

variable (c : Comparator)

/-- Whether `source` takes what `target` takes, with placeholders from a new supply. -/
def takes (mode : MatchMode) (source target : Side) : Bool :=
  ((c.reproduces mode source target).run {}).1

/-- **Which placeholders are drawn does not matter.** -/
theorem reproduces_run (mode : MatchMode) {source target : Side} (hs : source.PlaceholderFree)
    (ht : target.PlaceholderFree) (supply : PlaceholderSupply) :
    (c.reproduces mode source target).run supply =
      (c.takes mode source target, ⟨supply.issued + target.parameters.length⟩) := by
  obtain ⟨k⟩ := supply
  have hinj : Function.Injective (· + k) := fun i j h => Nat.add_right_cancel h
  let fresh : Substitution :=
    ((PlaceholderSupply.bindFrom c.model 0 target.parameters .empty).run ⟨0⟩).1
  have hfresh : (PlaceholderSupply.bindFrom c.model 0 target.parameters .empty).run ⟨k⟩ =
      (fresh.rename (· + k), ⟨k + target.parameters.length⟩) := by
    have hshift := PlaceholderSupply.bindFrom_shift c.model k target.parameters 0 .empty 0
    rwa [Substitution.rename_empty, Nat.zero_add] at hshift
  have htargets : Term.substList (fresh.rename (· + k)) target.args =
      (Term.substList fresh target.args).map (Term.rename (· + k)) := by
    have happly := Substitution.applyList_rename (f := (· + k)) target.args fresh
    rwa [ht.renameList_args, Term.renameList_eq_map] at happly
  have hmatch : (Matching.run c.model mode source.parameters source.slots .empty
        (Term.substList (fresh.rename (· + k)) target.args)).isSome =
      (Matching.run c.model mode source.parameters source.slots .empty
        (Term.substList fresh target.args)).isSome := by
    have hrun := Matching.run_rename hinj c.model mode source.parameters source.slots .empty
      (Term.substList fresh target.args)
    rw [hs.map_rename_slots, Substitution.rename_empty] at hrun
    rw [htargets, hrun, Option.isSome_map]
  rw [reproduces, StateT.run_bind, hfresh]
  exact Prod.ext hmatch rfl

/-- Whether each side takes what the other takes. -/
def interchangeable (a b : Side) : Bool := c.takes .structural a b && c.takes .structural b a

theorem interchangeable_comm (a b : Side) : c.interchangeable a b = c.interchangeable b a :=
  Bool.and_comm _ _

theorem reproduceEachOther_run {a b : Side} (ha : a.PlaceholderFree) (hb : b.PlaceholderFree)
    (supply : PlaceholderSupply) :
    ∃ supply', (c.reproduceEachOther a b).run supply = (c.interchangeable a b, supply') := by
  rw [reproduceEachOther, StateT.run_bind, c.reproduces_run .structural ha hb]
  cases htakes : c.takes .structural a b with
  | false => exact ⟨_, Prod.ext (by rw [interchangeable, htakes]; rfl) rfl⟩
  | true =>
    have hba := c.reproduces_run .structural hb ha ⟨supply.issued + b.parameters.length⟩
    exact ⟨_, hba.trans (Prod.ext (by rw [interchangeable, htakes]; rfl) rfl)⟩

/-- What conversions say, without a supply. -/
def conversionsFound (a b : Side) (site : Option UseSite) : Verdict :=
  match c.heed site with
  | some site =>
    if c.rules.conversionAvoidance &&
        c.interchangeable (a.mapTerms Term.erase) (b.mapTerms Term.erase) then
      conversionVerdict site
    else .neutral
  | none => .neutral

theorem conversionsAt_run {a b : Side} (ha : a.PlaceholderFree) (hb : b.PlaceholderFree)
    (site : Option UseSite) (supply : PlaceholderSupply) :
    ∃ supply', (c.conversionsAt a b site).run supply = (c.conversionsFound a b site, supply') := by
  rw [conversionsAt, conversionsFound]
  rcases c.heed site with _ | site
  · exact ⟨supply, rfl⟩
  · cases c.rules.conversionAvoidance with
    | false => exact ⟨supply, rfl⟩
    | true =>
      obtain ⟨supply', hrun⟩ :=
        c.reproduceEachOther_run ha.mapTerms_erase hb.mapTerms_erase supply
      simp only [if_true, Bool.true_and, avoidConversions, StateT.run_bind, hrun]
      refine ⟨supply', ?_⟩
      cases c.interchangeable (a.mapTerms Term.erase) (b.mapTerms Term.erase) <;> rfl

/-- Of all patterns the same part is compared. -/
theorem sideAt_cases (site : Option UseSite) :
    (∀ p, c.sideAt site p = .ofPattern p) ∨
      ∃ arity, ∀ p, c.sideAt site p = (Side.ofPattern p).take arity := by
  unfold sideAt
  rcases c.heed site with _ | site
  · exact .inl fun _ => rfl
  · cases c.rules.suppliedArgumentsOnly with
    | false => exact .inl fun _ => rfl
    | true => exact .inr ⟨site.arity, fun _ => rfl⟩

theorem sideAt_placeholderFree {p : Pattern} (hp : p.PlaceholderFree) (site : Option UseSite) :
    (c.sideAt site p).PlaceholderFree := by
  rcases c.sideAt_cases site with hside | ⟨arity, hside⟩
  · rw [hside]
    exact hp
  · rw [hside]
    exact hp.take arity

/-- A comparison without a supply. -/
def outcome (a b : Pattern) (site : Option UseSite) : Comparison :=
  let aSide := c.sideAt site a
  let bSide := c.sideAt site b
  c.weigh a b aSide bSide (c.conversionsFound aSide bSide site)
    (c.takes c.flavor.orderingMode bSide aSide) (c.takes c.flavor.orderingMode aSide bSide)

theorem compareAt_run {a b : Pattern} (ha : a.PlaceholderFree) (hb : b.PlaceholderFree)
    (site : Option UseSite) (supply : PlaceholderSupply) :
    ∃ supply', (c.compareAt a b site).run supply = (c.outcome a b site, supply') := by
  have ha' := c.sideAt_placeholderFree ha site
  have hb' := c.sideAt_placeholderFree hb site
  obtain ⟨supply', hrun⟩ := c.conversionsAt_run ha' hb' site
    ⟨supply.issued + (c.sideAt site b).parameters.length + (c.sideAt site a).parameters.length⟩
  refine ⟨supply', ?_⟩
  simp only [compareAt, StateT.run_bind, c.reproduces_run _ ha' hb', c.reproduces_run _ hb' ha']
  exact congrArg (fun found : Verdict × PlaceholderSupply =>
    (c.weigh a b (c.sideAt site a) (c.sideAt site b) found.1
      (c.takes c.flavor.orderingMode (c.sideAt site b) (c.sideAt site a))
      (c.takes c.flavor.orderingMode (c.sideAt site a) (c.sideAt site b)), found.2)) hrun

theorem compareAt_run_fst {a b : Pattern} (ha : a.PlaceholderFree) (hb : b.PlaceholderFree)
    (site : Option UseSite) (supply : PlaceholderSupply) :
    ((c.compareAt a b site).run supply).1 = c.outcome a b site := by
  obtain ⟨supply', hrun⟩ := c.compareAt_run ha hb site supply
  exact congrArg Prod.fst hrun

/-! ### Class-like families -/

section ClassLike

variable {model : TypeModel} {rules : OrderingRules} {a b : Pattern} {supply : PlaceholderSupply}
  {found : Comparison}
  (h : (((Comparator.mk model rules .classLike).compare a b).run supply).1 = found)

include h

/-- In a class-like family nothing but the two reproductions is weighed. -/
theorem classLike_weigh : found = (Comparator.mk model rules .classLike).weigh a b (.ofPattern a)
    (.ofPattern b) .neutral found.aFromB found.bFromA := by
  subst h
  rfl

/-- Where deduction favors `a`, the other pattern reproduces it. -/
theorem aFromB_of_deduction (hspecificity : found.specificity = .aMoreSpecific)
    (hbasis : found.basis = .deduction) : found.aFromB = true := by
  have hweigh := classLike_weigh h
  cases haFromB : found.aFromB with
  | true => rfl
  | false =>
    rw [haFromB] at hweigh
    cases hbFromA : found.bFromA with
    | true =>
      rw [hbFromA] at hweigh
      rw [hweigh] at hspecificity
      exact Specificity.noConfusion hspecificity
    | false =>
      rw [hbFromA] at hweigh
      rw [hweigh] at hbasis
      rcases hrule : rules.packTieBreak with _ | _ <;> rcases hva : a.isVariadic with _ | _ <;>
        rcases hvb : b.isVariadic with _ | _ <;>
        simp [weigh, breakTie, hrule, hva, hvb] at hbasis

/-- Where `b` is favored and not for lack of a pack, `a` reproduces it. -/
theorem bFromA_of_bMoreSpecific (hspecificity : found.specificity = .bMoreSpecific)
    (hbasis : found.basis ≠ .pack) : found.bFromA = true := by
  have hweigh := classLike_weigh h
  cases hbFromA : found.bFromA with
  | true => rfl
  | false =>
    rw [hbFromA] at hweigh
    cases haFromB : found.aFromB with
    | true =>
      rw [haFromB] at hweigh
      rw [hweigh] at hspecificity
      exact Specificity.noConfusion hspecificity
    | false =>
      rw [haFromB] at hweigh
      rw [hweigh] at hspecificity hbasis
      rcases hrule : rules.packTieBreak with _ | _ <;> rcases hva : a.isVariadic with _ | _ <;>
        rcases hvb : b.isVariadic with _ | _ <;>
        simp [weigh, breakTie, hrule, hva, hvb] at hspecificity hbasis

end ClassLike

end Comparator

end TemplateResolution
