import TemplateResolution.Proofs.Matching.Primary
import TemplateResolution.TypeModel.Alias
import TemplateResolution.Proofs.Matching.Arguments
import Mathlib.Algebra.Ring.Int.Defs

/-!
# Offsets

An offset moves a constant, and offsets of offsets move it again and again.  The sums
are those of the integers, and each of them has to be a constant itself: a chain of
offsets comes to a constant if no sum on the way leaves the range
(`foldl_plus_eq_value_iff`), and what has left the range never comes back.

A match compares a chain of offsets at its end, when the parameter below it is bound.
So it makes no difference on which side of the parameter's own slot the chain stands
(`match?_offsetBy`).
-/

namespace TemplateResolution

/-- The term moved by each of `deltas` in turn. -/
def Term.offsetBy (base : Term) (deltas : List Int) : Term := deltas.foldl .offset base

/-- Whether every sum is a constant when `deltas` are added to `n` in turn. -/
def SumsFit (n : Int) (deltas : List Int) : Prop :=
  ∀ k < deltas.length, FitsConstant (n + (deltas.take (k + 1)).sum)

instance (n : Int) (deltas : List Int) : Decidable (SumsFit n deltas) :=
  inferInstanceAs (Decidable (∀ k < deltas.length, _))

theorem sumsFit_cons {n d : Int} {deltas : List Int} :
    SumsFit n (d :: deltas) ↔ FitsConstant (n + d) ∧ SumsFit (n + d) deltas := by
  have hsum : ∀ k, n + ((d :: deltas).take (k + 1)).sum = n + d + (deltas.take k).sum := by
    intro k
    rw [List.take_succ_cons, List.sum_cons, Int.add_assoc]
  constructor
  · intro h
    refine ⟨?_, fun k hk => ?_⟩
    · have hfirst := h 0 (Nat.succ_pos _)
      rwa [hsum, List.take_zero, List.sum_nil, Int.add_zero] at hfirst
    · have hnext := h (k + 1) (Nat.succ_lt_succ hk)
      rwa [hsum] at hnext
  · rintro ⟨hfirst, hrest⟩ k hk
    rw [hsum]
    cases k with
    | zero => rwa [List.take_zero, List.sum_nil, Int.add_zero]
    | succ k => exact hrest k (Nat.lt_of_succ_lt_succ hk)

namespace Term

/-! ### The sum of a chain -/

theorem plus_of_ne_value {base : Term} (h : ∀ n ty, base ≠ value n ty) (d : Int) :
    base.plus d = offset base d := by
  cases base with
  | value n ty => exact absurd rfl (h n ty)
  | _ => rfl

/-- What is no constant is moved to no constant. -/
theorem foldl_plus_ne_value (deltas : List Int) : ∀ {base : Term}, (∀ n ty, base ≠ value n ty) →
    ∀ n ty, deltas.foldl plus base ≠ value n ty := by
  induction deltas with
  | nil => exact fun h => h
  | cons d deltas ih =>
    intro base h
    rw [List.foldl_cons, plus_of_ne_value h]
    exact ih fun _ _ => Term.noConfusion

/-- A constant is moved to a constant exactly if all the sums on the way are constants. -/
theorem foldl_plus_eq_value_iff {deltas : List Int} : ∀ {n m : Int} {ty tm : String},
    deltas.foldl plus (value n ty) = value m tm ↔
      SumsFit n deltas ∧ m = n + deltas.sum ∧ tm = ty := by
  induction deltas with
  | nil =>
    intro n m ty tm
    simp [SumsFit, eq_comm]
  | cons d deltas ih =>
    intro n m ty tm
    rw [List.foldl_cons, plus, sumsFit_cons, List.sum_cons, ← Int.add_assoc]
    by_cases hfits : FitsConstant (n + d)
    · rw [if_pos hfits, ih, and_iff_right hfits]
    · rw [if_neg hfits]
      refine iff_of_false (foldl_plus_ne_value deltas (fun _ _ => Term.noConfusion) m tm) ?_
      exact fun h => hfits h.1.1

theorem subst_offsetBy (σ : Substitution) (deltas : List Int) : ∀ base : Term,
    (base.offsetBy deltas).subst σ = deltas.foldl plus (base.subst σ) := by
  induction deltas with
  | nil => exact fun _ => rfl
  | cons d deltas ih => exact fun base => ih (offset base d)

/-- A chain has an offset at its top. -/
theorem exists_offset_of_offsetBy (base : Term) {deltas : List Int} (h : deltas ≠ []) :
    ∃ below d, base.offsetBy deltas = offset below d := by
  rcases List.eq_nil_or_concat deltas with rfl | ⟨front, d, rfl⟩
  · exact absurd rfl h
  · exact ⟨base.offsetBy front, d, by rw [offsetBy, List.concat_eq_append, List.foldl_append]; rfl⟩

theorem subst_param {σ : Substitution} {id : ParamId} {t : Term}
    (h : σ.get? id = some (.single t)) : (param id).subst σ = t := by
  simp only [subst, Substitution.apply, Substitution.atParam, h]

theorem same_value_iff {leaf : String → String → Bool} {t : Term} {n : Int} {ty : String} :
    t.same leaf (value n ty) = true ↔ ∃ tt, t = value n tt ∧ leaf tt ty = true := by
  cases t with
  | value m tt =>
    rw [same, Bool.and_eq_true, beq_iff_eq]
    constructor
    · rintro ⟨rfl, hleaf⟩
      exact ⟨tt, rfl, hleaf⟩
    · rintro ⟨u, heq, hleaf⟩
      cases heq
      exact ⟨rfl, hleaf⟩
  | _ => simp [same]

end Term

/-! ### Matching a chain -/

namespace Deduction

/-- What a match of a parameter and of a chain over it comes to before its end. -/
def ofChain (deltas : List Int) (constant target : Term) : Deduction where
  substitution := .insert .empty 0 (.single constant)
  deferred := [((Term.param 0).offsetBy deltas, target)]

theorem finish_ofChain {m : Matching} {deltas : List Int} {v w : Int} {ty tw : String} :
    (ofChain deltas (.value v ty) (.value w tw)).finish m =
      if SumsFit v deltas ∧ w = v + deltas.sum ∧ m.model.sameLeaf ty tw = true then
        some (.insert .empty 0 (.single (.value v ty)))
      else none := by
  have hsubst : ((Term.param 0).offsetBy deltas).subst (.insert .empty 0 (.single (.value v ty))) =
      deltas.foldl .plus (.value v ty) := by
    rw [Term.subst_offsetBy, Term.subst_param (Substitution.get?_insert_self _ _ _)]
  have hsame : m.model.sameTerm (deltas.foldl .plus (.value v ty)) (.value w tw) = true ↔
      SumsFit v deltas ∧ w = v + deltas.sum ∧ m.model.sameLeaf ty tw = true := by
    rw [TypeModel.sameTerm, Term.same_value_iff]
    constructor
    · rintro ⟨tt, hvalue, hleaf⟩
      obtain ⟨hfit, hsum, rfl⟩ := Term.foldl_plus_eq_value_iff.mp hvalue
      exact ⟨hfit, hsum, hleaf⟩
    · rintro ⟨hfit, hsum, hleaf⟩
      exact ⟨ty, Term.foldl_plus_eq_value_iff.mpr ⟨hfit, hsum, rfl⟩, hleaf⟩
  simp only [finish, ofChain, List.all_cons, List.all_nil, Bool.and_true, hsubst, hsame]

end Deduction

namespace Matching

theorem slots_pair (m : Matching) {s t : Slot} (hs : s.isExpansion = false)
    (ht : t.isExpansion = false) (u v : Term) (d : Deduction) :
    m.slots [s, t] 0 [u, v] d =
      (m.position s.term u 0 d).bind fun d' => m.position t.term v 1 d' := by
  rw [slots_cons m hs]
  congr 1
  funext d'
  rw [slots_cons m ht]
  cases m.position t.term v 1 d' <;> rfl

variable {model : TypeModel} {x : Parameter} {deltas : List Int}

/-- A chain is compared at the end. -/
theorem unify_offsetBy (m : Matching) (hdeltas : deltas ≠ []) (base t : Term) (k : Nat)
    (d : Deduction) :
    m.unify (base.offsetBy deltas) t k d = some (d.defer (base.offsetBy deltas) t) := by
  obtain ⟨below, delta, hchain⟩ := Term.exists_offset_of_offsetBy base hdeltas
  rw [hchain, unify]

/-- A parameter and a chain over it find the same in either order. -/
theorem slots_param_offsetBy (hdeltas : deltas ≠ []) (hpack : model.isPack x = false) {t u : Term}
    (haccepts : model.accepts x t = true) {s s' : Slot} (hs : s.term = .param 0)
    (hs' : s'.term = (Term.param 0).offsetBy deltas) :
    (structural model [x]).slots [s, s'] 0 [t, u] (.start .empty) =
        some (.ofChain deltas t u) ∧
      (structural model [x]).slots [s', s] 0 [u, t] (.start .empty) =
        some (.ofChain deltas t u) := by
  have hexp : s.isExpansion = false := by
    rw [Slot.isExpansion, hs]
    rfl
  have hexp' : s'.isExpansion = false := by
    obtain ⟨below, delta, hchain⟩ := Term.exists_offset_of_offsetBy (.param 0) hdeltas
    rw [Slot.isExpansion, hs', hchain]
    rfl
  have hparam : ∀ (k : Nat) (d : Deduction), d.element = none → d.substitution.get? 0 = none →
      (structural model [x]).position s.term t k d =
        some { d with substitution := d.substitution.insert 0 (.single t) } := by
    intro k d helement hunbound
    rw [hs, position_param rfl, bindArgument_new (q := x) rfl hpack helement hunbound]
    exact if_pos haccepts
  have hchain : ∀ (k : Nat) (d : Deduction), (structural model [x]).position s'.term u k d =
      some (d.defer ((Term.param 0).offsetBy deltas) u) := by
    intro k d
    rw [hs']
    exact unify_offsetBy _ hdeltas _ u k d
  constructor
  · rw [slots_pair _ hexp hexp', hparam 0 _ rfl rfl, Option.bind_some, hchain]
    rfl
  · rw [slots_pair _ hexp' hexp, hchain, Option.bind_some, hparam 1 _ rfl rfl]
    rfl

end Matching

namespace Pattern

theorem slots_eq_pair {p : Pattern} {t u : Term} (h : p.args = [t, u]) :
    ∃ s s', p.slots = [s, s'] ∧ s.term = t ∧ s'.term = u := by
  obtain ⟨s, rest, hslots, hs, hrest⟩ := List.map_eq_cons_iff.mp h
  obtain ⟨s', rfl, hs'⟩ := List.map_eq_singleton_iff.mp hrest
  exact ⟨s, s', hslots, hs, hs'⟩

theorem match?_eq (model : TypeModel) (p : Pattern) (targets : List Term) :
    p.match? model .structural .empty targets =
      ((Matching.structural model p.parameters).slots p.slots 0 targets (.start .empty)).bind
        (Deduction.finish (Matching.structural model p.parameters)) :=
  rfl

/-- **Offsets are exact.**  Over a constant a chain of offsets comes to a constant if and only if
every sum on the way is one, and then to the last of the sums.  A pattern that has a value parameter
and a chain over it for its slots, in either order, matches two constants if and only if the second
is that sum, of the same type. -/
theorem match?_offsetBy {deltas : List Int} (hdeltas : deltas ≠ []) (v : Int) (ty : String) :
    (∀ (id : ParamId) (σ : Substitution), σ.get? id = some (.single (.value v ty)) →
      ((∃ n t, ((Term.param id).offsetBy deltas).subst σ = .value n t) ↔ SumsFit v deltas) ∧
      (SumsFit v deltas →
        ((Term.param id).offsetBy deltas).subst σ = .value (v + deltas.sum) ty)) ∧
    ∀ (model : TypeModel) (x : Parameter) (p : Pattern) (w : Int) (tw : String),
      p.parameters = [x] → model.isPack x = false → model.accepts x (.value v ty) = true →
      (p.args = [.param 0, (Term.param 0).offsetBy deltas] →
        p.match? model .structural .empty [.value v ty, .value w tw] =
          if SumsFit v deltas ∧ w = v + deltas.sum ∧ model.sameLeaf ty tw = true then
            some (.insert .empty 0 (.single (.value v ty)))
          else none) ∧
      (p.args = [(Term.param 0).offsetBy deltas, .param 0] →
        p.match? model .structural .empty [.value w tw, .value v ty] =
          if SumsFit v deltas ∧ w = v + deltas.sum ∧ model.sameLeaf ty tw = true then
            some (.insert .empty 0 (.single (.value v ty)))
          else none) := by
  refine ⟨fun id σ hσ => ?_, fun model x p w tw hparams hpack haccepts => ⟨fun hargs => ?_,
    fun hargs => ?_⟩⟩
  · have hiff : ∀ n t, ((Term.param id).offsetBy deltas).subst σ = .value n t ↔
        SumsFit v deltas ∧ n = v + deltas.sum ∧ t = ty := by
      intro n t
      rw [Term.subst_offsetBy, Term.subst_param hσ]
      exact Term.foldl_plus_eq_value_iff
    refine ⟨⟨?_, fun hfit => ⟨_, _, (hiff _ _).mpr ⟨hfit, rfl, rfl⟩⟩⟩,
      fun hfit => (hiff _ _).mpr ⟨hfit, rfl, rfl⟩⟩
    rintro ⟨n, t, hvalue⟩
    exact ((hiff n t).mp hvalue).1
  · obtain ⟨s, s', hslots, hs, hs'⟩ := slots_eq_pair hargs
    have hfound :=
      (Matching.slots_param_offsetBy (u := .value w tw) hdeltas hpack haccepts hs hs').1
    rw [match?_eq, hparams, hslots, hfound]
    exact Deduction.finish_ofChain
  · obtain ⟨s', s, hslots, hs', hs⟩ := slots_eq_pair hargs
    have hfound :=
      (Matching.slots_param_offsetBy (u := .value w tw) hdeltas hpack haccepts hs hs').2
    rw [match?_eq, hparams, hslots, hfound]
    exact Deduction.finish_ofChain

/-- At the greatest constant a step down and up again comes back to it, and is found in either
order of the slots; up and down again the sum is the same, but the first step is one too many. -/
theorem match?_offsetBy_limit :
    let model := AliasTable.empty.model
    let x : Parameter := { name := "X", kind := .value, valueType := some "long" }
    let limit : Int := 9223372036854775807
    let t : Term := .value limit "long"
    let σ : Substitution := .insert .empty 0 (.single t)
    let chain (deltas : List Int) : Term := (Term.param 0).offsetBy deltas
    let p (args : List Term) : Pattern := .partialOf "C" 0 [x] args
    [-1, 1] ≠ ([] : List Int) ∧ [1, -1] ≠ ([] : List Int) ∧ model.isPack x = false ∧
      model.accepts x t = true ∧
      (chain [-1, 1]).subst σ = t ∧ (¬∃ n ty, (chain [1, -1]).subst σ = .value n ty) ∧
      (p [.param 0, chain [-1, 1]]).match? model .structural .empty [t, t] = some σ ∧
      (p [chain [-1, 1], .param 0]).match? model .structural .empty [t, t] = some σ ∧
      (p [.param 0, chain [1, -1]]).match? model .structural .empty [t, t] = none := by
  intro model x limit t σ chain p
  have hx : model.isPack x = false := rfl
  have ht : model.accepts x t = true := rfl
  have hdown : [-1, 1] ≠ ([] : List Int) := List.cons_ne_nil _ _
  have hup : [1, -1] ≠ ([] : List Int) := List.cons_ne_nil _ _
  obtain ⟨hchain, hmatch⟩ := match?_offsetBy hdown limit "long"
  obtain ⟨hchain', hmatch'⟩ := match?_offsetBy hup limit "long"
  have hfit : SumsFit limit [-1, 1] := by decide
  have hunfit : ¬SumsFit limit [1, -1] := by decide
  refine ⟨hdown, hup, hx, ht, (hchain 0 σ rfl).2 hfit, fun h => hunfit ((hchain' 0 σ rfl).1.mp h),
    ?_, ?_, ?_⟩
  · rw [(hmatch model x _ limit "long" rfl hx ht).1 rfl]
    exact if_pos ⟨hfit, rfl, rfl⟩
  · rw [(hmatch model x _ limit "long" rfl hx ht).2 rfl]
    exact if_pos ⟨hfit, rfl, rfl⟩
  · rw [(hmatch' model x _ limit "long" rfl hx ht).1 rfl]
    exact if_neg fun h => hunfit h.1

end Pattern

end TemplateResolution
