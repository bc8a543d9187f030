import TemplateResolution.Proofs.Pattern.TemplateArguments
import TemplateResolution.Proofs.Specificity.Closed
import TemplateResolution.Proofs.Specificity.Standing
import TemplateResolution.Proofs.Substitution.Building

/-!
# Completion closes a substitution

A substitution is closed if nothing that it binds mentions a parameter.  Completion takes each
default under what is bound by then, so it keeps a substitution closed as long as every default
finds all that it mentions: parameters in front of its own, which are bound when its turn comes,
and the pack only where its elements are written out (`DefaultsLookBack`).

The elements are written out in an expansion among the arguments of a template-id, and inside of it
the pack stands for one of them (`occurrences_apply_of_listed`).  In any other place the pack would
be left as the parameter that it is.  Whether its elements were there from the start, or it was
itself left out and has just become empty, makes no difference.

What is bound stays bound to the same, so a completed substitution is complete
(`complete_eq_self`).
-/

namespace TemplateResolution

namespace Term

mutual

/-- The occurrences outside the expansions that stand among the arguments of a template-id. -/
def unlistedOccurrences : Term → List ParamId
  | param id => [id]
  | apply head args => unlistedOccurrences head ++ unlistedOccurrencesList args
  | pointer inner | expansion inner | qualified _ inner | reference _ inner =>
    unlistedOccurrences inner
  | offset base _ => unlistedOccurrences base
  | placeholder _ | type _ | value _ _ | template _ => []

def unlistedOccurrencesList : List Term → List ParamId
  | [] => []
  | expansion _ :: ts => unlistedOccurrencesList ts
  | t :: ts => unlistedOccurrences t ++ unlistedOccurrencesList ts

end

theorem unlistedOccurrencesList_cons {t : Term} (ht : t.isExpansion = false) (ts : List Term) :
    unlistedOccurrencesList (t :: ts) = t.unlistedOccurrences ++ unlistedOccurrencesList ts := by
  cases t with
  | expansion inner => exact Bool.noConfusion ht
  | _ => rw [unlistedOccurrencesList]; exact fun _ he => Term.noConfusion he

end Term

/-! ### Closed instances -/

namespace Substitution

/-- Nothing that is bound mentions a parameter, and one pack at most is bound. -/
structure Closes (σ : Substitution) : Prop where
  closed : σ.AllTerms fun t => t.occurrences = []
  onePack : ∀ i j us vs, σ.get? i = some (.pack us) → σ.get? j = some (.pack vs) → i = j

variable {σ : Substitution}

theorem Closes.exists_single (hσ : σ.Closes) {id : ParamId} (hbound : (σ.get? id).isSome = true)
    (hpack : ∀ us, σ.get? id ≠ some (.pack us)) :
    ∃ u, σ.get? id = some (.single u) ∧ u.occurrences = [] := by
  obtain ⟨b, hb⟩ := Option.isSome_iff_exists.mp hbound
  cases b with
  | single u => exact ⟨u, hb, hσ.closed id _ hb u (List.mem_singleton_self u)⟩
  | pack us => exact absurd hb (hpack us)

/-- In a list, an expansion leaves no parameter, whether there is a pack in it or not. -/
theorem Closes.occurrences_expansion (hσ : σ.Closes) {inner : Term}
    (hbound : ∀ id ∈ inner.occurrences, (σ.get? id).isSome = true) :
    Term.occurrencesList (Term.substList σ [.expansion inner]) = [] := by
  rw [Term.substList, applyList]
  rcases hpack : σ.boundPack inner with _ | ⟨pack, us⟩
  · have hsingle : ∀ id ∈ inner.occurrences, ∀ us, σ.get? id ≠ some (.pack us) := by
      intro id hid us hus
      have hnone := List.findSome?_eq_none_iff.mp hpack id hid
      rw [hus] at hnone
      exact Option.some_ne_none _ hnone
    have hinner := occurrences_apply_eq_nil inner fun id hid =>
      hσ.exists_single (hbound id hid) (hsingle id hid)
    exact List.append_eq_nil_iff.mpr ⟨hinner, rfl⟩
  · obtain ⟨-, hus⟩ := boundPack_inv hpack
    refine List.eq_nil_iff_forall_not_mem.mpr fun id hid => ?_
    obtain ⟨s, hs, hid⟩ := Term.mem_occurrencesList.mp hid
    obtain ⟨e, he, rfl⟩ := List.mem_map.mp ((List.mem_append.mp hs).resolve_right List.not_mem_nil)
    -- under one element of the pack, everything in the expansion is bound to a term
    have hinner : (apply inner (σ.atElement pack e)).occurrences = [] := by
      refine occurrences_apply_eq_nil inner fun j hj => ?_
      rw [atElement, get?_insert]
      split
      · refine ⟨_, rfl, ?_⟩
        rw [Term.occurrences_expanded]
        exact hσ.closed pack _ hus e he
      · rename_i hne
        exact hσ.exists_single (hbound j hj) fun vs hvs => hne (hσ.onePack j pack vs us hvs hus)
    rw [Term.occurrences_expandedLike, hinner] at hid
    exact List.not_mem_nil hid

mutual

/-- **No parameter is left** of a term whose parameters are bound, packs being expanded. -/
theorem occurrences_apply_of_listed (hσ : σ.Closes) : ∀ t : Term,
    (∀ id ∈ t.occurrences, (σ.get? id).isSome = true) →
    (∀ id ∈ t.unlistedOccurrences, ∀ us, σ.get? id ≠ some (.pack us)) →
    (apply t σ).occurrences = []
  | .param id, hbound, hlisted => by
    have hid := List.mem_singleton_self id
    obtain ⟨u, hu, hclosed⟩ := hσ.exists_single (hbound id hid) (hlisted id hid)
    rw [apply, atParam, hu]
    exact hclosed
  | .placeholder _, _, _ | .type _, _, _ | .value _ _, _, _ | .template _, _, _ => rfl
  | .pointer t, hbound, hlisted | .expansion t, hbound, hlisted =>
    occurrences_apply_of_listed hσ t hbound hlisted
  | .qualified quals t, hbound, hlisted => by
    rw [apply, Term.occurrences_qualify]
    exact occurrences_apply_of_listed hσ t hbound hlisted
  | .reference kind t, hbound, hlisted => by
    rw [apply, Term.occurrences_refer]
    exact occurrences_apply_of_listed hσ t hbound hlisted
  | .offset t delta, hbound, hlisted => by
    rw [apply, Term.occurrences_plus]
    exact occurrences_apply_of_listed hσ t hbound hlisted
  | .apply head args, hbound, hlisted => by
    have hhead := occurrences_apply_of_listed hσ head
      (fun id hid => hbound id (List.mem_append_left _ hid))
      fun id hid => hlisted id (List.mem_append_left _ hid)
    have hargs := occurrencesList_substList_of_listed hσ args
      (fun id hid => hbound id (List.mem_append_right _ hid))
      fun id hid => hlisted id (List.mem_append_right _ hid)
    exact List.append_eq_nil_iff.mpr ⟨hhead, hargs⟩

theorem occurrencesList_substList_of_listed (hσ : σ.Closes) : ∀ ts : List Term,
    (∀ id ∈ Term.occurrencesList ts, (σ.get? id).isSome = true) →
    (∀ id ∈ Term.unlistedOccurrencesList ts, ∀ us, σ.get? id ≠ some (.pack us)) →
    Term.occurrencesList (Term.substList σ ts) = []
  | [], _, _ => rfl
  | t :: ts, hbound, hlisted => by
    have hfirst : ∀ id ∈ t.occurrences, (σ.get? id).isSome = true := fun id hid =>
      hbound id (List.mem_append_left _ hid)
    have hlater : ∀ id ∈ Term.occurrencesList ts, (σ.get? id).isSome = true := fun id hid =>
      hbound id (List.mem_append_right _ hid)
    rw [occurrencesList_substList_cons, List.append_eq_nil_iff]
    by_cases hexp : t.isExpansion = true
    · obtain ⟨inner, rfl⟩ := Term.exists_of_isExpansion hexp
      exact ⟨hσ.occurrences_expansion hfirst,
        occurrencesList_substList_of_listed hσ ts hlater hlisted⟩
    · rw [Bool.not_eq_true] at hexp
      rw [Term.unlistedOccurrencesList_cons hexp] at hlisted
      rw [occurrences_item_of_plain hexp]
      exact ⟨occurrences_apply_of_listed hσ t hfirst fun id hid =>
          hlisted id (List.mem_append_left _ hid),
        occurrencesList_substList_of_listed hσ ts hlater fun id hid =>
          hlisted id (List.mem_append_right _ hid)⟩

end

end Substitution

/-! ### Completion -/

namespace Pattern

variable {model : TypeModel} {p : Pattern} {σ : Substitution}

/-- Where everything is bound, there is nothing to complete. -/
theorem complete_eq_self (h : ∀ id < p.parameters.length, (σ.get? id).isSome = true) :
    p.complete model σ = σ := by
  refine complete_induction model (P := fun _ τ => τ = σ) ?_ rfl
  rintro id q _ hq rfl
  have hid : id < p.parameters.length := (List.getElem?_eq_some_iff.mp hq).1
  obtain ⟨b, hb⟩ := Option.isSome_iff_exists.mp (h id hid)
  rw [completeAt, hb]

/-- Defaults mention parameters in front of their own, and the pack only where it is expanded among
the arguments of a template-id. -/
structure DefaultsLookBack (model : TypeModel) (p : Pattern) : Prop where
  earlier : ∀ id q t, p.parameter? id = some q → q.default = some t → ∀ j ∈ t.occurrences, j < id
  listed : ∀ id q t, p.parameter? id = some q → q.default = some t →
    ∀ j ∈ t.unlistedOccurrences, p.isPack model j = false

/-- What is bound mentions no parameter, and only packs are bound to lists. -/
structure ClosedBy (model : TypeModel) (p : Pattern) (σ : Substitution) : Prop where
  closed : σ.AllTerms fun t => t.occurrences = []
  isPack : ∀ id us, σ.get? id = some (.pack us) → p.isPack model id = true

/-- How far completion has come when the parameters in front of `id` have had their turn: they are
bound, and so is everything that was bound before. -/
structure Completes (model : TypeModel) (p : Pattern) (σ : Substitution) (id : ParamId)
    (τ : Substitution) : Prop where
  bound : ∀ j < id, (τ.get? j).isSome = true
  keeps : ∀ j b, σ.get? j = some b → τ.get? j = some b
  closedBy : p.ClosedBy model τ

section Defaults

variable (hunique : ∀ i j, p.isPack model i = true → p.isPack model j = true → i = j)
  (hp : p.DefaultsLookBack model) {id : ParamId} {q : Parameter} {τ : Substitution}

include hunique hp

/-- A default mentions nothing any more when everything in front of it is bound. -/
theorem ClosedBy.occurrences_default (hτ : p.ClosedBy model τ) (hq : p.parameter? id = some q)
    (hbefore : ∀ j < id, (τ.get? j).isSome = true) {t : Term} (ht : q.default = some t) :
    (t.subst τ).occurrences = [] := by
  have hcloses : τ.Closes :=
    ⟨hτ.closed, fun i j us vs hi hj => hunique i j (hτ.isPack i us hi) (hτ.isPack j vs hj)⟩
  have hbound : ∀ j ∈ t.occurrences, (τ.get? j).isSome = true :=
    fun j hj => hbefore j (hp.earlier id q t hq ht j hj)
  refine Substitution.occurrences_apply_of_listed hcloses t hbound fun j hj us hus => ?_
  have hpack := hp.listed id q t hq ht j hj
  rw [hτ.isPack j us hus] at hpack
  exact Bool.noConfusion hpack

theorem ClosedBy.completeAt (hτ : p.ClosedBy model τ) (hq : p.parameter? id = some q)
    (hbefore : ∀ j < id, (τ.get? j).isSome = true) :
    p.ClosedBy model (completeAt model id q τ) := by
  have hdefault : ∀ b, defaultBinding model q τ = some b → (b = .pack [] ∧ model.isPack q = true) ∨
      ∃ t, b = .single t ∧ t.occurrences = [] := by
    intro b hb
    rw [defaultBinding] at hb
    split at hb
    · rename_i hpack
      exact .inl ⟨(Option.some.inj hb).symm, hpack⟩
    · obtain ⟨t, ht, rfl⟩ := Option.map_eq_some_iff.mp hb
      exact .inr ⟨_, rfl, hτ.occurrences_default hunique hp hq hbefore ht⟩
  constructor
  · intro j b hb
    rcases get?_completeAt_cases hb with hb | ⟨-, -, hb⟩
    · exact hτ.closed j b hb
    · obtain ⟨rfl, -⟩ | ⟨t, rfl, hclosed⟩ := hdefault b hb
      · exact fun _ ht => absurd ht List.not_mem_nil
      · exact List.forall_mem_singleton.mpr hclosed
  · intro j us hus
    rcases get?_completeAt_cases hus with hus | ⟨rfl, -, hus⟩
    · exact hτ.isPack j us hus
    · obtain ⟨-, hpack⟩ | ⟨t, heq, -⟩ := hdefault _ hus
      · rw [Pattern.isPack, hq, Option.any_some, hpack]
      · exact Binding.noConfusion heq

/-- One parameter more has its turn. -/
theorem Completes.step
    (hbound : ∀ id q, p.parameter? id = some q → model.isPack q = false → q.default = none →
      (σ.get? id).isSome = true)
    (hq : p.parameter? id = some q) (h : p.Completes model σ id τ) :
    p.Completes model σ (id + 1) (Pattern.completeAt model id q τ) := by
  refine ⟨fun j hj => ?_, fun j b hb => ?_, h.closedBy.completeAt hunique hp hq h.bound⟩
  · rw [isSome_get?_completeAt]
    rcases Nat.lt_succ_iff_lt_or_eq.mp hj with hj | rfl
    · exact .inl (h.bound j hj)
    · by_cases hdefault : (model.isPack q || q.default.isSome) = true
      · exact .inr ⟨rfl, hdefault⟩
      · -- what has no default was bound from the start
        rw [Bool.not_eq_true, Bool.or_eq_false_iff, Option.isSome_eq_false_iff,
          Option.isNone_iff_eq_none] at hdefault
        obtain ⟨b, hb⟩ := Option.isSome_iff_exists.mp (hbound j q hq hdefault.1 hdefault.2)
        exact .inl (Option.isSome_iff_exists.mpr ⟨b, h.keeps j b hb⟩)
  · rw [get?_completeAt]
    split
    · rename_i hj
      rw [← hj, h.keeps j b hb, Option.some_or]
    · exact h.keeps j b hb

end Defaults

/-- **Completion closes a substitution.**  Where there is one pack at most and defaults look back,
and everything without a default is bound, to terms without parameters and to lists of these for
packs only, completion binds every parameter, keeps what was bound, and leaves no parameter in
anything; completing again changes nothing. -/
theorem complete_closes {model : TypeModel} {p : Pattern}
    (hunique : ∀ i j, p.isPack model i = true → p.isPack model j = true → i = j)
    (hp : p.DefaultsLookBack model) {σ : Substitution} (hσ : p.ClosedBy model σ)
    (hbound : ∀ id q, p.parameter? id = some q → model.isPack q = false → q.default = none →
      (σ.get? id).isSome = true) :
    (∀ id < p.parameters.length, ((p.complete model σ).get? id).isSome = true) ∧
      (∀ id b, σ.get? id = some b → (p.complete model σ).get? id = some b) ∧
      p.ClosedBy model (p.complete model σ) ∧
      p.complete model (p.complete model σ) = p.complete model σ := by
  have hstart : p.Completes model σ 0 σ :=
    ⟨fun j hj => absurd hj (Nat.not_lt_zero j), fun _ _ hb => hb, hσ⟩
  have hend : p.Completes model σ p.parameters.length (p.complete model σ) :=
    complete_induction model (fun _ _ _ hq h => h.step hunique hp hbound hq) hstart
  exact ⟨hend.bound, hend.keeps, hend.closedBy, complete_eq_self hend.bound⟩

/-- In `template<typename T, typename... Ts, typename D = Tuple<Pair<Ts, T>...>, typename E = D*>`,
with `T` alone bound, the pack becomes empty first, and then `D` is `Tuple<>`. -/
theorem complete_closes_empty :
    let model := AliasTable.empty.model
    let tuple : List Term → Term := .apply (.template "Tuple")
    let pairs : Term := .expansion (.apply (.template "Pair") [.param 1, .param 0])
    let p := primary "X" [{ name := "T", kind := .type },
      { name := "Ts", kind := .type, pack := true },
      { name := "D", kind := .type, default := some (tuple [pairs]) },
      { name := "E", kind := .type, default := some (.pointer (.param 2)) }]
    let σ := Substitution.empty.insert 0 (.single (.type "int"))
    (∀ i j, p.isPack model i = true → p.isPack model j = true → i = j) ∧
      p.DefaultsLookBack model ∧ p.ClosedBy model σ ∧
      (∀ id q, p.parameter? id = some q → model.isPack q = false → q.default = none →
        (σ.get? id).isSome = true) ∧
      (∀ id < 4, ((p.complete model σ).get? id).isSome = true) ∧
      p.ClosedBy model (p.complete model σ) ∧
      p.complete model σ = (((σ.insert 1 (.pack [])).insert 2 (.single (tuple []))).insert 3
        (.single (.pointer (tuple [])))) ∧
      p.complete model (p.complete model σ) = p.complete model σ := by
  intro model tuple pairs p σ
  have hpack : ∀ i, p.isPack model i = true → i = 1 := by
    rintro (_ | _ | _ | _ | i) hi <;> first | rfl | exact Bool.noConfusion hi
  have hunique : ∀ i j, p.isPack model i = true → p.isPack model j = true → i = j :=
    fun i j hi hj => (hpack i hi).trans (hpack j hj).symm
  have hdefault : ∀ id q t, p.parameter? id = some q → q.default = some t →
      (id = 2 ∧ t = tuple [pairs]) ∨ (id = 3 ∧ t = .pointer (.param 2)) := by
    rintro (_ | _ | _ | _ | id) q t hq ht <;> cases hq <;> cases ht
    · exact .inl ⟨rfl, rfl⟩
    · exact .inr ⟨rfl, rfl⟩
  have hdefaults : p.DefaultsLookBack model := by
    constructor <;> intro id q t hq ht
    · obtain ⟨rfl, rfl⟩ | ⟨rfl, rfl⟩ := hdefault id q t hq ht <;> decide
    · obtain ⟨rfl, rfl⟩ | ⟨rfl, rfl⟩ := hdefault id q t hq ht <;> decide
  have hclosedBy : p.ClosedBy model σ :=
    ⟨Substitution.allTerms_empty.insert 0 (List.forall_mem_singleton.mpr rfl),
      fun id us hus => absurd hus (Substitution.packFree_empty.insert 0 _ id us)⟩
  have hbound : ∀ id q, p.parameter? id = some q → model.isPack q = false → q.default = none →
      (σ.get? id).isSome = true := by
    rintro (_ | _ | _ | _ | id) q hq hnot hnone <;> cases hq
    · rfl
    · exact Bool.noConfusion hnot
    · exact absurd hnone (Option.some_ne_none _)
    · exact absurd hnone (Option.some_ne_none _)
  obtain ⟨htotal, -, hclosed, hagain⟩ := complete_closes hunique hdefaults hclosedBy hbound
  exact ⟨hunique, hdefaults, hclosedBy, hbound, htotal, hclosed, rfl, hagain⟩

end Pattern

end TemplateResolution
