import TemplateResolution.Matching.Slots
import TemplateResolution.Proofs.Placeholder.Fitting

/-!
# Argument lists of primaries

The argument list of a class-like primary is its parameter list.  So it takes an
argument list if each parameter takes the argument at its place (`match?_primary`):
every parameter is met once, and nothing that one argument binds can be in the way of
another.
-/

namespace TemplateResolution

/-! ### Parameters and arguments, place by place -/

/-- Whether `f` is true of every parameter with the argument at its place.  A pack meets all the
arguments that are left, one by one. -/
def Parameter.eachMeets (model : TypeModel) (f : Parameter → Term → Bool) :
    List Parameter → List Term → Bool
  | [], ts => ts.isEmpty
  | q :: qs, ts =>
    if model.isPack q then ts.all (fun t => f q t.expanded) && eachMeets model f qs []
    else
      match ts with
      | [] => false
      | t :: ts => f q t && eachMeets model f qs ts

namespace Parameter

variable {model : TypeModel} {f g : Parameter → Term → Bool}

theorem eachMeets_pack {q : Parameter} (h : model.isPack q = true) (qs : List Parameter)
    (ts : List Term) : eachMeets model f (q :: qs) ts =
      (ts.all (fun t => f q t.expanded) && eachMeets model f qs []) := by
  rw [eachMeets.eq_def]
  exact if_pos h

theorem eachMeets_cons {q : Parameter} (h : model.isPack q = false) (qs : List Parameter)
    (t : Term) (ts : List Term) :
    eachMeets model f (q :: qs) (t :: ts) = (f q t && eachMeets model f qs ts) := by
  rw [eachMeets, if_neg (Bool.eq_false_iff.mp h)]

theorem eachMeets_cons_nil {q : Parameter} (h : model.isPack q = false) (qs : List Parameter) :
    eachMeets model f (q :: qs) [] = false := by
  rw [eachMeets, if_neg (Bool.eq_false_iff.mp h)]

/-- Two conditions on the arguments are met together if each of them is. -/
theorem eachMeets_and (qs : List Parameter) : ∀ ts : List Term,
    eachMeets model (fun q t => f q t && g q t) qs ts =
      (eachMeets model f qs ts && eachMeets model g qs ts) := by
  induction qs with
  | nil => exact fun ts => (Bool.and_self _).symm
  | cons q qs ih =>
    intro ts
    cases hpack : model.isPack q with
    | true =>
      have hall : ts.all (fun t => f q t.expanded && g q t.expanded) =
          (ts.all (fun t => f q t.expanded) && ts.all (fun t => g q t.expanded)) := by
        rw [Bool.eq_iff_iff]
        simp only [List.all_eq_true, Bool.and_eq_true]
        exact ⟨fun h => ⟨fun t ht => (h t ht).1, fun t ht => (h t ht).2⟩,
          fun h t ht => ⟨h.1 t ht, h.2 t ht⟩⟩
      rw [eachMeets_pack hpack, eachMeets_pack hpack, eachMeets_pack hpack, hall, ih]
      ac_rfl
    | false =>
      cases ts with
      | nil =>
        rw [eachMeets_cons_nil hpack, eachMeets_cons_nil hpack]
        rfl
      | cons t ts =>
        rw [eachMeets_cons hpack, eachMeets_cons hpack, eachMeets_cons hpack, ih]
        ac_rfl

end Parameter

namespace Pattern

/-- The slots of a primary from the parameter number `id` on. -/
def primarySlotsFrom (id : ParamId) : List Parameter → List Slot
  | [] => []
  | q :: qs =>
    ⟨if q.pack then .expansion (.param id) else .param id, none⟩ :: primarySlotsFrom (id + 1) qs

theorem mapIdx_eq_primarySlotsFrom (qs : List Parameter) : ∀ id : Nat,
    qs.mapIdx (fun i q =>
      (⟨if q.pack then .expansion (.param (id + i)) else .param (id + i), none⟩ : Slot)) =
        primarySlotsFrom id qs := by
  induction qs with
  | nil => exact fun _ => rfl
  | cons q qs ih =>
    intro id
    have hshift : ∀ i, id + (i + 1) = id + 1 + i := fun i => by omega
    have hlater : (fun i (q : Parameter) => (⟨if q.pack then .expansion (.param (id + (i + 1)))
        else .param (id + (i + 1)), none⟩ : Slot)) = fun i q =>
        ⟨if q.pack then .expansion (.param (id + 1 + i)) else .param (id + 1 + i), none⟩ := by
      funext i q
      rw [hshift]
    rw [List.mapIdx_cons, primarySlotsFrom, ← ih (id + 1), ← hlater]
    rfl

theorem primarySlots_eq (qs : List Parameter) : primarySlots qs = primarySlotsFrom 0 qs := by
  rw [← mapIdx_eq_primarySlotsFrom, primarySlots]
  simp only [Nat.zero_add]

end Pattern

namespace Matching

variable {m : Matching}

/-! ### One parameter -/

theorem bindArgument_new {id : ParamId} {q : Parameter} (hq : m.parameters[id]? = some q)
    (hpack : m.model.isPack q = false) {d : Deduction} (helement : d.element = none)
    (hget : d.substitution.get? id = none) (t : Term) :
    d.bindArgument m id t =
      if m.model.accepts q t then
        some { d with substitution := d.substitution.insert id (.single t) }
      else none := by
  obtain ⟨σ, deferred, element⟩ := d
  obtain rfl : element = none := helement
  rw [Deduction.bindArgument, hq, Option.any_some]
  split
  · rw [Deduction.bind]
    dsimp only
    rw [Deduction.bindSingle, hq]
    dsimp only
    rw [if_neg (Bool.eq_false_iff.mp hpack), hget]
  · rfl

section Structural

variable (hmode : m.mode = .structural)

include hmode

theorem position_param (id : ParamId) (t : Term) (k : Nat) (d : Deduction) :
    m.position (.param id) t k d = d.bindArgument m id t := by
  rw [position, hmode]
  rfl

/-- A pack alone finds the arguments as they are. -/
theorem collect_pack {id : ParamId} {q : Parameter} (hq : m.parameters[id]? = some q) (pos : Nat)
    (ts : List Term) : ∀ (k : Nat) (d : Deduction), d.element = none →
      Deduction.collect id (fun i t d => m.position (.param id) t (pos + i) d) k ts d =
        if ts.all (fun t => m.model.accepts q t.expanded) then some (ts, d) else none := by
  induction ts with
  | nil => exact fun _ _ _ => rfl
  | cons t ts ih =>
    intro k d helement
    have hrestore : { d with element := none } = d := by
      cases d
      obtain rfl : _ = none := helement
      rfl
    have hshape : t.expandedLike t.expanded = t := by cases t <;> rfl
    rw [Deduction.collect, position_param hmode, Deduction.bindArgument, hq, Option.any_some,
      List.all_cons]
    cases m.model.accepts q t.expanded with
    | false => rfl
    | true =>
      rw [if_pos rfl, Deduction.bind]
      dsimp only
      rw [if_pos rfl, Deduction.bindElement]
      dsimp only
      rw [hrestore, ih (k + 1) d helement, Bool.true_and, hshape]
      cases ts.all fun t => m.model.accepts q t.expanded <;> rfl

/-! ### All parameters -/

/-- The parameters from number `id` on are matched, when nothing is bound to them yet. -/
theorem slots_primarySlotsFrom (hpacks : ∀ q ∈ m.parameters, m.model.isPack q = q.pack)
    (qs : List Parameter) : ∀ id : Nat, (∀ i, m.parameters[id + i]? = qs[i]?) →
      ∀ (pos : Nat) (ts : List Term) (d : Deduction), d.element = none → d.deferred = [] →
        (∀ j : Nat, id ≤ j → d.substitution.get? j = none) →
        ((m.slots (Pattern.primarySlotsFrom id qs) pos ts d).bind (Deduction.finish m)).isSome =
          Parameter.eachMeets m.model m.model.accepts qs ts := by
  induction qs with
  | nil =>
    intro id _ pos ts d _ hdeferred _
    cases ts with
    | nil =>
      rw [Pattern.primarySlotsFrom, slots, Option.bind_some, Deduction.finish, hdeferred]
      rfl
    | cons t ts => rfl
  | cons q qs ih =>
    intro id hids pos ts d helement hdeferred hget
    have hq : m.parameters[id]? = some q := hids 0
    have hids' : ∀ i, m.parameters[id + 1 + i]? = qs[i]? := by
      intro i
      rw [show id + 1 + i = id + (i + 1) by omega, hids]
      rfl
    have hafter : ∀ (b : Binding) (j : Nat), id + 1 ≤ j →
        (d.substitution.insert id b).get? j = none := by
      intro b j hj
      rw [Substitution.get?_insert, if_neg (by omega : j ≠ id)]
      exact hget j (by omega)
    have hfield := hpacks q (List.mem_of_getElem? hq)
    rw [Pattern.primarySlotsFrom]
    cases hpack : m.model.isPack q with
    | true =>
      rw [Parameter.eachMeets_pack hpack, ← hfield, hpack, if_pos rfl, slots, Deduction.expand]
      have hpackOf : m.packOf (.param id) = some id := by
        have hid : m.isPack id = true := by rw [isPack, hq, Option.any_some, hpack]
        simp [packOf, Term.occurrences, hid]
      rw [hpackOf, helement]
      dsimp only
      rw [collect_pack hmode hq pos ts 0 d helement]
      cases ts.all fun t => m.model.accepts q t.expanded with
      | false => rfl
      | true =>
        rw [if_pos rfl, Bool.true_and]
        dsimp only
        rw [Deduction.bindPack, hget id (Nat.le_refl id)]
        exact ih (id + 1) hids' _ [] _ helement hdeferred (hafter _)
    | false =>
      rw [← hfield, hpack, if_neg Bool.false_ne_true]
      cases ts with
      | nil =>
        rw [Parameter.eachMeets_cons_nil hpack]
        rfl
      | cons t ts =>
        rw [Parameter.eachMeets_cons hpack, slots_cons m rfl, position_param hmode,
          bindArgument_new hq hpack helement (hget id (Nat.le_refl id))]
        cases m.model.accepts q t with
        | false => rfl
        | true =>
          rw [if_pos rfl, Option.bind_some, Bool.true_and]
          exact ih (id + 1) hids' _ ts _ helement hdeferred (hafter _)

end Structural

end Matching

/-- **A primary takes an argument list if each parameter takes its argument.** -/
theorem Pattern.match?_primary {model : TypeModel} {q : Pattern}
    (hslots : q.slots = primarySlots q.parameters)
    (hpacks : ∀ x ∈ q.parameters, model.isPack x = x.pack) (ts : List Term) :
    (q.match? model .structural .empty ts).isSome =
      Parameter.eachMeets model model.accepts q.parameters ts := by
  let m : Matching := ⟨model, .structural, q.parameters, []⟩
  have hids : ∀ i, m.parameters[0 + i]? = q.parameters[i]? := fun i => by rw [Nat.zero_add]
  rw [match?, Matching.run, hslots, primarySlots_eq]
  exact Matching.slots_primarySlotsFrom (m := m) rfl hpacks q.parameters 0 hids 0 ts
    (.start .empty) rfl rfl fun _ _ => rfl

end TemplateResolution
