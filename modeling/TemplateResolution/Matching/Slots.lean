import TemplateResolution.Matching.Unify

/-!
# Matching an argument list

The slots of a pattern meet the targets position by position.  How one position
is compared depends on the mode: as it stands, without the decorations at its
top, or by the rules of a call.  Slots at the end that carry a default may be
left without a target, and an expansion takes all targets that are left.

`Pattern.match?` is the whole: from a seed it finds the substitution under which
the pattern's argument list becomes the list of targets, if there is one.
-/

namespace TemplateResolution

def Term.isLvalue : Term → Bool
  | .reference .lvalue _ => true
  | _ => false

namespace Matching

/-- A position of a call.  By value, qualifiers at the top never matter; an rvalue reference
takes lvalues only if it is a forwarding reference, which then binds an lvalue reference; an
lvalue reference takes rvalues only if its referee is `const`. -/
def callPosition (m : Matching) (pattern arg : Term) (position : Nat) (d : Deduction) :
    Option Deduction :=
  match pattern with
  | .reference .rvalue inner =>
    match m.forwarded inner, arg.isLvalue with
    | some id, true => d.bind m id (arg.referee.refer .lvalue)
    | none, true => none
    | _, false => m.unify inner arg.referee position d
  | .reference .lvalue inner =>
    if arg.isLvalue || inner.quals.isConst then m.unify inner arg.referee position d else none
  | byValue => m.unify byValue.unqualified arg.undecorated position d

def position (m : Matching) (pattern target : Term) (position : Nat) (d : Deduction) :
    Option Deduction :=
  match m.mode with
  | .structural => m.unify pattern target position d
  | .ordering => m.unify pattern.undecorated target.undecorated position d
  | .call => m.callPosition pattern target position d

/-- Matches slots against the targets from position `k` on. -/
def slots (m : Matching) : List Slot → Nat → List Term → Deduction → Option Deduction
  | [], _, [], d => some d
  | [], _, _ :: _, _ => none
  | ⟨.expansion inner, _⟩ :: rest, k, targets, d =>
    match d.expand m inner (fun i target d => m.position inner target (k + i) d) targets with
    | some d' => m.slots rest (k + targets.length) [] d'
    | none => none
  | ⟨_, some _⟩ :: rest, k, [], d => m.slots rest k [] d
  | ⟨_, none⟩ :: _, _, [], _ => none
  | ⟨term, _⟩ :: rest, k, target :: targets, d =>
    match m.position term target k d with
    | some d' => m.slots rest (k + 1) targets d'
    | none => none

/-! ### Slots that are no expansion -/

theorem slots_cons (m : Matching) {slot : Slot} (h : slot.isExpansion = false) (rest : List Slot)
    (k : Nat) (target : Term) (targets : List Term) (d : Deduction) :
    m.slots (slot :: rest) k (target :: targets) d =
      (m.position slot.term target k d).bind fun d' => m.slots rest (k + 1) targets d' := by
  obtain ⟨term, default⟩ := slot
  cases term with
  | expansion inner => exact Bool.noConfusion h
  | _ =>
    rw [slots]
    · split <;> simp [*]
    · exact fun _ he => Term.noConfusion he

/-- A slot without a target has to have a default. -/
theorem slots_cons_nil (m : Matching) {slot : Slot} (h : slot.isExpansion = false)
    (rest : List Slot) (k : Nat) (d : Deduction) :
    m.slots (slot :: rest) k [] d = if slot.default.isSome then m.slots rest k [] d else none := by
  obtain ⟨term, default⟩ := slot
  cases term with
  | expansion inner => exact Bool.noConfusion h
  | _ => cases default <;> simp [slots]

/-- Matches a list of slots over `parameters` against the targets, starting from `seed`. -/
def run (model : TypeModel) (mode : MatchMode) (parameters : List Parameter) (slots : List Slot)
    (seed : Substitution) (targets : List Term) : Option Substitution :=
  let m : Matching := ⟨model, mode, parameters, seed.ids⟩
  (m.slots slots 0 targets (.start seed)).bind (Deduction.finish m)

end Matching

/-- The substitution that extends `seed` and turns the pattern's argument list into `targets`. -/
def Pattern.match? (model : TypeModel) (mode : MatchMode) (p : Pattern) (seed : Substitution)
    (targets : List Term) : Option Substitution :=
  Matching.run model mode p.parameters p.slots seed targets

end TemplateResolution
