import TemplateResolution.Matching.Deduction

/-!
# Matching a term

`unify` walks along the pattern and takes the target apart with it.  Parameters
bind, offsets wait for the end, and qualifiers of the target that the pattern
does not spell out stay with what is inside.  In a list of template arguments
an expansion takes all targets that are left.
-/

namespace TemplateResolution.Matching

mutual

/-- Matches `target`, which belongs to the argument at `position`. -/
def unify (m : Matching) : Term → Term → Nat → Deduction → Option Deduction
  | .param id, target, _, d => d.bindArgument m id target
  | .offset base delta, target, _, d => some (d.defer (.offset base delta) target)
  | .qualified quals inner, target, position, d =>
    match d.admitQualifiers m quals target.quals position with
    | some d' =>
      unify m inner (target.unqualified.qualify (target.quals.without quals)) position d'
    | none => none
  | .placeholder a, .placeholder b, _, d => if a = b then some d else none
  | .type a, .type b, _, d => if m.model.sameLeaf a b then some d else none
  | .template a, .template b, _, d => if m.model.sameLeaf a b then some d else none
  | .value a s, .value b t, _, d => if a = b && m.model.sameLeaf s t then some d else none
  | .pointer p, .pointer t, position, d => unify m p t position d
  | .reference k p, .reference l t, position, d => if k = l then unify m p t position d else none
  | .apply head args, .apply head' args', position, d =>
    match unify m head head' position d with
    | some d' => unifyList m args args' position d'
    | none => none
  | _, _, _, _ => none

def unifyList (m : Matching) : List Term → List Term → Nat → Deduction → Option Deduction
  | [], [], _, d => some d
  | [], _ :: _, _, _ => none
  | .expansion inner :: patterns, targets, position, d =>
    match d.expand m inner (fun _ target d => unify m inner target position d) targets with
    | some d' => unifyList m patterns [] position d'
    | none => none
  | _ :: _, [], _, _ => none
  | pattern :: patterns, target :: targets, position, d =>
    match unify m pattern target position d with
    | some d' => unifyList m patterns targets position d'
    | none => none

end

/-! ### Lists that do not begin with an expansion -/

theorem unifyList_cons (m : Matching) {pattern : Term} (h : pattern.isExpansion = false)
    (patterns : List Term) (target : Term) (targets : List Term) (k : Nat) (d : Deduction) :
    m.unifyList (pattern :: patterns) (target :: targets) k d =
      (m.unify pattern target k d).bind fun d' => m.unifyList patterns targets k d' := by
  cases pattern with
  | expansion inner => exact Bool.noConfusion h
  | _ =>
    rw [unifyList]
    · split <;> simp [*]
    · exact fun _ he => Term.noConfusion he

theorem unifyList_cons_nil (m : Matching) {pattern : Term} (h : pattern.isExpansion = false)
    (patterns : List Term) (k : Nat) (d : Deduction) :
    m.unifyList (pattern :: patterns) [] k d = none := by
  cases pattern with
  | expansion inner => exact Bool.noConfusion h
  | _ => simp [unifyList]

end TemplateResolution.Matching
