import TemplateResolution.Term.Equality

/-!
# Substitutions

A substitution binds parameters, each to one term or, for a pack, to a list of
them.  Bindings keep the order in which their parameters were first bound, since
that is the order in which they are reported.  Beside the bindings it records
the qualification conversions of the use-site it was deduced from.
-/

namespace TemplateResolution

inductive Binding where
  | single (term : Term)
  /-- The elements of a pack; an element may itself be an expansion. -/
  | pack (elements : List Term)
deriving DecidableEq

/-- What a binding contributes to a list of template arguments. -/
def Binding.terms : Binding → List Term
  | .single t => [t]
  | .pack ts => ts

/-- The argument at `position` had to gain the qualifiers `added`. -/
structure Conversion where
  position : Nat
  added : Qualifiers
deriving DecidableEq

structure Substitution where
  bindings : List (ParamId × Binding) := []
  conversions : List Conversion := []
deriving DecidableEq

namespace Substitution

def empty : Substitution := {}

def size (σ : Substitution) : Nat := σ.bindings.length

def ids (σ : Substitution) : List ParamId := σ.bindings.map (·.1)

def get? (σ : Substitution) (id : ParamId) : Option Binding := σ.bindings.lookup id

/-- Binds `id` in place, or behind all others if it was unbound. -/
def insertInto (id : ParamId) (b : Binding) : List (ParamId × Binding) → List (ParamId × Binding)
  | [] => [(id, b)]
  | (i, old) :: rest => if i = id then (id, b) :: rest else (i, old) :: insertInto id b rest

def insert (σ : Substitution) (id : ParamId) (b : Binding) : Substitution :=
  { σ with bindings := insertInto id b σ.bindings }

def recordConversion (σ : Substitution) (c : Conversion) : Substitution :=
  { σ with conversions := σ.conversions ++ [c] }

def hasConversionAt (σ : Substitution) (position : Nat) : Bool :=
  σ.conversions.any (·.position = position)

/-- The terms bound to the parameters below `count`, in parameter order; none if one is unbound. -/
def flatten (σ : Substitution) (count : Nat) : Option (List Term) :=
  ((List.range count).mapM σ.get?).map fun bindings => bindings.flatMap Binding.terms

/-! ### Looking up what was bound -/

@[simp] theorem get?_empty (id : ParamId) : empty.get? id = none := rfl

@[simp] theorem get?_recordConversion (σ : Substitution) (c : Conversion) (id : ParamId) :
    (σ.recordConversion c).get? id = σ.get? id := rfl

theorem lookup_insertInto (id j : ParamId) (b : Binding) (l : List (ParamId × Binding)) :
    (insertInto id b l).lookup j = if j = id then some b else l.lookup j := by
  induction l with
  | nil =>
    by_cases h : j = id
    · simp [insertInto, h]
    · simp [insertInto, List.lookup_cons, h, beq_eq_false_iff_ne.2 h]
  | cons p rest ih =>
    rcases p with ⟨i, old⟩
    by_cases hi : i = id
    · subst hi
      by_cases h : j = i
      · simp [insertInto, h]
      · simp [insertInto, List.lookup_cons, h, beq_eq_false_iff_ne.2 h]
    · by_cases hj : j = i
      · subst hj
        simp [insertInto, hi]
      · simp [insertInto, hi, List.lookup_cons, beq_eq_false_iff_ne.2 hj, ih]

theorem get?_insert (σ : Substitution) (id j : ParamId) (b : Binding) :
    (σ.insert id b).get? j = if j = id then some b else σ.get? j :=
  lookup_insertInto id j b σ.bindings

@[simp] theorem get?_insert_self (σ : Substitution) (id : ParamId) (b : Binding) :
    (σ.insert id b).get? id = some b := by
  simp [get?_insert]

end Substitution

end TemplateResolution
