import TemplateResolution.Term.Basic

/-!
# Decorations

Qualifiers, references and offsets have a normal form, and the functions
`qualify`, `refer` and `plus` build it: qualifiers merge and never sit on a
reference, a reference to a reference collapses, and an offset of a constant is
that constant moved.  The other functions look through decorations:
`splitQualifiers` and `stripReference` one layer at the top, `undecorated` both,
`erase` every layer at any depth.
-/

namespace TemplateResolution

/-- The range of a signed 64-bit constant. -/
def FitsConstant (n : Int) : Prop := Int64.minValue.toInt ≤ n ∧ n ≤ Int64.maxValue.toInt

instance (n : Int) : Decidable (FitsConstant n) := inferInstanceAs (Decidable (_ ∧ _))

/-- A reference through a reference is an lvalue reference unless both are rvalue references. -/
def RefKind.collapse : RefKind → RefKind → RefKind
  | .rvalue, .rvalue => .rvalue
  | _, _ => .lvalue

namespace Term

/-! ### Building -/

/-- Adds qualifiers to a term; a reference takes none. -/
def qualify (quals : Qualifiers) (t : Term) : Term :=
  if quals.isEmpty then t
  else
    match t with
    | qualified existing inner => qualified (existing.union quals) inner
    | reference kind inner => reference kind inner
    | inner => qualified quals inner

/-- A reference to a term, collapsed if the term is a reference. -/
def refer (kind : RefKind) : Term → Term
  | reference existing inner => reference (kind.collapse existing) inner
  | inner => reference kind inner

/-- The constant at distance `delta`, computed if the base is a constant and the sum is one. -/
def plus (base : Term) (delta : Int) : Term :=
  match base with
  | value number ty =>
    if FitsConstant (number + delta) then value (number + delta) ty
    else offset (value number ty) delta
  | base => offset base delta

@[simp] theorem qualify_none (t : Term) : t.qualify .none = t := rfl

theorem qualify_reference (quals : Qualifiers) (kind : RefKind) (inner : Term) :
    (reference kind inner).qualify quals = reference kind inner := by
  unfold qualify
  split <;> rfl

/-! ### Looking through -/

def splitQualifiers : Term → Qualifiers × Term
  | qualified quals inner => (quals, inner)
  | t => (.none, t)

def stripReference : Term → Option RefKind × Term
  | reference kind inner => (some kind, inner)
  | t => (none, t)

/-- The qualifiers at the top of a term. -/
def quals (t : Term) : Qualifiers := t.splitQualifiers.1

def unqualified (t : Term) : Term := t.splitQualifiers.2

def referee (t : Term) : Term := t.stripReference.2

/-- A term without the reference and the qualifiers at its top. -/
def undecorated (t : Term) : Term := t.referee.unqualified

mutual

/-- A term without any reference or qualifier, at any depth. -/
def erase : Term → Term
  | qualified _ inner => erase inner
  | reference _ inner => erase inner
  | pointer inner => pointer (erase inner)
  | expansion inner => expansion (erase inner)
  | apply head args => apply (erase head) (eraseList args)
  | offset base delta => (erase base).plus delta
  | param id => param id
  | placeholder token => placeholder token
  | type name => type name
  | value number ty => value number ty
  | template name => template name

def eraseList : List Term → List Term
  | [] => []
  | t :: ts => erase t :: eraseList ts

end

theorem eraseList_eq_map (ts : List Term) : eraseList ts = ts.map erase := by
  induction ts with
  | nil => rfl
  | cons t ts ih => simp [eraseList, ih]

end Term

end TemplateResolution
