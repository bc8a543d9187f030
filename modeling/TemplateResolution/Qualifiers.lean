/-!
# Qualifiers

The cv-qualifiers of a type: `const`, `volatile`, both or neither.  They form a
four-element lattice, and only three things are ever asked of it: `union` adds
qualifiers, `without` takes some away, and `includes` compares two sets.
-/

namespace TemplateResolution

structure Qualifiers where
  isConst : Bool
  isVolatile : Bool
deriving DecidableEq

namespace Qualifiers

def none : Qualifiers := ⟨false, false⟩

def const : Qualifiers := ⟨true, false⟩

def volatile : Qualifiers := ⟨false, true⟩

def constVolatile : Qualifiers := ⟨true, true⟩

def isEmpty (q : Qualifiers) : Bool := !q.isConst && !q.isVolatile

def union (q r : Qualifiers) : Qualifiers :=
  ⟨q.isConst || r.isConst, q.isVolatile || r.isVolatile⟩

/-- The qualifiers of `q` that are not in `r`. -/
def without (q r : Qualifiers) : Qualifiers :=
  ⟨q.isConst && !r.isConst, q.isVolatile && !r.isVolatile⟩

/-- Every qualifier of `r` is one of `q`. -/
def includes (q r : Qualifiers) : Bool :=
  (q.isConst || !r.isConst) && (q.isVolatile || !r.isVolatile)

/-- The words of a declaration, `const` first. -/
def text (q : Qualifiers) : String :=
  " ".intercalate <|
    (if q.isConst then ["const"] else []) ++ (if q.isVolatile then ["volatile"] else [])

theorem isEmpty_iff {q : Qualifiers} : q.isEmpty = true ↔ q = none := by
  rcases q with ⟨_ | _, _ | _⟩ <;> decide

theorem includes_refl (q : Qualifiers) : q.includes q = true := by
  rcases q with ⟨_ | _, _ | _⟩ <;> rfl

theorem includes_trans {p q r : Qualifiers} (hpq : p.includes q = true)
    (hqr : q.includes r = true) : p.includes r = true := by
  revert p q r
  rintro ⟨_ | _, _ | _⟩ ⟨_ | _, _ | _⟩ ⟨_ | _, _ | _⟩ <;> decide

theorem includes_union_right (q r : Qualifiers) : (q.union r).includes r = true := by
  revert q r
  rintro ⟨_ | _, _ | _⟩ ⟨_ | _, _ | _⟩ <;> rfl

theorem includes_antisymm {q r : Qualifiers} (hqr : q.includes r = true)
    (hrq : r.includes q = true) : q = r := by
  revert q r
  rintro ⟨_ | _, _ | _⟩ ⟨_ | _, _ | _⟩ <;> decide

@[simp] theorem none_union (q : Qualifiers) : none.union q = q := rfl

@[simp] theorem union_none (q : Qualifiers) : q.union none = q := by
  rcases q with ⟨_ | _, _ | _⟩ <;> rfl

theorem union_comm (q r : Qualifiers) : q.union r = r.union q := by
  rw [union, union, Bool.or_comm, Bool.or_comm q.isVolatile]

theorem union_assoc (p q r : Qualifiers) : (p.union q).union r = p.union (q.union r) := by
  simp only [union, Bool.or_assoc]

theorem isEmpty_union (q r : Qualifiers) : (q.union r).isEmpty = (q.isEmpty && r.isEmpty) := by
  rcases q with ⟨_ | _, _ | _⟩ <;> rcases r with ⟨_ | _, _ | _⟩ <;> rfl

@[simp] theorem without_self (q : Qualifiers) : q.without q = none := by
  rcases q with ⟨_ | _, _ | _⟩ <;> rfl

/-- Splitting `q` at a smaller set loses nothing. -/
theorem union_without {q r : Qualifiers} (h : q.includes r = true) : r.union (q.without r) = q := by
  revert q r
  rintro ⟨_ | _, _ | _⟩ ⟨_ | _, _ | _⟩ <;> decide

theorem without_without (p q r : Qualifiers) : (p.without q).without r = p.without (q.union r) := by
  revert p q r
  rintro ⟨_ | _, _ | _⟩ ⟨_ | _, _ | _⟩ ⟨_ | _, _ | _⟩ <;> decide

/-- What includes one set and, apart from it, another, includes both. -/
theorem includes_union {p q r : Qualifiers} (hq : p.includes q = true)
    (hr : (p.without q).includes r = true) : p.includes (r.union q) = true := by
  revert p q r
  rintro ⟨_ | _, _ | _⟩ ⟨_ | _, _ | _⟩ ⟨_ | _, _ | _⟩ <;> decide

theorem includes_without {p q r : Qualifiers} (hr : p.includes r = true) :
    (p.without q).includes (r.without q) = true := by
  revert p q r
  rintro ⟨_ | _, _ | _⟩ ⟨_ | _, _ | _⟩ ⟨_ | _, _ | _⟩ <;> decide

/-- What is left of a set apart from `q` tells whether `q` includes it. -/
theorem includes_of_without {q r : Qualifiers} (h : (r.without q).isEmpty = true) :
    q.includes r = true := by
  revert q r
  rintro ⟨_ | _, _ | _⟩ ⟨_ | _, _ | _⟩ <;> decide

theorem includes_of_includes_without {q r s : Qualifiers} (h : s.includes (r.without q) = true) :
    (s.union q).includes r = true := by
  revert q r s
  rintro ⟨_ | _, _ | _⟩ ⟨_ | _, _ | _⟩ ⟨_ | _, _ | _⟩ <;> decide

@[simp] theorem none_without (q : Qualifiers) : none.without q = none := rfl

@[simp] theorem without_none (q : Qualifiers) : q.without none = q := by
  rcases q with ⟨_ | _, _ | _⟩ <;> rfl

theorem eq_none_of_includes {q : Qualifiers} (h : none.includes q = true) : q = none := by
  revert q
  rintro ⟨_ | _, _ | _⟩ <;> decide

end Qualifiers

end TemplateResolution
