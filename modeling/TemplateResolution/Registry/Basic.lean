import TemplateResolution.Pattern.Basic
import TemplateResolution.Registry.Ascending
import TemplateResolution.TypeModel.Alias

/-!
# Registries

Patterns are declared one after the other, and a pattern's number is its place
in that order.  The patterns of one name form a family.  `Declarations` is what
has been declared up to some moment; a registry holds the present declarations
and may be closed to new ones.

Nothing here checks a pattern: `record` puts it where it belongs, and
`Registry.register` decides whether it may be recorded.
-/

namespace TemplateResolution

/-- The patterns that share a name, by their roles. -/
structure Family where
  name : String
  flavor : Flavor
  /-- The primary of a class-like family, all overloads of a function-like one. -/
  primaries : List PatternId := []
  partials : List PatternId := []
  explicits : List PatternId := []
deriving DecidableEq

/-- The flavor of a family that is opened by a pattern in this role. -/
def Role.flavor : Role → Flavor
  | .overload => .functionLike
  | .primary | .partialOf _ | .explicitOf _ _ => .classLike

namespace Family

/-- All members in the order of registration. -/
def members (f : Family) : List PatternId := ascending (f.primaries ++ f.partials ++ f.explicits)

/-- The members that compete for a use-site; explicit specializations do not. -/
def contenders (f : Family) (primaryOnly : Bool) : List PatternId :=
  ascending (if primaryOnly then f.primaries else f.primaries ++ f.partials)

def add (f : Family) (role : Role) (id : PatternId) : Family :=
  match role with
  | .primary | .overload => { f with primaries := f.primaries ++ [id] }
  | .partialOf _ => { f with partials := f.partials ++ [id] }
  | .explicitOf _ _ => { f with explicits := f.explicits ++ [id] }

/-- Adds a member to the family of its name, which is opened if there is none. -/
def enroll (name : String) (role : Role) (id : PatternId) : List Family → List Family
  | [] => [Family.add { name, flavor := role.flavor } role id]
  | f :: rest => if f.name = name then f.add role id :: rest else f :: enroll name role id rest

@[simp] theorem name_add (f : Family) (role : Role) (id : PatternId) :
    (f.add role id).name = f.name := by
  cases role <;> rfl

/-- Enrolling a member changes the family of its name only. -/
theorem find?_enroll (name other : String) (role : Role) (id : PatternId) (fs : List Family) :
    (enroll name role id fs).find? (·.name = other) =
      if name = other then
        some (((fs.find? (·.name = name)).getD { name, flavor := role.flavor }).add role id)
      else fs.find? (·.name = other) := by
  induction fs with
  | nil => by_cases h : name = other <;> simp [enroll, h]
  | cons f rest ih =>
    by_cases hf : f.name = name
    · by_cases h : name = other <;> simp [enroll, hf, h]
    · by_cases h : name = other
      · subst h
        simp [enroll, hf, ih]
      · rw [if_neg h] at ih ⊢
        rw [enroll, if_neg hf, List.find?_cons, List.find?_cons, ih]

end Family

structure Declarations where
  model : TypeModel
  /-- The patterns in the order of registration. -/
  patterns : List Pattern := []
  /-- The families in the order of their first members. -/
  families : List Family := []
  /-- Counts the accepted patterns. -/
  version : Nat := 0

namespace Declarations

def size (d : Declarations) : Nat := d.patterns.length

def pattern? (d : Declarations) (id : PatternId) : Option Pattern := d.patterns[id]?

def family? (d : Declarations) (name : String) : Option Family :=
  d.families.find? (·.name = name)

/-- The patterns with these numbers, in the given order. -/
def withIds (d : Declarations) (ids : List PatternId) : List (PatternId × Pattern) :=
  ids.filterMap fun id => (d.pattern? id).map (id, ·)

/-- Adds a pattern behind all others. -/
def record (d : Declarations) (p : Pattern) : Declarations :=
  { d with
    patterns := d.patterns ++ [p]
    families := Family.enroll p.name p.role d.size d.families
    version := d.version + 1 }

@[simp] theorem size_record (d : Declarations) (p : Pattern) : (d.record p).size = d.size + 1 := by
  simp [record, size]

theorem pattern?_record (d : Declarations) (p : Pattern) (id : PatternId) :
    (d.record p).pattern? id = if id = d.size then some p else d.pattern? id := by
  rcases Nat.lt_trichotomy id d.size with h | h | h
  · simp [record, pattern?, List.getElem?_append_left h, Nat.ne_of_lt h]
  · simp [record, pattern?, h, size]
  · have hle : d.patterns.length ≤ id := Nat.le_of_lt h
    simp only [record, pattern?, Nat.ne_of_gt h, if_false, List.getElem?_append_right hle]
    rw [List.getElem?_eq_none hle, List.getElem?_eq_none]
    simp only [List.length_singleton]
    unfold size at h
    omega

theorem family?_record (d : Declarations) (p : Pattern) (name : String) :
    (d.record p).family? name =
      if p.name = name then
        let family := (d.family? p.name).getD { name := p.name, flavor := p.role.flavor }
        some (family.add p.role d.size)
      else d.family? name :=
  Family.find?_enroll p.name name p.role d.size d.families

end Declarations

structure Registry where
  declarations : Declarations
  frozen : Bool := false

namespace Registry

/-- A registry without patterns. -/
def empty (model : TypeModel) : Registry := { declarations := { model } }

/-- The empty registry over the standard model without aliases. -/
def standard : Registry := empty AliasTable.empty.model

/-- Closes a registry to further declarations. -/
def freeze (r : Registry) : Registry := { r with frozen := true }

end Registry

end TemplateResolution
