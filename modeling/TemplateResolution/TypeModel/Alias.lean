import TemplateResolution.TypeModel.Basic

/-!
# Aliases

An alias table gives names to leaf types.  `canonical` follows a chain of
aliases to its end and then takes the usual spelling of a builtin type; two
names are the same leaf when they lead to the same spelling.  A chain is
followed for one step more than the table is long, which only a cycle outlasts.
-/

namespace TemplateResolution

/-- The builtin types with more than one spelling, each with its usual one. -/
def builtinSpellings : List (String × String) :=
  [ ("signed", "int"),
    ("signed int", "int"),
    ("unsigned", "unsigned int"),
    ("short int", "short"),
    ("signed short", "short"),
    ("long int", "long"),
    ("signed long", "long"),
    ("long long int", "long long"),
    ("unsigned long int", "unsigned long"),
    ("std::size_t", "size_t"),
    ("std::nullptr_t", "nullptr_t") ]

def usualSpelling (name : String) : String := (builtinSpellings.lookup name).getD name

structure AliasTable where
  entries : List (String × String) := []
deriving DecidableEq

namespace AliasTable

def empty : AliasTable := {}

def size (table : AliasTable) : Nat := table.entries.length

def target? (table : AliasTable) (name : String) : Option String := table.entries.lookup name

/-- Makes `name` an alias of `target`; a later declaration of a name replaces an earlier one. -/
def declare (table : AliasTable) (name target : String) : AliasTable :=
  ⟨(name, target) :: table.entries.filter (·.1 != name)⟩

theorem lookup_filter_ne (name a : String) (entries : List (String × String)) (h : a ≠ name) :
    (entries.filter (·.1 != name)).lookup a = entries.lookup a := by
  induction entries with
  | nil => rfl
  | cons e rest ih =>
    rcases e with ⟨k, v⟩
    by_cases hk : k = name
    · subst hk
      simp [List.lookup_cons, beq_eq_false_iff_ne.2 h, ih]
    · by_cases ha : a = k
      · subst ha
        simp [hk]
      · simp [List.lookup_cons, hk, beq_eq_false_iff_ne.2 ha, ih]

theorem target?_declare (table : AliasTable) (name target a : String) :
    (table.declare name target).target? a = if a = name then some target else table.target? a := by
  by_cases h : a = name
  · simp [declare, target?, h]
  · simp [declare, target?, List.lookup_cons, beq_eq_false_iff_ne.2 h, h, lookup_filter_ne name a _ h]

def ofList (aliases : List (String × String)) : AliasTable :=
  aliases.foldl (fun table entry => table.declare entry.1 entry.2) empty

/-- The name at the end of at most `steps` aliases. -/
def follow (table : AliasTable) : Nat → String → String
  | 0, name => name
  | steps + 1, name =>
    match table.target? name with
    | some target => table.follow steps target
    | none => name

def canonical (table : AliasTable) (name : String) : String :=
  usualSpelling (table.follow (table.size + 1) name)

def sameLeaf (table : AliasTable) (a b : String) : Bool :=
  a == b || table.canonical a == table.canonical b

theorem sameLeaf_iff {table : AliasTable} {a b : String} :
    table.sameLeaf a b = true ↔ table.canonical a = table.canonical b := by
  rw [sameLeaf, Bool.or_eq_true, beq_iff_eq, beq_iff_eq]
  exact ⟨fun h => h.elim (congrArg table.canonical) id, .inr⟩

theorem sameLeaf_refl (table : AliasTable) (a : String) : table.sameLeaf a a = true :=
  sameLeaf_iff.mpr rfl

theorem sameLeaf_symm (table : AliasTable) {a b : String} (hab : table.sameLeaf a b = true) :
    table.sameLeaf b a = true :=
  sameLeaf_iff.mpr (sameLeaf_iff.mp hab).symm

theorem sameLeaf_trans (table : AliasTable) {a b c : String} (hab : table.sameLeaf a b = true)
    (hbc : table.sameLeaf b c = true) : table.sameLeaf a c = true :=
  sameLeaf_iff.mpr ((sameLeaf_iff.mp hab).trans (sameLeaf_iff.mp hbc))

/-- The standard model: conversions only ever add qualifiers, and packs are as declared. -/
def model (table : AliasTable) : TypeModel where
  sameLeaf := table.sameLeaf
  mayQualify given wanted := wanted.includes given
  isPack p := p.pack
  packKind p := p.kind

end AliasTable

end TemplateResolution
