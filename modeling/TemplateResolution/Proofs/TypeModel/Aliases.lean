import TemplateResolution.TypeModel.Alias
import Mathlib.Data.Finset.Card
import Mathlib.Logic.Relation

/-!
# Aliases as an equivalence

Where aliases do not run in a circle, following them comes to a name that is no alias
(`target?_root`), and a name comes to the same end as what it is declared an alias of
(`root_eq_of_target?`).  So equality of leaves is the equivalence that the declared
aliases and the common spellings of builtin types generate, but the latter only between
names that are no aliases (`sameLeaf_iff_joins`): the usual spelling is taken at the end
of a chain, and an alias for it is not followed any more.

So names that are the same leaf are synonyms.  The converse holds exactly if no alias
tears a builtin type off its usual spelling (`sameLeaf_ofList`).
-/

namespace TemplateResolution

open Relation (EqvGen TransGen)

/-! ### Spellings -/

/-- The names of builtin types with more than one spelling. -/
def builtinNames : List String := builtinSpellings.flatMap fun e => [e.1, e.2]

theorem usualSpelling_of_mem {a usual : String} (h : (a, usual) ∈ builtinSpellings) :
    usualSpelling a = usual ∧ usualSpelling usual = usual := by
  have hall : ∀ e ∈ builtinSpellings, usualSpelling e.1 = e.2 ∧ usualSpelling e.2 = e.2 := by
    decide
  exact hall (a, usual) h

theorem mem_builtinNames {a usual : String} (h : (a, usual) ∈ builtinSpellings) :
    a ∈ builtinNames ∧ usual ∈ builtinNames :=
  ⟨List.mem_flatMap.mpr ⟨_, h, List.mem_cons_self⟩,
    List.mem_flatMap.mpr ⟨_, h, List.mem_cons_of_mem _ List.mem_cons_self⟩⟩

/-- A name is its own usual spelling, or is listed with another. -/
theorem usualSpelling_cases (name : String) :
    usualSpelling name = name ∨ (name, usualSpelling name) ∈ builtinSpellings := by
  cases h : builtinSpellings.lookup name with
  | none =>
    refine .inl ?_
    rw [usualSpelling, h, Option.getD_none]
  | some usual =>
    obtain ⟨front, back, hlist, -⟩ := List.lookup_eq_some_iff.mp h
    refine .inr ?_
    rw [usualSpelling, h, Option.getD_some, hlist]
    exact List.mem_append_right _ List.mem_cons_self

/-- Two names with the same usual spelling are both names of builtin types, or the same. -/
theorem eq_or_mem_of_usualSpelling_eq {a b : String} (h : usualSpelling a = usualSpelling b) :
    a = b ∨ a ∈ builtinNames ∧ b ∈ builtinNames := by
  rcases usualSpelling_cases a with ha | ha
  · rcases usualSpelling_cases b with hb | hb
    · exact .inl (ha.symm.trans (h.trans hb))
    · rw [← h, ha] at hb
      exact .inr (mem_builtinNames hb).symm
  · rcases usualSpelling_cases b with hb | hb
    · rw [h, hb] at ha
      exact .inr (mem_builtinNames ha)
    · exact .inr ⟨(mem_builtinNames ha).1, (mem_builtinNames hb).1⟩

namespace AliasTable

variable {table : AliasTable}

/-! ### The last declaration counts -/

theorem target?_foldl_declare (aliases : List (String × String)) (a : String) :
    ∀ table : AliasTable,
      (aliases.foldl (fun table entry => table.declare entry.1 entry.2) table).target? a =
        (aliases.reverse.lookup a).or (table.target? a) := by
  induction aliases with
  | nil => exact fun _ => rfl
  | cons e aliases ih =>
    obtain ⟨name, target⟩ := e
    intro table
    rw [List.foldl_cons, ih, target?_declare, List.reverse_cons, List.lookup_append,
      Option.or_assoc, List.lookup_singleton]
    by_cases h : a = name
    · rw [if_pos h, if_pos (beq_iff_eq.mpr h), Option.some_or]
    · rw [if_neg h, if_neg (fun hbeq => h (beq_iff_eq.mp hbeq)), Option.none_or]

theorem target?_ofList (aliases : List (String × String)) (a : String) :
    (ofList aliases).target? a = aliases.reverse.lookup a := by
  rw [ofList, target?_foldl_declare]
  exact Option.or_none

theorem mem_of_target? {a b : String} (h : table.target? a = some b) : (a, b) ∈ table.entries := by
  obtain ⟨front, back, hlist, -⟩ := List.lookup_eq_some_iff.mp h
  rw [hlist]
  exact List.mem_append_right _ List.mem_cons_self

/-! ### Following aliases to the end -/

/-- No name is an alias of itself, through whatever other names. -/
def Acyclic (table : AliasTable) : Prop :=
  ∀ a, ¬TransGen (fun a b => table.target? a = some b) a a

theorem acyclic_of_rank (rank : String → Nat) (h : ∀ e ∈ table.entries, rank e.2 < rank e.1) :
    table.Acyclic := by
  have hdescends : ∀ {a b}, TransGen (fun a b => table.target? a = some b) a b →
      rank b < rank a := by
    intro a b hab
    induction hab with
    | single hstep => exact h _ (mem_of_target? hstep)
    | tail _ hstep ih => exact (h _ (mem_of_target? hstep)).trans ih
  exact fun a ha => Nat.lt_irrefl _ (hdescends ha)

/-- The name that the aliases of `a` lead to. -/
def root (table : AliasTable) (a : String) : String := table.follow (table.size + 1) a

theorem follow_of_target? {a b : String} (h : table.target? a = some b) (k : Nat) :
    table.follow (k + 1) a = table.follow k b := by
  rw [follow, h]

theorem follow_of_target?_eq_none {a : String} (h : table.target? a = none) (k : Nat) :
    table.follow k a = a := by
  cases k with
  | zero => rfl
  | succ k => rw [follow, h]

theorem follow_add (j k : Nat) : ∀ a : String,
    table.follow (j + k) a = table.follow k (table.follow j a) := by
  induction j with
  | zero => exact fun a => by rw [Nat.zero_add, follow]
  | succ j ih =>
    intro a
    rw [Nat.add_right_comm]
    cases h : table.target? a with
    | none => rw [follow_of_target?_eq_none h, follow_of_target?_eq_none h,
        follow_of_target?_eq_none h]
    | some b => rw [follow_of_target? h, follow_of_target? h, ih]

/-- While the aliases go on, each name has the next for an alias. -/
theorem target?_follow {a : String} {k j : Nat} (hk : table.target? (table.follow k a) ≠ none)
    (hj : j < k) : table.target? (table.follow j a) = some (table.follow (j + 1) a) := by
  cases h : table.target? (table.follow j a) with
  | none =>
    obtain ⟨i, rfl⟩ := Nat.exists_eq_add_of_lt hj
    rw [Nat.add_assoc, follow_add, follow_of_target?_eq_none h] at hk
    exact absurd h hk
  | some b => rw [follow_add, follow_of_target? h, follow]

theorem transGen_follow {a : String} {k : Nat} (hk : table.target? (table.follow k a) ≠ none)
    {i j : Nat} (hij : i < j) (hj : j ≤ k) :
    TransGen (fun a b => table.target? a = some b) (table.follow i a) (table.follow j a) := by
  induction j, hij using Nat.le_induction with
  | base => exact .single (target?_follow hk hj)
  | succ j _ ih => exact (ih (Nat.le_of_succ_le hj)).tail (target?_follow hk hj)

/-- There are not aliases enough to go on for as many steps as `root` takes. -/
theorem target?_root (hacyclic : table.Acyclic) (a : String) :
    table.target? (table.root a) = none := by
  by_contra hk
  have hmaps : Set.MapsTo (fun i => table.follow i a) (Finset.range (table.size + 1))
      (table.entries.map (·.1)).toFinset := by
    intro i hi
    have hstep := target?_follow hk (Finset.mem_range.mp hi)
    exact List.mem_toFinset.mpr (List.mem_map_of_mem (mem_of_target? hstep))
  have hcard : (table.entries.map (·.1)).toFinset.card < (Finset.range (table.size + 1)).card := by
    rw [Finset.card_range]
    exact Nat.lt_succ_of_le ((List.toFinset_card_le _).trans_eq (List.length_map _))
  obtain ⟨i, hi, j, hj, hne, heq⟩ := Finset.exists_ne_map_eq_of_card_lt_of_maps_to hcard hmaps
  have hcircle : ∀ {i j}, i < j → j < table.size + 1 → table.follow i a ≠ table.follow j a := by
    intro i j hij hj heq
    have hpath := transGen_follow hk hij hj.le
    rw [heq] at hpath
    exact hacyclic _ hpath
  rcases Nat.lt_or_gt_of_ne hne with hij | hij
  · exact hcircle hij (Finset.mem_range.mp hj) heq
  · exact hcircle hij (Finset.mem_range.mp hi) heq.symm

theorem root_of_target?_eq_none {a : String} (h : table.target? a = none) : table.root a = a :=
  follow_of_target?_eq_none h _

theorem root_eq_of_target? (hacyclic : table.Acyclic) {a b : String}
    (h : table.target? a = some b) : table.root a = table.root b := by
  have hend := target?_root hacyclic a
  have hsize : table.root a = table.follow table.size b := follow_of_target? h _
  rw [hsize] at hend ⊢
  rw [root, follow_add, follow_of_target?_eq_none hend]

/-! ### What is joined -/

/-- One name is declared an alias of the other, or is another spelling of it. -/
def Synonym (table : AliasTable) (a b : String) : Prop :=
  table.target? a = some b ∨ (a, b) ∈ builtinSpellings

/-- One name is declared an alias of the other, or neither is an alias and they are spellings of
the same. -/
def Joins (table : AliasTable) (a b : String) : Prop :=
  table.target? a = some b ∨
    table.target? a = none ∧ table.target? b = none ∧ usualSpelling a = usualSpelling b

theorem equivalence_sameLeaf (table : AliasTable) :
    Equivalence fun a b => table.sameLeaf a b = true :=
  ⟨table.sameLeaf_refl, table.sameLeaf_symm, table.sameLeaf_trans⟩

theorem eqvGen_follow {r : String → String → Prop}
    (hr : ∀ a b, table.target? a = some b → r a b) (k : Nat) : ∀ a : String,
    EqvGen r a (table.follow k a) := by
  induction k with
  | zero => exact fun a => .refl a
  | succ k ih =>
    intro a
    cases h : table.target? a with
    | none =>
      rw [follow_of_target?_eq_none h]
      exact .refl a
    | some b =>
      rw [follow_of_target? h]
      exact .trans _ _ _ (.rel _ _ (hr a b h)) (ih b)

theorem sameLeaf_of_target? (hacyclic : table.Acyclic) {a b : String}
    (h : table.target? a = some b) : table.sameLeaf a b = true :=
  sameLeaf_iff.mpr (congrArg usualSpelling (root_eq_of_target? hacyclic h))

/-- Following aliases comes to representatives of what the table joins. -/
theorem sameLeaf_iff_joins (hacyclic : table.Acyclic) {a b : String} :
    table.sameLeaf a b = true ↔ EqvGen table.Joins a b := by
  constructor
  · intro h
    have hroot : ∀ a, EqvGen table.Joins a (table.root a) := eqvGen_follow (fun _ _ => .inl) _
    have hends : EqvGen table.Joins (table.root a) (table.root b) :=
      .rel _ _ (.inr ⟨target?_root hacyclic a, target?_root hacyclic b, sameLeaf_iff.mp h⟩)
    exact .trans _ _ _ (.trans _ _ _ (hroot a) hends) (.symm _ _ (hroot b))
  · intro h
    rw [← table.equivalence_sameLeaf.eqvGen_iff]
    refine h.mono fun a b hab => ?_
    rcases hab with hab | ⟨ha, hb, hab⟩
    · exact sameLeaf_of_target? hacyclic hab
    · refine sameLeaf_iff.mpr ?_
      rw [canonical, canonical, follow_of_target?_eq_none ha, follow_of_target?_eq_none hb, hab]

/-! ### Synonyms -/

theorem eqvGen_canonical (table : AliasTable) (a : String) :
    EqvGen table.Synonym a (table.canonical a) := by
  refine .trans _ _ _ (eqvGen_follow (fun _ _ => .inl) (table.size + 1) a) ?_
  rcases usualSpelling_cases (table.follow (table.size + 1) a) with h | h
  · rw [canonical, h]
    exact .refl _
  · exact .rel _ _ (.inr h)

theorem eqvGen_synonym_of_sameLeaf {a b : String} (h : table.sameLeaf a b = true) :
    EqvGen table.Synonym a b := by
  have hb := eqvGen_canonical table b
  rw [← sameLeaf_iff.mp h] at hb
  exact .trans _ _ _ (eqvGen_canonical table a) (.symm _ _ hb)

/-- All synonyms are the same leaf if those are that are spellings of one builtin type. -/
theorem sameLeaf_iff_synonym (hacyclic : table.Acyclic)
    (hbuiltin : ∀ e ∈ builtinSpellings, table.sameLeaf e.1 e.2 = true) {a b : String} :
    table.sameLeaf a b = true ↔ EqvGen table.Synonym a b := by
  refine ⟨eqvGen_synonym_of_sameLeaf, fun h => ?_⟩
  rw [← table.equivalence_sameLeaf.eqvGen_iff]
  refine h.mono fun a b hab => ?_
  rcases hab with hab | hab
  · exact sameLeaf_of_target? hacyclic hab
  · exact hbuiltin (a, b) hab

theorem sameLeaf_of_mem {e : String × String} (he : e ∈ builtinSpellings)
    (hnone : ∀ a ∈ builtinNames, table.target? a = none) : table.sameLeaf e.1 e.2 = true := by
  obtain ⟨hfirst, hsecond⟩ := usualSpelling_of_mem he
  obtain ⟨ha, hb⟩ := mem_builtinNames he
  rw [sameLeaf_iff, canonical, canonical, follow_of_target?_eq_none (hnone _ ha),
    follow_of_target?_eq_none (hnone _ hb), hfirst, hsecond]

/-! ### Declaring an alias for a new name -/

theorem target?_declare_of_some {name target a b : String} (hnew : table.target? name = none)
    (h : table.target? a = some b) : (table.declare name target).target? a = some b := by
  have hne : a ≠ name := by
    rintro rfl
    exact Option.some_ne_none b (h.symm.trans hnew)
  rw [target?_declare, if_neg hne, h]

theorem Acyclic.of_declare {name target : String} (hnew : table.target? name = none)
    (h : (table.declare name target).Acyclic) : table.Acyclic :=
  fun a ha => h a (TransGen.mono (fun _ _ => target?_declare_of_some hnew) a a ha)

theorem sameLeaf_of_joins (hacyclic : table.Acyclic) {a b : String} (h : table.Joins a b) :
    table.sameLeaf a b = true :=
  (sameLeaf_iff_joins hacyclic).mpr (.rel _ _ h)

/-- An alias for a new name takes two names apart only if it takes the name off another spelling of
the same builtin type. -/
theorem sameLeaf_declare_iff {name target : String} (hnew : table.target? name = none)
    (hacyclic : (table.declare name target).Acyclic) :
    (∀ a b, table.sameLeaf a b = true → (table.declare name target).sameLeaf a b = true) ↔
      (name ∈ builtinNames → ∀ b ∈ builtinNames, table.target? b = none →
        usualSpelling name = usualSpelling b →
          (table.declare name target).sameLeaf name b = true) := by
  have hacyclic₀ : table.Acyclic := .of_declare hnew hacyclic
  constructor
  · intro h _ b _ hb hspelling
    exact h name b (sameLeaf_of_joins hacyclic₀ (.inr ⟨hnew, hb, hspelling⟩))
  · intro h a b hab
    rw [sameLeaf_iff_joins hacyclic₀] at hab
    rw [← (equivalence_sameLeaf _).eqvGen_iff]
    refine hab.mono fun a b hab => ?_
    rcases hab with hab | ⟨ha, hb, hab⟩
    · exact sameLeaf_of_target? hacyclic (target?_declare_of_some hnew hab)
    rcases eq_or_mem_of_usualSpelling_eq hab with rfl | ⟨hmem, hmem'⟩
    · exact sameLeaf_refl _ _
    by_cases hname : a = name
    · subst hname
      exact h hmem b hmem' hb hab
    by_cases hname' : b = name
    · subst hname'
      exact sameLeaf_symm _ (h hmem' a hmem ha hab.symm)
    · refine sameLeaf_of_joins hacyclic (.inr ⟨?_, ?_, hab⟩)
      · rw [target?_declare, if_neg hname, ha]
      · rw [target?_declare, if_neg hname', hb]

/-- **Leaf equality is the equivalence that the aliases generate.**  Of the declarations of a name
the last counts.  Where aliases do not run in a circle, two names are the same leaf if and only if
they are joined by declared aliases and by spellings of builtin types that are no aliases.  Names
that are the same leaf are synonyms, and synonyms are the same leaf if and only if every builtin
type is the same leaf in each of its spellings, as it is if none of these is declared an alias.  And
an alias for a new name takes no two names apart if and only if, should it be a spelling of a
builtin type, it stays the same leaf as the others. -/
theorem sameLeaf_ofList (aliases : List (String × String)) (hacyclic : (ofList aliases).Acyclic) :
    let table := ofList aliases
    (∀ a, table.target? a = aliases.reverse.lookup a) ∧
      (∀ a b, table.sameLeaf a b = true ↔ EqvGen table.Joins a b) ∧
      (∀ a b, table.sameLeaf a b = true → EqvGen table.Synonym a b) ∧
      ((∀ a b, table.sameLeaf a b = true ↔ EqvGen table.Synonym a b) ↔
        ∀ e ∈ builtinSpellings, table.sameLeaf e.1 e.2 = true) ∧
      ((∀ a ∈ builtinNames, a ∉ aliases.map (·.1)) →
        ∀ a b, table.sameLeaf a b = true ↔ EqvGen table.Synonym a b) ∧
      ∀ name target, name ∉ aliases.map (·.1) →
        let extended := ofList (aliases ++ [(name, target)])
        extended.Acyclic →
          ((∀ a b, table.sameLeaf a b = true → extended.sameLeaf a b = true) ↔
            (name ∈ builtinNames → ∀ b ∈ builtinNames, table.target? b = none →
              usualSpelling name = usualSpelling b → extended.sameLeaf name b = true)) := by
  intro table
  have hnone : ∀ a, a ∉ aliases.map (·.1) → table.target? a = none := by
    intro a ha
    rw [target?_ofList, List.lookup_eq_none_iff]
    intro e he
    rw [bne_iff_ne]
    rintro rfl
    exact ha (List.mem_map_of_mem (List.mem_reverse.mp he))
  refine ⟨target?_ofList aliases, fun a b => sameLeaf_iff_joins hacyclic,
    fun a b => eqvGen_synonym_of_sameLeaf, ⟨fun h e he => ?_, fun h a b => ?_⟩, fun h a b => ?_, ?_⟩
  · exact (h e.1 e.2).mpr (.rel _ _ (.inr he))
  · exact sameLeaf_iff_synonym hacyclic h
  · exact sameLeaf_iff_synonym hacyclic
      fun e he => sameLeaf_of_mem he fun c hc => hnone c (h c hc)
  · intro name target hnew extended hacyclic'
    have hdeclare : extended = table.declare name target := List.foldl_append
    rw [hdeclare] at hacyclic' ⊢
    exact sameLeaf_declare_iff (hnone name hnew) hacyclic'

/-- With `index` for `size_type` and that for `std::size_t`, `index` and `size_t` are the same leaf,
and stay it with `length` for `index`.  But `size_t` for `unsigned long` takes `size_t` off
`std::size_t`. -/
theorem sameLeaf_ofList_index :
    let aliases := [("size_type", "std::size_t"), ("index", "size_type")]
    let table := ofList aliases
    let extended := ofList (aliases ++ [("length", "index")])
    let torn := ofList [("size_t", "unsigned long")]
    table.Acyclic ∧ extended.Acyclic ∧ torn.Acyclic ∧ table.sameLeaf "index" "size_t" = true ∧
      extended.sameLeaf "index" "size_t" = true ∧ EqvGen table.Synonym "index" "size_t" ∧
      ¬EqvGen table.Synonym "index" "int" ∧ empty.sameLeaf "std::size_t" "size_t" = true ∧
      torn.sameLeaf "std::size_t" "size_t" = false ∧
      EqvGen torn.Synonym "std::size_t" "size_t" := by
  intro aliases table extended torn
  let rank : String → Nat := fun name =>
    if name = "length" then 3 else if name = "index" then 2 else if name = "size_type" then 1
    else if name = "size_t" then 1 else 0
  have htable : table.Acyclic := acyclic_of_rank rank (by decide)
  have hextended : extended.Acyclic := acyclic_of_rank rank (by decide)
  have htorn : torn.Acyclic := acyclic_of_rank rank (by decide)
  obtain ⟨-, -, hsynonym, -, hbuiltin, hdeclare⟩ := sameLeaf_ofList aliases htable
  have hsynonyms := hbuiltin (by decide)
  have hindex : table.sameLeaf "index" "size_t" = true := by decide
  have hkept := (hdeclare "length" "index" (by decide) hextended).mpr
    fun h => absurd h (by decide)
  refine ⟨htable, hextended, htorn, hindex, hkept _ _ hindex, hsynonym _ _ hindex, ?_, by decide,
    by decide, .rel _ _ (.inr (by decide))⟩
  rw [← hsynonyms]
  decide

end AliasTable

end TemplateResolution
