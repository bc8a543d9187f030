import TemplateResolution.Proofs.Registry.Accepted

/-!
# Coherent registries

What holds of a registry after any run of calls, whether they were obeyed or refused.
Its families list its patterns without a gap and without an overlap, a family is led by
its primary or consists of overloads, and a specialization comes behind the pattern that
it names (`Coherent`).

Three things about the recorded patterns carry this through a run (`Linked`): a primary
is the only base of its name, every base is of the flavor of its family, and a
specialization names an earlier base of its own name.  The last is what keeps a family
from being opened by a specialization, so its flavor is always that of its bases.
-/

namespace TemplateResolution

/-! ### The lists of a family -/

/-- The lists in which a family keeps its members. -/
inductive Rank where
  | bases
  | partials
  | explicits
deriving DecidableEq

def Role.rank : Role → Rank
  | .primary | .overload => .bases
  | .partialOf _ => .partials
  | .explicitOf _ _ => .explicits

def Family.ranked (f : Family) : Rank → List PatternId
  | .bases => f.primaries
  | .partials => f.partials
  | .explicits => f.explicits

theorem Role.isBase_iff {role : Role} :
    role.isBase = true ↔ role = .primary ∨ role = .overload := by
  cases role <;> simp [isBase]

@[simp] theorem Family.flavor_add (f : Family) (role : Role) (id : PatternId) :
    (f.add role id).flavor = f.flavor := by
  cases role <;> rfl

theorem Family.mem_members {f : Family} {id : PatternId} :
    id ∈ f.members ↔ ∃ k, id ∈ f.ranked k := by
  rw [members, mem_ascending, List.mem_append, List.mem_append]
  constructor
  · rintro ((h | h) | h)
    · exact ⟨.bases, h⟩
    · exact ⟨.partials, h⟩
    · exact ⟨.explicits, h⟩
  · rintro ⟨k, h⟩
    cases k with
    | bases => exact .inl (.inl h)
    | partials => exact .inl (.inr h)
    | explicits => exact .inr h

/-- An item behind a list adds itself to the items of that list, or nothing. -/
theorem eraseDups_concat {α : Type} [DecidableEq α] (l : List α) (a : α) :
    (l ++ [a]).eraseDups = if a ∈ l then l.eraseDups else l.eraseDups ++ [a] := by
  rw [List.eraseDups_append, List.cons_removeAll, List.nil_removeAll]
  by_cases h : a ∈ l <;> simp [h, List.eraseDups_cons]

theorem nodup_eraseDups {α : Type} [DecidableEq α] (l : List α) : l.eraseDups.Nodup := by
  induction l using List.reverseRecOn with
  | nil => exact List.nodup_nil
  | append_singleton l a ih =>
    rw [eraseDups_concat]
    split
    · exact ih
    · rename_i h
      refine List.Nodup.append ih (List.nodup_singleton a) fun b hb ha => ?_
      rw [List.mem_singleton.mp ha] at hb
      exact h (List.mem_eraseDups.mp hb)

theorem Family.map_name_enroll (name : String) (role : Role) (id : PatternId) (fs : List Family) :
    (enroll name role id fs).map (·.name) =
      if name ∈ fs.map (·.name) then fs.map (·.name) else fs.map (·.name) ++ [name] := by
  induction fs with
  | nil => simp [enroll]
  | cons f rest ih =>
    rw [enroll]
    by_cases hf : f.name = name
    · simp [hf]
    · have hne : ¬ name = f.name := fun h => hf h.symm
      rw [if_neg hf, List.map_cons, List.map_cons, ih]
      by_cases hrest : name ∈ rest.map (·.name)
      · rw [if_pos hrest, if_pos (List.mem_cons_of_mem _ hrest)]
      · rw [if_neg hrest, if_neg (List.not_mem_cons_of_ne_of_not_mem hne hrest),
          List.cons_append]

namespace Declarations

variable {d : Declarations}

/-- A list of a family holds the patterns of its name that have its rank. -/
theorem Files.mem_ranked {name : String} {f : Family} (h : d.Files name f) {id : PatternId}
    {k : Rank} :
    id ∈ f.ranked k ↔ ∃ p, d.pattern? id = some p ∧ p.name = name ∧ p.role.rank = k := by
  have hkept : ∀ keep : Pattern → Bool, (∀ p, keep p = true ↔ p.name = name ∧ p.role.rank = k) →
      (id ∈ d.idsWhere keep ↔ ∃ p, d.pattern? id = some p ∧ p.name = name ∧ p.role.rank = k) := by
    intro keep hkeep
    rw [mem_idsWhere]
    exact exists_congr fun p => and_congr_right fun _ => hkeep p
  cases k with
  | bases =>
    rw [Family.ranked, h.primaries]
    refine hkept _ fun p => ?_
    cases p.role <;> simp [Role.isBase, Role.rank]
  | partials =>
    rw [Family.ranked, h.partials]
    refine hkept _ fun p => ?_
    cases p.role <;> simp [Role.isPartial, Role.rank]
  | explicits =>
    rw [Family.ranked, h.explicits]
    refine hkept _ fun p => ?_
    cases p.role <;> simp [Role.isExplicit, Role.rank]

theorem Files.ranked_pairwise {name : String} {f : Family} (h : d.Files name f) (k : Rank) :
    (f.ranked k).Pairwise (· < ·) := by
  cases k with
  | bases =>
    rw [Family.ranked, h.primaries]
    exact d.idsWhere_pairwise _
  | partials =>
    rw [Family.ranked, h.partials]
    exact d.idsWhere_pairwise _
  | explicits =>
    rw [Family.ranked, h.explicits]
    exact d.idsWhere_pairwise _

theorem lt_size_of_pattern? {id : PatternId} {p : Pattern} (h : d.pattern? id = some p) :
    id < d.size :=
  (List.getElem?_eq_some_iff.mp h).1

theorem exists_pattern? {id : PatternId} (h : id < d.size) : ∃ p, d.pattern? id = some p :=
  ⟨_, List.getElem?_eq_getElem h⟩

/-- A pattern of a record is the new one or was there before. -/
theorem pattern?_record_cases {p q : Pattern} {id : PatternId}
    (h : (d.record p).pattern? id = some q) :
    (id = d.size ∧ q = p) ∨ (id < d.size ∧ d.pattern? id = some q) := by
  rw [pattern?_record] at h
  split at h
  · rename_i hid
    exact .inl ⟨hid, (Option.some.inj h).symm⟩
  · exact .inr ⟨lt_size_of_pattern? h, h⟩

theorem pattern?_record_of_some {p q : Pattern} {id : PatternId} (h : d.pattern? id = some q) :
    (d.record p).pattern? id = some q := by
  have hlt := lt_size_of_pattern? h
  rw [pattern?_record, if_neg (Nat.ne_of_lt hlt), h]

/-! ### What the checks say about the place of a pattern -/

/-- A primary opens its family, and an overload does so or joins other overloads. -/
theorem Passed.base_inv {p : Pattern} (h : d.Passed p) (hbase : p.role.isBase = true) {f : Family}
    (hf : d.family? p.name = some f) :
    f.flavor = p.role.flavor ∧ (p.role = .primary → f.primaries = []) := by
  cases h with
  | primary hrole _ hprimary =>
    obtain ⟨-, hfamily⟩ := checkPrimary_inv hprimary
    obtain ⟨hflavor, hprimaries⟩ := hfamily f hf
    rw [hrole]
    exact ⟨hflavor, fun _ => hprimaries⟩
  | overload hrole _ hoverload =>
    obtain ⟨-, hfamily⟩ := checkOverload_inv hoverload
    rw [hrole]
    exact ⟨(hfamily f hf).1, fun h => Role.noConfusion h⟩
  | partialOf of hrole => simp [hrole, Role.isBase] at hbase
  | explicitOf p' of templateArgs hcompleted =>
    obtain ⟨-, ⟨ts, hrole⟩, -⟩ := completeExplicit_inv hcompleted
    simp [hrole, Role.isBase] at hbase

theorem Passed.explicit_inv {p : Pattern} (h : d.Passed p) {of : PatternId} {ts : List Term}
    (hrole : p.role = .explicitOf of ts) :
    p.parameters = [] ∧
      ∃ q, d.pattern? of = some q ∧ q.name = p.name ∧ (q.role = .primary ∨ q.role = .overload) := by
  cases h with
  | primary h => simp [hrole] at h
  | overload h => simp [hrole] at h
  | partialOf _ h => simp [hrole] at h
  | explicitOf p' of' templateArgs hcompleted =>
    obtain ⟨hparameters, ⟨ts', hrole'⟩, -, hq⟩ := completeExplicit_inv hcompleted
    obtain ⟨rfl, -⟩ := Role.explicitOf.inj (hrole'.symm.trans hrole)
    exact ⟨hparameters, hq⟩

/-! ### The invariant of a record -/

/-- What is preserved by recording a pattern that has passed its checks. -/
structure Linked (d : Declarations) : Prop where
  version : d.version = d.size
  names : d.families.map (·.name) = (d.patterns.map (·.name)).eraseDups
  filed : d.Filed
  /-- Every base is of the flavor of its family. -/
  flavors : ∀ (f : Family) (i : PatternId) (p : Pattern), d.family? p.name = some f →
    d.pattern? i = some p → p.role.isBase = true → p.role.flavor = f.flavor
  /-- A primary is the only base of its name. -/
  sole : ∀ (i j : PatternId) (p q : Pattern), d.pattern? i = some p → p.role = .primary →
    d.pattern? j = some q → q.name = p.name → q.role.isBase = true → j = i
  partials : ∀ (i of : PatternId) (p : Pattern), d.pattern? i = some p → p.role = .partialOf of →
    of < i ∧ ∃ q, d.pattern? of = some q ∧ q.name = p.name ∧ q.role = .primary
  explicits : ∀ (i of : PatternId) (ts : List Term) (p : Pattern), d.pattern? i = some p →
    p.role = .explicitOf of ts → p.parameters = [] ∧ of < i ∧
      ∃ q, d.pattern? of = some q ∧ q.name = p.name ∧ (q.role = .primary ∨ q.role = .overload)

theorem linked_empty (model : TypeModel) : Linked { model } where
  version := rfl
  names := rfl
  filed := filed_empty model
  flavors := fun _ _ _ hf => absurd hf (Option.some_ne_none _).symm
  sole := fun _ _ _ _ hi => absurd hi (Option.some_ne_none _).symm
  partials := fun _ _ _ hi => absurd hi (Option.some_ne_none _).symm
  explicits := fun _ _ _ _ hi => absurd hi (Option.some_ne_none _).symm

namespace Linked

/-- Families are found by their names. -/
theorem family?_eq_some (h : d.Linked) {name : String} {f : Family} :
    d.family? name = some f ↔ f ∈ d.families ∧ f.name = name := by
  constructor
  · intro hf
    exact ⟨List.mem_of_find?_eq_some hf, by simpa using List.find?_some hf⟩
  · rintro ⟨hf, rfl⟩
    have hnodup : (d.families.map (·.name)).Nodup := by
      rw [h.names]
      exact nodup_eraseDups _
    cases hfind : d.family? f.name with
    | none =>
      have hother := List.find?_eq_none.mp hfind f hf
      simp at hother
    | some g =>
      have hg : g ∈ d.families := List.mem_of_find?_eq_some hfind
      have hname : g.name = f.name := by simpa using List.find?_some hfind
      rw [List.inj_on_of_nodup_map hnodup hg hf hname]

/-- A name has a family as soon as there is a pattern of that name. -/
theorem exists_family? (h : d.Linked) {id : PatternId} {p : Pattern}
    (hp : d.pattern? id = some p) : ∃ f, d.family? p.name = some f := by
  have hname : p.name ∈ d.patterns.map (·.name) := List.mem_map_of_mem (List.mem_of_getElem? hp)
  have hmem : p.name ∈ d.families.map (·.name) := by
    rw [h.names]
    exact List.mem_eraseDups.mpr hname
  obtain ⟨f, hf, heq⟩ := List.mem_map.mp hmem
  exact ⟨f, h.family?_eq_some.mpr ⟨hf, heq⟩⟩

/-- Of two bases of one name, neither is a primary. -/
theorem overload_of_base (h : d.Linked) {p : Pattern} (hp : d.Passed p)
    (hbase : p.role.isBase = true) {j : PatternId} {q : Pattern} (hq : d.pattern? j = some q)
    (hname : q.name = p.name) (hqbase : q.role.isBase = true) :
    p.role = .overload ∧ q.role = .overload := by
  obtain ⟨f, hf⟩ := h.exists_family? hq
  have hqflavor := h.flavors f j q hf hq hqbase
  obtain ⟨hflavor, hprimaries⟩ := hp.base_inv hbase (hname ▸ hf)
  rcases Role.isBase_iff.mp hbase with hrole | hrole
  · -- a primary would have found `j` in the list of its family
    have hj : j ∈ f.ranked .bases := by
      refine (h.filed.files hf).mem_ranked.mpr ⟨q, hq, rfl, ?_⟩
      rcases Role.isBase_iff.mp hqbase with hr | hr <;> rw [hr] <;> rfl
    rw [Family.ranked, hprimaries hrole] at hj
    exact absurd hj List.not_mem_nil
  · refine ⟨hrole, ?_⟩
    rcases Role.isBase_iff.mp hqbase with hr | hr
    · rw [hr, hflavor, hrole] at hqflavor
      exact Flavor.noConfusion hqflavor
    · exact hr

/-- **Recording a pattern that has passed its checks keeps the patterns linked.** -/
theorem record (h : d.Linked) {p : Pattern} (hp : d.Passed p) : (d.record p).Linked where
  version := by rw [size_record, ← h.version]; rfl
  names := by
    have hmem : p.name ∈ d.families.map (·.name) ↔ p.name ∈ d.patterns.map (·.name) := by
      rw [h.names, List.mem_eraseDups]
    have hpatterns : (d.record p).patterns.map (·.name) = d.patterns.map (·.name) ++ [p.name] :=
      List.map_append
    rw [hpatterns, eraseDups_concat, ← h.names]
    simp only [← hmem]
    exact Family.map_name_enroll p.name p.role d.size d.families
  filed := h.filed.record p
  flavors := by
    intro f i q hf hi hbase
    rw [family?_record] at hf
    by_cases hname : p.name = q.name
    · rw [if_pos hname] at hf
      obtain rfl := Option.some.inj hf
      rw [Family.flavor_add]
      cases hfamily : d.family? p.name with
      | none =>
        -- the first pattern of a name opens its family
        rcases pattern?_record_cases hi with ⟨-, rfl⟩ | ⟨-, hi'⟩
        · rfl
        · obtain ⟨g, hg⟩ := h.exists_family? hi'
          rw [← hname, hfamily] at hg
          exact absurd hg (Option.some_ne_none g).symm
      | some g =>
        rcases pattern?_record_cases hi with ⟨-, rfl⟩ | ⟨-, hi'⟩
        · exact (hp.base_inv hbase hfamily).1.symm
        · exact h.flavors g i q (hname ▸ hfamily) hi' hbase
    · rw [if_neg hname] at hf
      rcases pattern?_record_cases hi with ⟨-, rfl⟩ | ⟨-, hi'⟩
      · exact absurd rfl hname
      · exact h.flavors f i q hf hi' hbase
  sole := by
    intro i j q q' hi hrole hj hname hbase
    have hqbase : q.role.isBase = true := by rw [hrole]; rfl
    rcases pattern?_record_cases hi with ⟨rfl, rfl⟩ | ⟨-, hi'⟩ <;>
      rcases pattern?_record_cases hj with ⟨rfl, rfl⟩ | ⟨-, hj'⟩
    · rfl
    · have hrole' := (h.overload_of_base hp hqbase hj' hname hbase).1
      exact Role.noConfusion (hrole.symm.trans hrole')
    · have hrole' := (h.overload_of_base hp hbase hi' hname.symm hqbase).2
      exact Role.noConfusion (hrole.symm.trans hrole')
    · exact h.sole i j q q' hi' hrole hj' hname hbase
  partials := by
    intro i of q hi hrole
    rcases pattern?_record_cases hi with ⟨rfl, rfl⟩ | ⟨-, hi⟩
    · obtain ⟨-, hpartial⟩ := hp.partial_inv hrole
      obtain ⟨t, ht, hname, hprimary, -⟩ := checkPartial_inv hpartial
      exact ⟨lt_size_of_pattern? ht, t, pattern?_record_of_some ht, hname, hprimary⟩
    · obtain ⟨hlt, t, ht, hname, hprimary⟩ := h.partials i of q hi hrole
      exact ⟨hlt, t, pattern?_record_of_some ht, hname, hprimary⟩
  explicits := by
    intro i of ts q hi hrole
    rcases pattern?_record_cases hi with ⟨rfl, rfl⟩ | ⟨-, hi⟩
    · obtain ⟨hparameters, t, ht, hname, hbase⟩ := hp.explicit_inv hrole
      exact ⟨hparameters, lt_size_of_pattern? ht, t, pattern?_record_of_some ht, hname, hbase⟩
    · obtain ⟨hparameters, hlt, t, ht, hname, hbase⟩ := h.explicits i of ts q hi hrole
      exact ⟨hparameters, hlt, t, pattern?_record_of_some ht, hname, hbase⟩

/-! ### Families as their patterns show them -/

theorem mem_ranked (h : d.Linked) {f : Family} (hf : f ∈ d.families) {id : PatternId} {k : Rank} :
    id ∈ f.ranked k ↔ ∃ p, d.pattern? id = some p ∧ p.name = f.name ∧ p.role.rank = k :=
  (h.filed.files (h.family?_eq_some.mpr ⟨hf, rfl⟩)).mem_ranked

theorem mem_members (h : d.Linked) {f : Family} (hf : f ∈ d.families) {id : PatternId} :
    id ∈ f.members ↔ ∃ p, d.pattern? id = some p ∧ p.name = f.name := by
  rw [Family.mem_members]
  constructor
  · rintro ⟨k, hk⟩
    obtain ⟨p, hp, hname, -⟩ := (h.mem_ranked hf).mp hk
    exact ⟨p, hp, hname⟩
  · rintro ⟨p, hp, hname⟩
    exact ⟨p.role.rank, (h.mem_ranked hf).mpr ⟨p, hp, hname, rfl⟩⟩

/-- A pattern is a base, or it stands behind a base of its name, which is the primary if the pattern
is a partial specialization. -/
theorem base_or_behind (h : d.Linked) {id : PatternId} {p : Pattern} (hp : d.pattern? id = some p) :
    p.role.isBase = true ∨
      (p.role.isPartial = true ∨ p.role.isExplicit = true) ∧
        ∃ of q, of < id ∧ d.pattern? of = some q ∧ q.name = p.name ∧ q.role.isBase = true := by
  cases hrole : p.role with
  | primary => exact .inl rfl
  | overload => exact .inl rfl
  | partialOf of =>
    obtain ⟨hlt, q, hq, hname, hprimary⟩ := h.partials id of p hp hrole
    exact .inr ⟨.inl rfl, of, q, hlt, hq, hname, Role.isBase_iff.mpr (.inl hprimary)⟩
  | explicitOf of ts =>
    obtain ⟨-, hlt, q, hq, hname, hbase⟩ := h.explicits id of ts p hp hrole
    exact .inr ⟨.inr rfl, of, q, hlt, hq, hname, Role.isBase_iff.mpr hbase⟩

/-- A family was opened by a base. -/
theorem exists_base (h : d.Linked) {f : Family} (hf : f ∈ d.families) :
    ∃ id p, d.pattern? id = some p ∧ p.name = f.name ∧ p.role.isBase = true := by
  have hmem : f.name ∈ d.patterns.map (·.name) := by
    rw [← List.mem_eraseDups, ← h.names]
    exact List.mem_map_of_mem hf
  obtain ⟨p, hp, hname⟩ := List.mem_map.mp hmem
  obtain ⟨id, hid⟩ := List.getElem?_of_mem hp
  rcases h.base_or_behind hid with hbase | ⟨-, of, q, -, hq, hqname, hbase⟩
  · exact ⟨id, p, hid, hname, hbase⟩
  · exact ⟨of, q, hq, hqname.trans hname, hbase⟩

/-- The bases of a class-like family are its primary alone. -/
theorem primaries_eq (h : d.Linked) {f : Family} (hf : f ∈ d.families) {id : PatternId}
    {p : Pattern} (hp : d.pattern? id = some p) (hname : p.name = f.name)
    (hrole : p.role = .primary) : f.primaries = [id] := by
  have hbase : p.role.isBase = true := Role.isBase_iff.mpr (.inl hrole)
  have hmem : id ∈ f.ranked .bases := (h.mem_ranked hf).mpr ⟨p, hp, hname, by rw [hrole]; rfl⟩
  have honly : ∀ j ∈ f.ranked .bases, j = id := by
    intro j hj
    obtain ⟨q, hq, hqname, hrank⟩ := (h.mem_ranked hf).mp hj
    have hqbase : q.role.isBase = true := by
      cases hqrole : q.role <;> simp [hqrole, Role.rank, Role.isBase] at hrank ⊢
    exact h.sole id j p q hp hrole hq (hqname.trans hname.symm) hqbase
  have hascending : (f.ranked .bases).Pairwise (· < ·) :=
    (h.filed.files (h.family?_eq_some.mpr ⟨hf, rfl⟩)).ranked_pairwise .bases
  show f.ranked .bases = [id]
  cases hbases : f.ranked .bases with
  | nil =>
    rw [hbases] at hmem
    exact absurd hmem List.not_mem_nil
  | cons first rest =>
    rw [hbases] at honly hascending
    obtain ⟨hfirst, hrest⟩ := List.forall_mem_cons.mp honly
    cases rest with
    | nil => rw [hfirst]
    | cons second rest =>
      have hlt := List.rel_of_pairwise_cons hascending List.mem_cons_self
      rw [hfirst, hrest second List.mem_cons_self] at hlt
      exact absurd hlt (Nat.lt_irrefl id)

end Linked

/-! ### Coherence -/

/-- What holds of a registry's declarations at any time. -/
structure Coherent (d : Declarations) : Prop where
  version : d.version = d.size
  /-- Families stand in the order of their first patterns. -/
  names : d.families.map (·.name) = (d.patterns.map (·.name)).eraseDups
  nonempty : ∀ f ∈ d.families, f.members ≠ []
  /-- Every number stands in one list of one family. -/
  placed : ∀ id < d.size, ∃ p f, d.pattern? id = some p ∧ f ∈ d.families ∧ f.name = p.name ∧
    ∀ g ∈ d.families, ∀ k, id ∈ g.ranked k ↔ g = f ∧ k = p.role.rank
  bounded : ∀ f ∈ d.families, ∀ k, ∀ id ∈ f.ranked k, id < d.size
  ascending : ∀ f ∈ d.families, ∀ k, (f.ranked k).Pairwise (· < ·)
  /-- A class-like family is led by its primary. -/
  classLike : ∀ f ∈ d.families, f.flavor = .classLike →
    ∃ id p, f.primaries = [id] ∧ d.pattern? id = some p ∧ p.role = .primary ∧
      ∀ m ∈ f.members, m = id ∨ id < m ∧ ∃ q, d.pattern? m = some q ∧
        (q.role.isPartial = true ∨ q.role.isExplicit = true)
  functionLike : ∀ f ∈ d.families, f.flavor = .functionLike →
    ∀ m ∈ f.members, ∃ q, d.pattern? m = some q ∧ (q.role = .overload ∨ q.role.isExplicit = true)
  partials : ∀ (id of : PatternId) (p : Pattern), d.pattern? id = some p →
    p.role = .partialOf of →
    ∃ f ∈ d.families, f.name = p.name ∧ f.flavor = .classLike ∧ f.primaries = [of]
  explicits : ∀ (id of : PatternId) (ts : List Term) (p : Pattern), d.pattern? id = some p →
    p.role = .explicitOf of ts → p.parameters = [] ∧ of < id ∧
      ∃ q, d.pattern? of = some q ∧ q.name = p.name ∧ (q.role = .primary ∨ q.role = .overload)

theorem Linked.coherent (h : d.Linked) : d.Coherent where
  version := h.version
  names := h.names
  nonempty := by
    intro f hf
    obtain ⟨id, p, hp, hname, -⟩ := h.exists_base hf
    exact List.ne_nil_of_mem ((h.mem_members hf).mpr ⟨p, hp, hname⟩)
  placed := by
    intro id hid
    obtain ⟨p, hp⟩ := exists_pattern? hid
    obtain ⟨f, hfind⟩ := h.exists_family? hp
    obtain ⟨hf, hname⟩ := h.family?_eq_some.mp hfind
    refine ⟨p, f, hp, hf, hname, fun g hg k => ?_⟩
    rw [h.mem_ranked hg]
    constructor
    · rintro ⟨q, hq, hqname, hrank⟩
      obtain rfl := Option.some.inj (hp.symm.trans hq)
      have hgf := h.family?_eq_some.mpr ⟨hg, hqname.symm⟩
      exact ⟨Option.some.inj (hgf.symm.trans hfind), hrank.symm⟩
    · rintro ⟨rfl, rfl⟩
      exact ⟨p, hp, hname.symm, rfl⟩
  bounded := by
    intro f hf k id hid
    obtain ⟨p, hp, -⟩ := (h.mem_ranked hf).mp hid
    exact lt_size_of_pattern? hp
  ascending := by
    intro f hf k
    exact (h.filed.files (h.family?_eq_some.mpr ⟨hf, rfl⟩)).ranked_pairwise k
  classLike := by
    intro f hf hflavor
    obtain ⟨id, p, hp, hname, hbase⟩ := h.exists_base hf
    have hpflavor := h.flavors f id p (h.family?_eq_some.mpr ⟨hf, hname.symm⟩) hp hbase
    have hrole : p.role = .primary := by
      rcases Role.isBase_iff.mp hbase with hrole | hrole
      · exact hrole
      · rw [hrole, hflavor] at hpflavor
        exact Flavor.noConfusion hpflavor
    refine ⟨id, p, h.primaries_eq hf hp hname hrole, hp, hrole, fun m hm => ?_⟩
    obtain ⟨q, hq, hqname⟩ := (h.mem_members hf).mp hm
    rcases h.base_or_behind hq with hqbase | ⟨hqrole, of, t, hlt, ht, htname, htbase⟩
    · exact .inl (h.sole id m p q hp hrole hq (hqname.trans hname.symm) hqbase)
    · -- the base that `m` stands behind is the primary
      have hof := h.sole id of p t hp hrole ht (htname.trans (hqname.trans hname.symm)) htbase
      exact .inr ⟨hof ▸ hlt, q, hq, hqrole⟩
  functionLike := by
    intro f hf hflavor m hm
    obtain ⟨q, hq, hqname⟩ := (h.mem_members hf).mp hm
    have hfind := h.family?_eq_some.mpr ⟨hf, hqname.symm⟩
    refine ⟨q, hq, ?_⟩
    cases hrole : q.role with
    | primary =>
      have hqflavor := h.flavors f m q hfind hq (Role.isBase_iff.mpr (.inl hrole))
      rw [hrole, hflavor] at hqflavor
      exact Flavor.noConfusion hqflavor
    | overload => exact .inl rfl
    | partialOf of =>
      obtain ⟨-, t, ht, htname, htrole⟩ := h.partials m of q hq hrole
      have htflavor := h.flavors f of t (htname ▸ hfind) ht (Role.isBase_iff.mpr (.inl htrole))
      rw [htrole, hflavor] at htflavor
      exact Flavor.noConfusion htflavor
    | explicitOf of ts => exact .inr rfl
  partials := by
    intro id of p hp hrole
    obtain ⟨-, q, hq, hqname, hqrole⟩ := h.partials id of p hp hrole
    obtain ⟨f, hfind⟩ := h.exists_family? hp
    obtain ⟨hf, hname⟩ := h.family?_eq_some.mp hfind
    have hqflavor := h.flavors f of q (hqname ▸ hfind) hq (Role.isBase_iff.mpr (.inl hqrole))
    rw [hqrole] at hqflavor
    exact ⟨f, hf, hname, hqflavor.symm, h.primaries_eq hf hq (hqname.trans hname.symm) hqrole⟩
  explicits := h.explicits

end Declarations

/-! ### Runs of calls -/

namespace Registry

/-- What a registry can be asked to do. -/
inductive Call where
  | register (p : Pattern)
  | snapshot
  | freeze

/-- The registry after a call.  A pattern that is refused leaves no trace, and a snapshot only
looks at the declarations. -/
def perform (r : Registry) : Call → Registry
  | .register p =>
    match r.register p with
    | .ok (_, r') => r'
    | .error _ => r
  | .snapshot => r
  | .freeze => r.freeze

def performAll (r : Registry) (calls : List Call) : Registry := calls.foldl perform r

theorem Reachable.perform {r : Registry} (h : r.Reachable) (call : Call) :
    (r.perform call).Reachable := by
  cases call with
  | register p =>
    cases hp : r.register p with
    | error e =>
      simp only [Registry.perform, hp]
      exact h
    | ok result =>
      simp only [Registry.perform, hp]
      exact h.register hp
  | snapshot => exact h
  | freeze => exact h.freeze

theorem Reachable.performAll {r : Registry} (h : r.Reachable) (calls : List Call) :
    (r.performAll calls).Reachable := by
  induction calls generalizing r with
  | nil => exact h
  | cons call calls ih => exact ih (h.perform call)

theorem Reachable.linked {r : Registry} (h : r.Reachable) : r.declarations.Linked := by
  induction h with
  | empty model => exact Declarations.linked_empty model
  | register _ hp ih =>
    obtain ⟨accepted, -, haccept, -, rfl⟩ := register_inv hp
    exact ih.record (Declarations.accept_cases haccept)
  | freeze _ ih => exact ih

theorem performAll_of_frozen {r : Registry} (h : r.frozen = true) (calls : List Call) :
    r.performAll calls = r := by
  induction calls with
  | nil => rfl
  | cons call calls ih =>
    have hcall : r.perform call = r := by
      cases call with
      | register p => simp [perform, register, h]
      | snapshot => rfl
      | freeze => rw [perform, freeze, ← h]
    show (r.perform call).performAll calls = r
    rw [hcall, ih]

/-- **Whatever a registry is asked to do, its declarations stay coherent, and once it is closed they
stay as they are.** -/
theorem coherent_performAll (model : TypeModel) (calls later : List Call) :
    ((empty model).performAll calls).declarations.Coherent ∧
      ((empty model).performAll (calls ++ .freeze :: later)).declarations =
        ((empty model).performAll calls).declarations := by
  constructor
  · exact ((Reachable.empty model).performAll calls).linked.coherent
  · have hfrozen : ((empty model).performAll calls).freeze.frozen = true := rfl
    rw [performAll, List.foldl_append, List.foldl_cons]
    show (((empty model).performAll calls).freeze.performAll later).declarations = _
    rw [performAll_of_frozen hfrozen]
    rfl

end Registry

end TemplateResolution
