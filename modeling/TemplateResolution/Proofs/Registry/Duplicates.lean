import TemplateResolution.Proofs.Registry.Accepted

/-!
# Duplicates

An overload is refused when one that was registered before declares the same, and so
is a partial specialization.  Two patterns declare the same when each takes what the
other takes (`Comparator.coincides`), which does not depend on which of the two comes
first (`coincides_comm`), nor on what has been compared before (`equivalent_run`).  So
the search for a duplicate finds the first pattern that declares the same
(`equivalentAmong_run_fst`).
-/

namespace TemplateResolution

theorem Term.PlaceholderFree.decayed : ∀ {t : Term}, t.PlaceholderFree → t.decayed.PlaceholderFree
  | .expansion inner, h => PlaceholderFree.decayed (t := inner) h
  | .qualified _ _, h => h
  | .param _, h | .placeholder _, h | .type _, h | .value _ _, h | .template _, h
  | .apply _ _, h | .pointer _, h | .reference _ _, h | .offset _ _, h => h

theorem Side.PlaceholderFree.mapTerms_decayed {s : Side} (h : s.PlaceholderFree) :
    (s.mapTerms Term.decayed).PlaceholderFree := by
  intro slot hslot
  obtain ⟨slot, hmem, rfl⟩ := List.mem_map.mp hslot
  exact (h slot hmem).decayed

namespace Comparator

variable (c : Comparator) {a b p : Pattern}

/-- The part of a pattern that says what it declares. -/
def declared (p : Pattern) : Side :=
  match c.flavor with
  | .functionLike => (Side.ofPattern p).mapTerms Term.decayed
  | .classLike => .ofPattern p

/-- Whether two patterns declare the same. -/
def coincides (a b : Pattern) : Bool := c.interchangeable (c.declared a) (c.declared b)

theorem coincides_comm (a b : Pattern) : c.coincides a b = c.coincides b a :=
  c.interchangeable_comm _ _

theorem declared_placeholderFree (hp : p.PlaceholderFree) : (c.declared p).PlaceholderFree := by
  rw [declared]
  cases c.flavor with
  | functionLike => exact Side.PlaceholderFree.mapTerms_decayed hp
  | classLike => exact hp

theorem equivalent_run (ha : a.PlaceholderFree) (hb : b.PlaceholderFree)
    (supply : PlaceholderSupply) :
    ∃ supply', (c.equivalent a b).run supply = (c.coincides a b, supply') := by
  have hrun := c.reproduceEachOther_run (c.declared_placeholderFree ha)
    (c.declared_placeholderFree hb) supply
  rw [equivalent]
  rw [declared, declared] at hrun
  rw [coincides, declared, declared]
  cases hflavor : c.flavor <;> rw [hflavor] at hrun <;> exact hrun

end Comparator

namespace Declarations

/-- **The search for a duplicate finds the first pattern that declares the same.** -/
theorem equivalentAmong_run_fst (c : Comparator) {p : Pattern} (hp : p.PlaceholderFree)
    {entries : List (PatternId × Pattern)} (hentries : ∀ e ∈ entries, e.2.PlaceholderFree)
    (supply : PlaceholderSupply) :
    ((equivalentAmong c p entries).run supply).1 =
      (entries.find? fun e => c.coincides e.2 p).map (·.1) := by
  induction entries generalizing supply with
  | nil => rfl
  | cons e entries ih =>
    obtain ⟨id, q⟩ := e
    obtain ⟨hq, hentries⟩ := List.forall_mem_cons.mp hentries
    obtain ⟨supply', hrun⟩ := c.equivalent_run hq hp supply
    rw [equivalentAmong, StateT.run_bind, hrun, List.find?_cons]
    cases hcoincides : c.coincides q p with
    | true => rfl
    | false => exact ih hentries supply'

variable {d : Declarations} {p : Pattern} {flavor : Flavor} {siblings : List PatternId}

/-- What passes the search declares nothing that one of its siblings declares. -/
theorem checkNew_eq_ok (hp : p.PlaceholderFree)
    (hsiblings : ∀ id ∈ siblings, ∀ q, d.pattern? id = some q → q.PlaceholderFree) :
    d.checkNew flavor siblings p = .ok () ↔
      ∀ id ∈ siblings, ∀ q, d.pattern? id = some q →
        (d.comparator flavor).coincides q p = false := by
  have hentries : ∀ e ∈ d.withIds siblings, e.2.PlaceholderFree := by
    rintro ⟨id, q⟩ he
    obtain ⟨hid, hq⟩ := mem_withIds.mp he
    exact hsiblings id hid q hq
  rw [checkNew, equivalentAmong_run_fst _ hp hentries]
  constructor
  · intro h id hid q hq
    cases hfind : (d.withIds siblings).find? fun e => (d.comparator flavor).coincides e.2 p with
    | none =>
      exact Bool.eq_false_iff.mpr (List.find?_eq_none.mp hfind (id, q) (mem_withIds.mpr ⟨hid, hq⟩))
    | some e =>
      rw [hfind] at h
      exact Except.noConfusion rfl rfl (heq_of_eq h)
  · intro h
    have hnone : ((d.withIds siblings).find? fun e => (d.comparator flavor).coincides e.2 p) =
        none := by
      refine List.find?_eq_none.mpr ?_
      rintro ⟨id, q⟩ he
      obtain ⟨hid, hq⟩ := mem_withIds.mp he
      exact Bool.eq_false_iff.mp (h id hid q hq)
    rw [hnone]
    rfl

end Declarations

end TemplateResolution
