import TemplateResolution.Term.Induction

/-!
# The parameters of a term

`parameters` lists every parameter a term mentions, each once and in the order
of first occurrence.  `deducibleParameters` leaves out those that occur under an
offset only: an argument `n` does not determine a parameter written `X+1`.
-/

namespace TemplateResolution.Term

mutual

/-- Every occurrence of a parameter, from left to right. -/
def occurrences : Term → List ParamId
  | param id => [id]
  | apply head args => occurrences head ++ occurrencesList args
  | pointer inner | expansion inner | qualified _ inner | reference _ inner => occurrences inner
  | offset base _ => occurrences base
  | placeholder _ | type _ | value _ _ | template _ => []

def occurrencesList : List Term → List ParamId
  | [] => []
  | t :: ts => occurrences t ++ occurrencesList ts

end

mutual

/-- The occurrences outside every offset. -/
def deducibleOccurrences : Term → List ParamId
  | param id => [id]
  | apply head args => deducibleOccurrences head ++ deducibleOccurrencesList args
  | pointer inner | expansion inner | qualified _ inner | reference _ inner =>
    deducibleOccurrences inner
  | offset _ _ | placeholder _ | type _ | value _ _ | template _ => []

def deducibleOccurrencesList : List Term → List ParamId
  | [] => []
  | t :: ts => deducibleOccurrences t ++ deducibleOccurrencesList ts

end

def parameters (t : Term) : List ParamId := t.occurrences.eraseDups

def deducibleParameters (t : Term) : List ParamId := t.deducibleOccurrences.eraseDups

theorem mem_parameters {id : ParamId} {t : Term} : id ∈ t.parameters ↔ id ∈ t.occurrences := by
  simp [parameters]

theorem mem_deducibleParameters {id : ParamId} {t : Term} :
    id ∈ t.deducibleParameters ↔ id ∈ t.deducibleOccurrences := by
  simp [deducibleParameters]

theorem mem_occurrencesList {id : ParamId} {ts : List Term} :
    id ∈ occurrencesList ts ↔ ∃ t ∈ ts, id ∈ t.occurrences := by
  induction ts with
  | nil => simp [occurrencesList]
  | cons t ts ih => simp [occurrencesList, ih]

theorem mem_deducibleOccurrencesList {id : ParamId} {ts : List Term} :
    id ∈ deducibleOccurrencesList ts ↔ ∃ t ∈ ts, id ∈ t.deducibleOccurrences := by
  induction ts with
  | nil => simp [deducibleOccurrencesList]
  | cons t ts ih => simp [deducibleOccurrencesList, ih]

/-- What is deducible occurs. -/
theorem mem_occurrences_of_deducible {id : ParamId} {t : Term}
    (h : id ∈ t.deducibleOccurrences) : id ∈ t.occurrences := by
  induction t using Term.induct with
  | param j => exact h
  | placeholder _ | type _ | value _ _ | template _ => exact absurd h List.not_mem_nil
  | apply head args ihHead ihArgs =>
    rw [deducibleOccurrences, List.mem_append, mem_deducibleOccurrencesList] at h
    rw [occurrences, List.mem_append, mem_occurrencesList]
    rcases h with h | ⟨t, ht, h⟩
    · exact .inl (ihHead h)
    · exact .inr ⟨t, ht, ihArgs t ht h⟩
  | pointer _ ih | expansion _ ih | qualified _ _ ih | reference _ _ ih => exact ih h
  | offset _ _ _ => exact absurd h List.not_mem_nil

end TemplateResolution.Term
