import TemplateResolution.Proofs.Matching.Bindings
import TemplateResolution.Proofs.Matching.Sifting

/-!
# The modes of a match

The modes of a match differ in two respects.  They take different decorations off the top of
each position, and a call may let an argument gain qualifiers.  Where no pattern and no target has
decorations at its top, the first makes no difference (`readPosition_of_isPlain`).  The second
leaves a trace: a call that recorded no conversion has read what a structural match reads
(`sifts_of_mode`), and everything after the reading is the same in all modes.
-/

namespace TemplateResolution

/-- The clue is no conversion. -/
def Clue.isKept (c : Clue) : Bool := c.conversion?.isNone

namespace Finding

/-- Clues among which there is no conversion record none. -/
theorem passes_isKept {found : List Finding} :
    passes Clue.isKept found = true ↔
      (found.flatMap clues).filterMap Clue.conversion? = [] := by
  rw [passes, ← List.all_flatMap, List.all_eq_true, List.filterMap_eq_nil_iff]
  exact forall₂_congr fun c _ => Option.isNone_iff_eq_none

end Finding

/-! ### Readings -/

namespace Matching

variable {m : Matching}

/-- The same match in another mode. -/
def inMode (m : Matching) (mode : MatchMode) : Matching := { m with mode }

/-- A structural reading is a reading in any mode, without conversions. -/
theorem sifts_of_mode (m : Matching) (mode : MatchMode) :
    Sifts Clue.isKept (m.inMode mode) (m.inMode .structural) := by
  refine ⟨rfl, rfl, fun _ _ => rfl, fun wanted given k => ?_⟩
  rw [gain_structural rfl, gain]
  split
  · rfl
  · split <;> rfl

/-- Outside calls nothing is converted. -/
theorem sifts_of_not_call (m : Matching) {mode : MatchMode} (hmode : mode ≠ .call) :
    Sifts (fun _ => true) (m.inMode mode) (m.inMode .structural) := by
  refine ⟨rfl, rfl, fun _ _ => rfl, fun wanted given k => ?_⟩
  rw [Finding.filter_passes_true, gain_structural rfl, gain]
  split
  · rfl
  · cases mode with
    | call => exact absurd rfl hmode
    | _ => rfl

theorem undecorated_of_isPlain {t : Term} (h : t.IsPlain) : t.undecorated = t := by
  cases t with
  | qualified quals inner => exact Bool.noConfusion h.unqualified
  | reference kind inner => exact Bool.noConfusion h.unreferenced
  | _ => rfl

/-- Without decorations at the top, a position is read as it stands. -/
theorem readPosition_of_isPlain {p t : Term} (hp : p.IsPlain) (ht : t.IsPlain) (k : Nat) :
    m.readPosition p t k = m.read p t k := by
  have hcall : m.readCall p t k = m.read p t k := by
    rw [readCall.eq_def]
    cases p with
    | reference kind inner => exact Bool.noConfusion hp.unreferenced
    | qualified quals inner => exact Bool.noConfusion hp.unqualified
    | _ => exact congrArg (m.read _ · k) (undecorated_of_isPlain ht)
  rw [readPosition]
  split
  · rfl
  · rw [undecorated_of_isPlain hp, undecorated_of_isPlain ht]
  · exact hcall

/-- Neither the term nor, if it is an expansion, the term inside has decorations at its top. -/
theorem isPlain_of_expanded {t u : Term} (h : t.expanded.IsPlain) (hu : u = t ∨ u = t.expanded) :
    u.IsPlain := by
  rcases hu with rfl | rfl
  · cases u with
    | expansion inner => exact ⟨rfl, rfl⟩
    | _ => exact h
  · exact h

theorem readSlots_sifts_of_isPlain {test : Clue → Bool} {m' : Matching} (h : Sifts test m m')
    (htest : ∀ p t, test (.defer p t) = true)
    {slots : List Slot} (hslots : ∀ slot ∈ slots, slot.term.expanded.IsPlain)
    {targets : List Term} (htargets : ∀ t ∈ targets, t.expanded.IsPlain) (k : Nat) :
    m'.readSlots slots k targets =
      (m.readSlots slots k targets).filter (Finding.passes test) := by
  refine readSlots_sifts h slots k targets fun slot hslot t ht u hu i => ?_
  have hplain := isPlain_of_expanded (htargets t ht) hu
  rw [readPosition_of_isPlain (hslots slot hslot) hplain,
    readPosition_of_isPlain (hslots slot hslot) hplain]
  exact read_sifts h _ u i (.inl htest)

end Matching

/-! ### Everything after the reading -/

namespace Deduction

variable (m : Matching) (mode : MatchMode)

theorem followClue_inMode (c : Clue) (d : Deduction) :
    d.followClue (m.inMode mode) c = d.followClue m c := by
  cases c <;> rfl

theorem followClues_inMode (cs : List Clue) : ∀ d : Deduction,
    d.followClues (m.inMode mode) cs = d.followClues m cs := by
  induction cs with
  | nil => exact fun _ => rfl
  | cons c cs ih =>
    intro d
    rw [followClues, followClues, followClue_inMode, funext ih]

theorem gather_inMode (pack : ParamId) (found : List (Term × List Clue)) : ∀ d : Deduction,
    d.gather (m.inMode mode) pack found = d.gather m pack found := by
  induction found with
  | nil => exact fun _ => rfl
  | cons x found ih =>
    intro d
    rw [gather, gather, followClues_inMode]
    simp only [ih]

theorem followFinding_inMode (f : Finding) (d : Deduction) :
    d.followFinding (m.inMode mode) f = d.followFinding m f := by
  cases f with
  | clue c => exact followClue_inMode m mode c d
  | elements pack found =>
    rw [followFinding, followFinding, gather_inMode]
    rfl

/-- Once the targets are read, the mode is of no account. -/
theorem follow_inMode (found : List Finding) : ∀ d : Deduction,
    d.follow (m.inMode mode) found = d.follow m found := by
  induction found with
  | nil => exact fun _ => rfl
  | cons f found ih =>
    intro d
    rw [follow, follow, followFinding_inMode, funext ih]

end Deduction

namespace Matching

variable {m : Matching} {seed σ : Substitution}

/-- Following the reading from the seed gives the substitution. -/
def LeadsTo (m : Matching) (seed : Substitution) (xs : List Finding) (σ : Substitution) : Prop :=
  ∃ d, (Deduction.start seed).follow m xs = some d ∧
    (∀ pt ∈ d.deferred, m.model.sameTerm (pt.1.subst d.substitution) pt.2 = true) ∧
    d.substitution = σ

/-- A match reads in its mode, and what it has read leads to its substitution in any mode. -/
theorem match?_inMode {model : TypeModel} {p : Pattern} {targets : List Term} (mode : MatchMode) :
    let m : Matching := ⟨model, .structural, p.parameters, seed.ids⟩
    p.match? model mode seed targets = some σ ↔
      ∃ xs, (m.inMode mode).readSlots p.slots 0 targets = some xs ∧ m.LeadsTo seed xs σ := by
  intro m
  refine run_eq_some.trans ?_
  change (∃ xs d, (m.inMode mode).readSlots p.slots 0 targets = some xs ∧
    (Deduction.start seed).follow (m.inMode mode) xs = some d ∧ _) ↔ _
  simp only [Deduction.follow_inMode, LeadsTo, exists_and_left]
  rfl

/-- No conversion is recorded exactly if none was noticed. -/
theorem LeadsTo.conversions {xs : List Finding} (h : m.LeadsTo seed xs σ)
    (hseed : seed.conversions = []) :
    Finding.passes Clue.isKept xs = true ↔ σ.conversions = [] := by
  obtain ⟨d, hfollow, -, rfl⟩ := h
  rw [Finding.passes_isKept, Deduction.follow_conversions hfollow]
  change _ ↔ seed.conversions ++ _ = []
  rw [hseed, List.nil_append]

end Matching

/-- **Where modes do not differ, they agree.**  If no slot and no target has decorations at its top,
a match that leaves aside the decorations at the top is a structural match, and so is a call that
matches without a conversion.  Decorations below the top may be there. -/
theorem Pattern.match?_modes {model : TypeModel} {p : Pattern}
    (hslots : ∀ slot ∈ p.slots, slot.term.expanded.IsPlain) {targets : List Term}
    (htargets : ∀ t ∈ targets, t.expanded.IsPlain) {seed : Substitution}
    (hseed : seed.conversions = []) :
    p.match? model .ordering seed targets = p.match? model .structural seed targets ∧
      ∀ σ, (p.match? model .call seed targets = some σ ∧ σ.conversions = []) ↔
        p.match? model .structural seed targets = some σ := by
  let m : Matching := ⟨model, .structural, p.parameters, seed.ids⟩
  have hmatch : ∀ mode σ, p.match? model mode seed targets = some σ ↔
      ∃ xs, (m.inMode mode).readSlots p.slots 0 targets = some xs ∧ m.LeadsTo seed xs σ :=
    fun mode _ => Matching.match?_inMode mode
  have hordering : MatchMode.ordering ≠ .call := MatchMode.noConfusion
  constructor
  · have hread := Matching.readSlots_sifts_of_isPlain (m.sifts_of_not_call hordering)
      (fun _ _ => rfl) hslots htargets 0
    rw [Finding.filter_passes_true] at hread
    refine Option.ext fun σ => ?_
    rw [hmatch, hmatch, hread]
  · intro σ
    have hread := Matching.readSlots_sifts_of_isPlain (m.sifts_of_mode .call) (fun _ _ => rfl)
      hslots htargets 0
    rw [hmatch, hmatch, hread]
    constructor
    · rintro ⟨⟨xs, hxs, hleads⟩, hσ⟩
      exact ⟨xs, Option.filter_eq_some_iff.mpr ⟨hxs, (hleads.conversions hseed).mpr hσ⟩, hleads⟩
    · rintro ⟨xs, hxs, hleads⟩
      obtain ⟨hxs, hkept⟩ := Option.filter_eq_some_iff.mp hxs
      exact ⟨⟨xs, hxs, hleads⟩, (hleads.conversions hseed).mp hkept⟩

/-- `f(const T*, A<U&>, Vs*...)` takes `(const int*, A<bool&>, char*, const short*)` in all modes,
and `int*` for the first argument only in a call, where it gains `const`. -/
theorem Pattern.match?_modes_pointers :
    let model := AliasTable.empty.model
    let const : Qualifiers := ⟨true, false⟩
    let parameters : List Parameter := [{ name := "T", kind := .type },
      { name := "U", kind := .type }, { name := "Vs", kind := .type, pack := true }]
    let p := Pattern.overload "f" parameters [⟨.pointer (.qualified const (.param 0)), none⟩,
      ⟨.apply (.template "A") [.reference .lvalue (.param 1)], none⟩,
      ⟨.expansion (.pointer (.param 2)), none⟩]
    let int := Term.type "int"
    let short := Term.qualified const (.type "short")
    let rest : List Term := [.apply (.template "A") [.reference .lvalue (.type "bool")],
      .pointer (.type "char"), .pointer short]
    let targets := .pointer (.qualified const int) :: rest
    let seed := Substitution.empty.insert 0 (.single int)
    let σ := (seed.insert 1 (.single (.type "bool"))).insert 2 (.pack [.type "char", short])
    (∀ slot ∈ p.slots, slot.term.expanded.IsPlain) ∧ (∀ t ∈ targets, t.expanded.IsPlain) ∧
      seed.conversions = [] ∧ p.match? model .structural seed targets = some σ ∧
      p.match? model .ordering seed targets = p.match? model .structural seed targets ∧
      p.match? model .call seed targets = some σ ∧
      p.match? model .structural seed (.pointer int :: rest) = none ∧
      p.match? model .call seed (.pointer int :: rest) = some (σ.recordConversion ⟨0, const⟩) := by
  intro model const parameters p int short rest targets seed σ
  have hslots : ∀ slot ∈ p.slots, slot.term.expanded.IsPlain := by decide
  have htargets : ∀ t ∈ targets, t.expanded.IsPlain := by decide
  have hseed : seed.conversions = [] := rfl
  have h : p.match? model .structural seed targets = some σ := rfl
  obtain ⟨hordering, hcall⟩ := match?_modes hslots htargets hseed
  exact ⟨hslots, htargets, hseed, h, hordering, ((hcall σ).mpr h).1, rfl, rfl⟩

end TemplateResolution
