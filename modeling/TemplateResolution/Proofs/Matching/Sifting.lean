import TemplateResolution.Proofs.Matching.Evidence
import TemplateResolution.Proofs.Matching.Soundness

/-!
# One reading in two settings

Two settings with the same model and the same parameters read alike, except that one may admit
qualifiers that the other refuses.  A setting *sifts* another if it finds the same as that one
wherever all clues pass some test, and nothing where one does not (`Matching.Sifts`).  It is enough
that this holds for the qualifiers of one place: the reading of a term is put together from such
places, and a test that both halves pass is passed by the whole (`read_sifts`).

The test may be anything that passes what binds a parameter.  One that passes nothing deferred
shows that a pattern without offsets defers nothing (`not_deferred_of_readSlots`).
-/

namespace TemplateResolution

/-- All clues pass the test, those to the elements of packs included. -/
def Finding.passes (test : Clue → Bool) (found : List Finding) : Bool :=
  found.all fun f => f.clues.all test

namespace Finding

variable {test : Clue → Bool}

theorem passes_clues {cs : List Clue} : passes test (cs.map clue) = cs.all test := by
  rw [passes, List.all_map]
  simp [Function.comp_def, clues]

theorem passes_elements {pack : ParamId} {found : List (Term × List Clue)} :
    passes test [.elements pack found] = found.all fun x => x.2.all test := by
  rw [passes, List.all_cons, clues, List.all_flatMap, List.all_nil, Bool.and_true]

theorem filter_join (first second : Option (List Finding)) :
    (join first second).filter (passes test) =
      join (first.filter (passes test)) (second.filter (passes test)) := by
  cases first with
  | none => rfl
  | some xs =>
    cases second with
    | none => simp [join]
    | some ys =>
      have happend : passes test (xs ++ ys) = (passes test xs && passes test ys) :=
        List.all_append
      cases hxs : passes test xs <;> cases hys : passes test ys <;>
        simp [join, Option.filter_some, happend, hxs, hys]

theorem filter_bind_clues? (found : Option (List Finding)) :
    (found.filter (passes test)).bind clues? = (found.bind clues?).filter (·.all test) := by
  cases found with
  | none => rfl
  | some xs =>
    cases hcs : clues? xs with
    | none => cases hxs : passes test xs <;> simp [Option.filter_some, hxs, hcs]
    | some cs =>
      have hxs : passes test xs = cs.all test := by rw [clues?_eq_some.mp hcs, passes_clues]
      cases htest : cs.all test <;> simp [Option.filter_some, hxs, hcs, htest]

/-- Where nothing is tested, nothing is sifted out. -/
theorem filter_passes_true (found : Option (List Finding)) :
    found.filter (passes fun _ => true) = found := by
  cases found with
  | none => rfl
  | some xs => exact Option.filter_some_pos (by simp [passes])

end Finding

namespace Term

theorem offsets_expanded (t : Term) : t.expanded.offsets = t.offsets := by
  cases t <;> rfl

theorem offsets_undecorated (t : Term) : t.undecorated.offsets = t.offsets := by
  have hunqualified : ∀ u : Term, u.unqualified.offsets = u.offsets := by
    intro u
    cases u <;> rfl
  rw [undecorated, hunqualified]
  cases t <;> rfl

theorem offsetsList_eq_nil {ts : List Term} : offsetsList ts = [] ↔ ∀ t ∈ ts, t.offsets = [] := by
  induction ts with
  | nil => exact ⟨fun _ _ ht => absurd ht List.not_mem_nil, fun _ => rfl⟩
  | cons t ts ih => rw [offsetsList, List.append_eq_nil_iff, ih, List.forall_mem_cons]

end Term

/-- What is deferred passes the test, or there is no offset to be deferred. -/
def Clue.Spares (test : Clue → Bool) (offsets : List Term) : Prop :=
  (∀ p t, test (.defer p t) = true) ∨ offsets = []

namespace Clue.Spares

variable {test : Clue → Bool} {xs ys : List Term}

theorem left (h : Spares test (xs ++ ys)) : Spares test xs :=
  h.imp_right fun hnil => (List.append_eq_nil_iff.mp hnil).1

theorem right (h : Spares test (xs ++ ys)) : Spares test ys :=
  h.imp_right fun hnil => (List.append_eq_nil_iff.mp hnil).2

end Clue.Spares

namespace Matching

/-- `m'` reads what `m` reads, as long as all clues pass the test. -/
structure Sifts (test : Clue → Bool) (m m' : Matching) : Prop where
  model : m'.model = m.model
  parameters : m'.parameters = m.parameters
  bind : ∀ id t, test (.bind id t) = true
  gain : ∀ wanted given k, m'.gain wanted given k =
    (m.gain wanted given k).filter (Finding.passes test)

namespace Sifts

variable {test : Clue → Bool} {m m' : Matching}

theorem packOf (h : Sifts test m m') (inner : Term) : m'.packOf inner = m.packOf inner := by
  have hpacks : m'.isPack = m.isPack := by
    funext id
    rw [isPack, isPack, h.model, h.parameters]
  rw [Matching.packOf, Matching.packOf, hpacks]

theorem readElements {f g : Nat → Term → Option (List Finding)} {ts : List Term} :
    ∀ {n : Nat}, (∀ i t, t ∈ ts → g i t.expanded = (f i t.expanded).filter (Finding.passes test)) →
      readElements g n ts =
        (readElements f n ts).filter fun found => found.all fun x => x.2.all test := by
  induction ts with
  | nil => exact fun _ => rfl
  | cons t ts ih =>
    intro n h
    rw [Matching.readElements, Matching.readElements, h n t List.mem_cons_self,
      Finding.filter_bind_clues?, ih fun i u hu => h i u (List.mem_cons_of_mem t hu)]
    cases (f n t.expanded).bind Finding.clues? with
    | none => rfl
    | some cs =>
      cases Matching.readElements f (n + 1) ts with
      | none => cases hcs : cs.all test <;> simp [Option.filter_some, hcs]
      | some found =>
        cases hcs : cs.all test <;>
          cases hfound : found.all (fun x => x.2.all test) <;>
            simp [Option.filter_some, hcs, hfound]

theorem readExpansion (h : Sifts test m m') (inner : Term)
    (f g : Nat → Term → Option (List Finding)) {ts : List Term}
    (hfg : ∀ i t, t ∈ ts → g i t.expanded = (f i t.expanded).filter (Finding.passes test)) :
    m'.readExpansion inner g ts =
      (m.readExpansion inner f ts).filter (Finding.passes test) := by
  rw [Matching.readExpansion, Matching.readExpansion, h.packOf, readElements hfg]
  cases m.packOf inner with
  | none => rfl
  | some pack =>
    cases Matching.readElements f 0 ts with
    | none => rfl
    | some found =>
      cases hfound : found.all (fun x => x.2.all test) <;>
        simp [Option.filter_some, Finding.passes_elements, hfound]

end Sifts

theorem filter_guard {test : Clue → Bool} {c : Prop} [Decidable c] :
    (if c then some ([] : List Finding) else none).filter (Finding.passes test) =
      if c then some [] else none := by
  split <;> rfl

section

variable {test : Clue → Bool} {m m' : Matching}

mutual

/-- Where all clues pass the test, both settings read the same. -/
theorem read_sifts (h : Sifts test m m') : ∀ (p t : Term) (k : Nat), Clue.Spares test p.offsets →
    m'.read p t k = (m.read p t k).filter (Finding.passes test)
  | .param id, t, k, _ => by
    rw [read, read, Option.filter_some_pos]
    simp [Finding.passes, Finding.clues, h.bind]
  | .offset base delta, t, k, hp => by
    rw [read, read, Option.filter_some_pos]
    simp [Finding.passes, Finding.clues, hp.resolve_right (List.cons_ne_nil _ _)]
  | .placeholder _, t, k, _ | .type _, t, k, _ | .template _, t, k, _ | .value _ _, t, k, _ => by
    cases t <;> simp only [read, Option.filter_none, filter_guard, h.model]
  | .expansion _, t, k, _ => by cases t <;> simp only [read, Option.filter_none]
  | .qualified quals inner, t, k, hp => by
    rw [read, read, h.gain, read_sifts h inner _ _ hp, Finding.filter_join]
  | .pointer p, t, k, hp => by
    cases t with
    | pointer t => exact read_sifts h p t k hp
    | _ => simp only [read, Option.filter_none]
  | .reference kind p, t, k, hp => by
    cases t with
    | reference kind' t =>
      rw [read, read, read_sifts h p t k hp]
      split <;> rfl
    | _ => simp only [read, Option.filter_none]
  | .apply head args, t, k, hp => by
    cases t with
    | apply head' args' =>
      rw [read, read, read_sifts h head head' k hp.left, readList_sifts h args args' k hp.right,
        Finding.filter_join]
    | _ => simp only [read, Option.filter_none]

theorem readList_sifts (h : Sifts test m m') : ∀ (ps ts : List Term) (k : Nat),
    Clue.Spares test (Term.offsetsList ps) →
    m'.readList ps ts k = (m.readList ps ts k).filter (Finding.passes test)
  | [], ts, k, _ => by cases ts <;> rfl
  | p :: ps, ts, k, hps => by
    by_cases hexp : p.isExpansion = true
    · obtain ⟨inner, rfl⟩ := Term.exists_of_isExpansion hexp
      have hinner := h.readExpansion inner (fun _ t => m.read inner t k)
        (fun _ t => m'.read inner t k)
        fun _ t (_ : t ∈ ts) => read_sifts h inner t.expanded k hps.left
      rw [readList, readList, Finding.filter_join, readList_sifts h ps [] k hps.right, hinner]
    · rw [Bool.not_eq_true] at hexp
      cases ts with
      | nil => rw [readList_cons_nil _ hexp, readList_cons_nil _ hexp]; rfl
      | cons t ts =>
        rw [readList_cons _ hexp, readList_cons _ hexp, read_sifts h p t k hps.left,
          readList_sifts h ps ts k hps.right, Finding.filter_join]

end

/-- Positions that are read alike make argument lists that are read alike. -/
theorem readSlots_sifts (h : Sifts test m m') (slots : List Slot) : ∀ (k : Nat) (ts : List Term),
    (∀ slot ∈ slots, ∀ t ∈ ts, ∀ u, u = t ∨ u = t.expanded → ∀ i,
      m'.readPosition slot.term.expanded u i =
        (m.readPosition slot.term.expanded u i).filter (Finding.passes test)) →
    m'.readSlots slots k ts = (m.readSlots slots k ts).filter (Finding.passes test) := by
  induction slots with
  | nil => intro k ts _; cases ts <;> rfl
  | cons slot rest ih =>
    intro k ts hts
    have hrest := fun i us (hsub : us ⊆ ts) => ih i us fun s hs t ht =>
      hts s (List.mem_cons_of_mem slot hs) t (hsub ht)
    by_cases hexp : slot.isExpansion = true
    · obtain ⟨term, default⟩ := slot
      obtain ⟨inner, rfl⟩ := Term.exists_of_isExpansion hexp
      have hinner := h.readExpansion inner (fun i t => m.readPosition inner t (k + i))
        (fun i t => m'.readPosition inner t (k + i))
        fun i t ht => hts _ List.mem_cons_self t ht _ (.inr rfl) (k + i)
      rw [readSlots, readSlots, Finding.filter_join, hrest _ [] (List.nil_subset ts), hinner]
    · rw [Bool.not_eq_true] at hexp
      cases ts with
      | nil =>
        rw [readSlots_cons_nil _ hexp, readSlots_cons_nil _ hexp, hrest k [] (List.Subset.refl _)]
        split <;> rfl
      | cons t ts =>
        have hhead := hts slot List.mem_cons_self t List.mem_cons_self t (.inl rfl) k
        rw [Term.expanded_eq_self hexp] at hhead
        rw [readSlots_cons _ hexp, readSlots_cons _ hexp, hhead,
          hrest (k + 1) ts (List.subset_cons_self t ts), Finding.filter_join]

end

/-! ### What is deferred -/

/-- Outside calls, slots without an offset defer nothing. -/
theorem not_deferred_of_readSlots {m : Matching} (hmode : m.mode ≠ .call) {slots : List Slot}
    (hslots : Term.offsetsList (slots.map (·.term)) = []) {k : Nat} {ts : List Term}
    {xs : List Finding} (h : m.readSlots slots k ts = some xs) :
    ∀ f ∈ xs, ∀ p t, .defer p t ∉ f.clues := by
  let test : Clue → Bool
    | .defer _ _ => false
    | _ => true
  have hsifts : Sifts test m m := by
    refine ⟨rfl, rfl, fun _ _ => rfl, fun wanted given i => ?_⟩
    rw [gain]
    split
    · rfl
    · split <;> rfl
  have hread : m.readSlots slots k ts = (m.readSlots slots k ts).filter (Finding.passes test) := by
    refine readSlots_sifts hsifts slots k ts fun slot hslot t _ u _ i => ?_
    have hnone : slot.term.offsets = [] :=
      Term.offsetsList_eq_nil.mp hslots _ (List.mem_map_of_mem hslot)
    rw [readPosition]
    cases hm : m.mode with
    | structural =>
      refine read_sifts hsifts _ u i (.inr ?_)
      rw [Term.offsets_expanded, hnone]
    | ordering =>
      refine read_sifts hsifts _ u.undecorated i (.inr ?_)
      rw [Term.offsets_undecorated, Term.offsets_expanded, hnone]
    | call => exact absurd hm hmode
  rw [h] at hread
  have hpasses : Finding.passes test xs = true := (Option.filter_eq_some_iff.mp hread.symm).2
  intro f hf p t hdefer
  have hclue := List.all_eq_true.mp (List.all_eq_true.mp hpasses f hf) _ hdefer
  exact Bool.noConfusion hclue

end Matching

end TemplateResolution
