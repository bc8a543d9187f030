import TemplateResolution.Proofs.Matching.Bindings
import TemplateResolution.Proofs.Matching.Soundness
import TemplateResolution.Proofs.Term.Gain
import TemplateResolution.Registry.Register

/-!
# A call passes its arguments

In a call a position of the argument list is not compared as it stands.  By value, the
argument loses its reference and its qualifiers at the top; for a reference, the referee
is what counts; and an argument may gain qualifiers on the way, which is recorded.

`Matching.Passes` says what holds at one position when the parameters are replaced by
what a match has found.  It is true of every position of a call that matches
(`match?_passes`), up to the two limits that structural matches have as well.
-/

namespace TemplateResolution

/-! ### Positions -/

namespace Slot

/-- The term that meets the argument number `i`: that of its slot, or what an expansion repeats. -/
def termAt : List Slot → Nat → Option Term
  | [], _ => none
  | ⟨.expansion inner, _⟩ :: _, _ => some inner
  | slot :: _, 0 => some slot.term
  | _ :: rest, i + 1 => termAt rest i

/-- What stands for the parameters at the argument number `i`: inside an expansion, the element that
was found for it stands for the pack. -/
def viewAt (σ : Substitution) : List Slot → Nat → Substitution
  | [], _ => σ
  | ⟨.expansion inner, _⟩ :: _, i =>
    match σ.boundPack inner with
    | some (pack, elements) => (elements[i]?.map (σ.atElement pack)).getD σ
    | none => σ
  | _ :: _, 0 => σ
  | _ :: rest, i + 1 => viewAt σ rest i

section

variable {slot : Slot} (h : slot.isExpansion = false) (rest : List Slot)
include h

theorem termAt_zero : termAt (slot :: rest) 0 = some slot.term := by
  obtain ⟨term, default⟩ := slot
  cases term with
  | expansion inner => exact Bool.noConfusion h
  | _ => simp only [termAt]

theorem termAt_succ (i : Nat) : termAt (slot :: rest) (i + 1) = termAt rest i := by
  obtain ⟨term, default⟩ := slot
  cases term with
  | expansion inner => exact Bool.noConfusion h
  | _ => simp only [termAt]

theorem viewAt_zero (σ : Substitution) : viewAt σ (slot :: rest) 0 = σ := by
  obtain ⟨term, default⟩ := slot
  cases term with
  | expansion inner => exact Bool.noConfusion h
  | _ => simp only [viewAt]

theorem viewAt_succ (σ : Substitution) (i : Nat) :
    viewAt σ (slot :: rest) (i + 1) = viewAt σ rest i := by
  obtain ⟨term, default⟩ := slot
  cases term with
  | expansion inner => exact Bool.noConfusion h
  | _ => simp only [viewAt]

end

end Slot

namespace Matching

variable {m : Matching}

theorem readPosition_call (hmode : m.mode = .call) (P A : Term) (k : Nat) :
    m.readPosition P A k = m.readCall P A k := by
  rw [readPosition, hmode]

/-- The clues that were read in one of the targets of an expansion. -/
theorem getElem?_of_readElements {step : Nat → Term → Option (List Finding)} {ts : List Term} :
    ∀ {i n : Nat} {t : Term} {found : List (Term × List Clue)},
      readElements step n ts = some found → ts[i]? = some t →
      ∃ x, found[i]? = some x ∧ x.1 = t ∧ step (n + i) t.expanded = some (x.2.map .clue) := by
  induction ts with
  | nil => exact fun _ ht => absurd ht (Option.some_ne_none _).symm
  | cons u ts ih =>
    intro i n t found h ht
    rw [readElements] at h
    split at h
    · rename_i cs hcs
      obtain ⟨rest, hrest, rfl⟩ := Option.map_eq_some_iff.mp h
      cases i with
      | zero =>
        obtain rfl := Option.some.inj ht
        obtain ⟨xs, hxs, hclues⟩ := Option.bind_eq_some_iff.mp hcs
        obtain rfl := Finding.clues?_eq_some.mp hclues
        exact ⟨_, rfl, rfl, hxs⟩
      | succ i =>
        obtain ⟨x, hx, hxt, hstep⟩ := ih hrest ht
        exact ⟨x, hx, hxt, by rwa [Nat.add_right_comm] at hstep⟩
    · exact absurd h (Option.some_ne_none found).symm

/-- `ys` is the part of the reading `xs` that comes from the argument `A` at number `i`, which met
`P`: in a slot of its own, or as one of the targets of an expansion. -/
inductive ReadAt (m : Matching) (slots : List Slot) (k : Nat) (xs : List Finding) (i : Nat)
    (A P : Term) : List Finding → Prop
  | slot {ys : List Finding} (hterm : P ∈ slots.map (·.term))
    (hread : m.readPosition P A (k + i) = some ys) (hview : ∀ σ, Slot.viewAt σ slots i = σ)
    (hfound : ∀ f ∈ ys, f ∈ xs) : ReadAt m slots k xs i A P ys
  | element {pack : ParamId} {found : List (Term × List Clue)} {j : Nat} {cs : List Clue}
    (hterm : .expansion P ∈ slots.map (·.term)) (hpack : m.packOf P = some pack)
    (hread : m.readPosition P A.expanded (k + i) = some (cs.map .clue))
    (hfound : .elements pack found ∈ xs) (hx : found[j]? = some (A, cs))
    (hview : ∀ σ es, σ.boundPack P = some (pack, es) →
      Slot.viewAt σ slots i = (es[j]?.map (σ.atElement pack)).getD σ) :
    ReadAt m slots k xs i A P (cs.map .clue)

/-- What holds in the slots behind one that is no expansion. -/
theorem ReadAt.succ {slot : Slot} (hexp : slot.isExpansion = false) {rest : List Slot}
    {zs ys : List Finding} {k i : Nat} {A P : Term} (h : m.ReadAt rest (k + 1) zs i A P ys)
    (hs : List Finding) : m.ReadAt (slot :: rest) k (hs ++ zs) (i + 1) A P ys := by
  cases h with
  | slot hterm hread hview hfound =>
    rw [Nat.succ_add_eq_add_succ] at hread
    refine .slot (List.mem_cons_of_mem _ hterm) hread (fun σ => ?_)
      fun f hf => List.mem_append_right _ (hfound f hf)
    rw [Slot.viewAt_succ hexp, hview]
  | element hterm hpack hread hfound hx hview =>
    rw [Nat.succ_add_eq_add_succ] at hread
    refine .element (List.mem_cons_of_mem _ hterm) hpack hread (List.mem_append_right _ hfound) hx
      fun σ es hes => ?_
    rw [Slot.viewAt_succ hexp, hview σ es hes]

/-- Every argument was read in the position of a slot. -/
theorem exists_readAt (slots : List Slot) : ∀ (k : Nat) (targets : List Term) (xs : List Finding),
    m.readSlots slots k targets = some xs → ∀ i A, targets[i]? = some A →
      ∃ P ys, Slot.termAt slots i = some P ∧ m.ReadAt slots k xs i A P ys := by
  induction slots with
  | nil =>
    intro k targets xs h i A hA
    cases targets with
    | nil => exact absurd hA (Option.some_ne_none A).symm
    | cons t targets => exact absurd h (Option.some_ne_none xs).symm
  | cons slot rest ih =>
    intro k targets xs h i A hA
    by_cases hexp : slot.isExpansion = true
    · obtain ⟨term, default⟩ := slot
      obtain ⟨inner, rfl⟩ := Term.exists_of_isExpansion hexp
      rw [readSlots] at h
      obtain ⟨hs, zs, hhead, -, rfl⟩ := Finding.join_eq_some.mp h
      rw [readExpansion] at hhead
      split at hhead
      · rename_i pack hpack
        obtain ⟨found, hfound, rfl⟩ := Option.map_eq_some_iff.mp hhead
        obtain ⟨⟨A, cs⟩, hx, rfl, hread⟩ := getElem?_of_readElements hfound hA
        rw [Nat.zero_add] at hread
        refine ⟨inner, _, rfl, .element List.mem_cons_self hpack hread List.mem_cons_self hx ?_⟩
        intro σ es hes
        rw [Slot.viewAt, hes]
      · exact absurd hhead (Option.some_ne_none hs).symm
    · rw [Bool.not_eq_true] at hexp
      cases targets with
      | nil => exact absurd hA (Option.some_ne_none A).symm
      | cons t targets =>
        rw [readSlots_cons m hexp] at h
        obtain ⟨ys, zs, hys, hzs, rfl⟩ := Finding.join_eq_some.mp h
        cases i with
        | zero =>
          obtain rfl := Option.some.inj hA
          exact ⟨slot.term, ys, Slot.termAt_zero hexp rest, .slot List.mem_cons_self hys
            (Slot.viewAt_zero hexp rest) fun f hf => List.mem_append_left _ hf⟩
        | succ i =>
          obtain ⟨P, ws, hP, hat⟩ := ih (k + 1) targets zs hzs i A hA
          exact ⟨P, ws, (Slot.termAt_succ hexp rest i).trans hP, hat.succ hexp ys⟩

end Matching

/-! ### Terms -/

/-- Two lists that are related to a third term by term. -/
theorem forall₂_meet {α β γ : Type} {R : α → γ → Prop} {S : β → γ → Prop} {as : List α}
    {bs : List β} {cs : List γ} (h : List.Forall₂ R as cs) (h' : List.Forall₂ S bs cs) :
    List.Forall₂ (fun a b => b ∈ bs ∧ ∃ c ∈ cs, R a c ∧ S b c) as bs := by
  induction h generalizing bs with
  | nil =>
    cases h'
    exact .nil
  | @cons a c as cs hac _ ih =>
    cases h' with
    | @cons b _ bs _ hbc hrest =>
      refine .cons ⟨List.mem_cons_self, c, List.mem_cons_self, hac, hbc⟩
        ((ih hrest).imp fun a' b' ⟨hb, c', hc', hboth⟩ => ?_)
      exact ⟨List.mem_cons_of_mem _ hb, c', List.mem_cons_of_mem _ hc', hboth⟩

/-- `v` is what stands for the parameters of `p` where it is matched: `σ`, or inside an expansion
`σ` with one element in place of the pack, which no expansion in an offset of `p` mentions. -/
inductive Term.InView (σ : Substitution) (p : Term) : Bool → Substitution → Prop
  | outside : InView σ p false σ
  | inside {pack : ParamId} {ts : List Term} {e : Term} (hts : σ.get? pack = some (.pack ts))
      (havoid : p.OffsetsAvoid pack) : InView σ p true (σ.atElement pack e)

/-- What a term avoids in its offsets, a part of it avoids. -/
theorem Term.InView.part {σ v : Substitution} {p p' : Term} {inside : Bool}
    (h : p.InView σ inside v) (hsub : ∀ base ∈ p'.offsets, base ∈ p.offsets) :
    p'.InView σ inside v := by
  cases h with
  | outside => exact .outside
  | inside hts havoid => exact .inside hts fun base hbase => havoid base (hsub base hbase)

/-- A reading for the argument at position `k` has noticed a conversion. -/
def Finding.Converts (k : Nat) (xs : List Finding) : Prop :=
  ∃ f ∈ xs, ∃ added, .convert ⟨k, added⟩ ∈ f.clues

namespace Finding.Converts

variable {k : Nat} {xs ys : List Finding}

theorem left (h : Converts k xs) (ys : List Finding) : Converts k (xs ++ ys) := by
  obtain ⟨f, hf, hconvert⟩ := h
  exact ⟨f, List.mem_append_left _ hf, hconvert⟩

theorem right (h : Converts k ys) (xs : List Finding) : Converts k (xs ++ ys) := by
  obtain ⟨f, hf, hconvert⟩ := h
  exact ⟨f, List.mem_append_right _ hf, hconvert⟩

/-- A conversion on the way to an element. -/
theorem elements {pack : ParamId} {found : List (Term × List Clue)} {x : Term × List Clue}
    (hx : x ∈ found) (h : Converts k (x.2.map .clue)) :
    Converts k [.elements pack found] := by
  obtain ⟨f, hf, added, hconvert⟩ := h
  obtain ⟨c, hc, rfl⟩ := List.mem_map.mp hf
  obtain rfl := List.mem_singleton.mp hconvert
  exact ⟨_, List.mem_singleton_self _, added, List.mem_flatMap.mpr ⟨x, hx, hc⟩⟩

end Finding.Converts

namespace Matching

variable {m : Matching} {σ : Substitution}

/-- Qualifiers that the target has already, or a conversion. -/
theorem includes_or_converts {wanted given : Qualifiers} {k : Nat} {xs : List Finding}
    (h : m.gain wanted given k = some xs) :
    given.includes wanted = true ∨ Finding.Converts k xs := by
  rw [gain] at h
  split at h
  · exact .inl (by assumption)
  · split at h
    · obtain rfl := Option.some.inj h
      exact .inr ⟨_, List.mem_singleton_self _, _, List.mem_singleton_self _⟩
    · exact absurd h (Option.some_ne_none xs).symm

/-- An offset becomes what it was compared with at the end. -/
theorem same_offset_of_holds {base t : Term} {delta : Int} {inside : Bool} {v : Substitution}
    (hview : (Term.offset base delta).InView σ inside v) (hclosed : t.occurrences = [])
    (hholds : (Clue.defer (.offset base delta) t).Holds m m.model.sameLeaf σ v) :
    ((Term.offset base delta).subst v).same m.model.sameLeaf t = true := by
  cases hview with
  | outside => exact hholds
  | @inside pack ts e hts havoid =>
    -- the pack would be left standing in a target that mentions no parameter
    have hnot : pack ∉ (Term.offset base delta).occurrences := by
      intro hmem
      have hleft := Substitution.mem_occurrences_apply hts (.offset base delta)
        (havoid base List.mem_cons_self) hmem
      have heq := Term.occurrences_eq_of_same _ _ hholds
      rw [Term.subst] at heq
      rw [heq, hclosed] at hleft
      exact List.not_mem_nil hleft
    rw [Term.subst, Substitution.atElement, Substitution.apply_insert_of_notMem hnot]
    exact hholds

mutual

/-- **A pattern becomes its target, up to qualifiers that were noticed to be gained.** -/
theorem related_of_read (hkinded : m.Kinded σ) : ∀ (p t : Term) (k : Nat) (inside : Bool)
    (v : Substitution) (xs : List Finding), p.OffsetsApart m.isPack → p.InView σ inside v →
    t.IsArgument → m.read p t k = some xs → (∀ f ∈ xs, f.HoldsFrom m m.model.sameLeaf σ v inside) →
    Term.Related m.model.sameLeaf (Finding.Converts k xs) (p.subst v) t
  | .param id, t, k, inside, v, xs, _, _, _, h, hholds => by
    obtain rfl := Option.some.inj h
    obtain ⟨-, u, hu, hsame⟩ := hholds _ (List.mem_singleton_self _)
    rw [Term.subst, Substitution.apply, Substitution.atParam, hu]
    exact .of_same hsame
  | .offset base delta, t, k, inside, v, xs, _, hview, ht, h, hholds => by
    obtain rfl := Option.some.inj h
    exact .of_same (same_offset_of_holds hview ht.closed (hholds _ (List.mem_singleton_self _)))
  | .qualified quals inner, t, k, inside, v, xs, hapart, hview, ht, h, hholds => by
    rw [read] at h
    obtain ⟨ys, zs, hys, hzs, rfl⟩ := Finding.join_eq_some.mp h
    have hinner := related_of_read hkinded inner (t.withoutQuals quals) k inside v zs hapart
      (hview.part fun _ hbase => hbase) (ht.withoutQuals quals) hzs
      (Finding.holdsFrom_join hholds).2
    refine (hinner.mono fun h => h.right ys).qualify ht.normal ?_
    exact (includes_or_converts hys).imp_right fun h => h.left zs
  | .placeholder a, t, k, inside, v, xs, _, _, _, h, _ => by
    cases t <;> simp only [read, reduceCtorEq] at h
    split at h
    · rename_i hab
      exact .of_same (beq_iff_eq.mpr hab)
    · exact absurd h (Option.some_ne_none xs).symm
  | .type a, t, k, inside, v, xs, _, _, _, h, _
  | .template a, t, k, inside, v, xs, _, _, _, h, _ => by
    cases t <;> simp only [read, reduceCtorEq] at h
    split at h
    · exact .of_same (by assumption)
    · exact absurd h (Option.some_ne_none xs).symm
  | .value a s, t, k, inside, v, xs, _, _, _, h, _ => by
    cases t <;> simp only [read, reduceCtorEq] at h
    split at h
    · rename_i hab
      refine .of_same ?_
      simpa [Term.subst, Substitution.apply, Term.same] using hab
    · exact absurd h (Option.some_ne_none xs).symm
  | .pointer p, t, k, inside, v, xs, hapart, hview, ht, h, hholds => by
    cases t <;> simp only [read, reduceCtorEq] at h
    rename_i t
    exact (related_of_read hkinded p t k inside v xs hapart (hview.part fun _ hbase => hbase)
      ⟨ht.normal, ht.closed⟩ h hholds).pointer
  | .reference kind p, t, k, inside, v, xs, hapart, hview, ht, h, hholds => by
    cases t <;> simp only [read, reduceCtorEq] at h
    split at h
    · rename_i kind' t hkind
      subst hkind
      obtain ⟨href, hnormal⟩ := Term.isNormal_reference.mp ht.normal
      exact (related_of_read hkinded p t k inside v xs hapart (hview.part fun _ hbase => hbase)
        ⟨hnormal, ht.closed⟩ h hholds).refer href kind
    · exact absurd h (Option.some_ne_none xs).symm
  | .expansion inner, t, k, inside, v, xs, _, _, _, h, _ => by cases t <;> simp [read] at h
  | .apply head args, t, k, inside, v, xs, hapart, hview, ht, h, hholds => by
    cases t <;> simp only [read, reduceCtorEq] at h
    rename_i head' args'
    obtain ⟨ys, zs, hys, hzs, rfl⟩ := Finding.join_eq_some.mp h
    obtain ⟨hhead, hargs⟩ := Finding.holdsFrom_join hholds
    have hfirst := related_of_read hkinded head head' k inside v ys
      (fun inner hinner => hapart inner (List.mem_append_left _ hinner))
      (hview.part fun _ hbase => List.mem_append_left _ hbase) ht.head hys hhead
    have hrest := related_of_readList hkinded args args' k inside v zs
      (fun inner hinner => hapart inner (List.mem_append_right _ hinner))
      (hview.part fun _ hbase => List.mem_append_right _ hbase) ht.args hzs hargs
    exact (hfirst.mono fun h => h.left zs).apply (hrest.imp fun _ _ h => h.mono fun h => h.right ys)

theorem related_of_readList (hkinded : m.Kinded σ) : ∀ (ps ts : List Term) (k : Nat)
    (inside : Bool) (v : Substitution) (xs : List Finding),
    (∀ inner ∈ Term.expansionsList ps, ∀ pack ∈ m.packOf inner, inner.OffsetsAvoid pack) →
    (Term.apply (.type "") ps).InView σ inside v → (∀ t ∈ ts, t.IsArgument) →
    m.readList ps ts k = some xs → (∀ f ∈ xs, f.HoldsFrom m m.model.sameLeaf σ v inside) →
    List.Forall₂ (Term.Related m.model.sameLeaf (Finding.Converts k xs)) (Term.substList v ps) ts
  | [], ts, k, inside, v, xs, _, _, _, h, _ => by
    cases ts with
    | nil => exact .nil
    | cons t ts => exact absurd h (Option.some_ne_none xs).symm
  | p :: ps, ts, k, inside, v, xs, hapart, hview, hts, h, hholds => by
    have hapart_rest : ∀ inner ∈ Term.expansionsList ps, ∀ pack ∈ m.packOf inner,
        inner.OffsetsAvoid pack :=
      fun inner hinner => hapart inner (List.mem_append_right _ hinner)
    have hview_rest : (Term.apply (.type "") ps).InView σ inside v :=
      hview.part fun _ hbase => List.mem_append_right _ (List.mem_append_right _ hbase)
    by_cases hexp : p.isExpansion = true
    · obtain ⟨inner, rfl⟩ := Term.exists_of_isExpansion hexp
      obtain ⟨pack, found, ys, hpack, hread, hys, rfl⟩ := readList_expansion_eq_some.mp h
      obtain ⟨⟨rfl, es, hes, helements⟩, hrest⟩ := List.forall_mem_cons.mp hholds
      cases hview
      have htail := related_of_readList hkinded ps [] k false σ ys hapart_rest hview_rest
        (fun _ ht => absurd ht List.not_mem_nil) hys hrest
      have hblock : List.Forall₂ (Term.Related m.model.sameLeaf
          (Finding.Converts k (.elements pack found :: ys)))
          (es.map fun e => e.expandedLike (inner.subst (σ.atElement pack e))) ts := by
        rw [List.forall₂_map_left_iff]
        refine (forall₂_meet helements hread).imp
          fun e t ⟨ht, x, hx, hholdsAt, hfound, hinner⟩ => ?_
        have helement := related_of_read hkinded inner t.expanded k true (σ.atElement pack e) _
          (fun nested hnested =>
            hapart nested (List.mem_cons_of_mem _ (List.mem_append_left _ hnested)))
          (.inside hes (hapart inner List.mem_cons_self pack hpack)) (hts t ht).expanded hinner
          hholdsAt.holdsFrom
        exact (helement.mono fun h => (h.elements hx).left ys).expandedLike
          (hfound ▸ hholdsAt.shape)
      rw [Term.substList, Substitution.applyList,
        Deduction.boundPack_of_packOf hkinded hpack hes, ← List.append_nil ts]
      exact List.rel_append hblock (htail.imp fun _ _ h => h.mono fun h => h.right [_])
    · rw [Bool.not_eq_true] at hexp
      obtain ⟨t, rest, ys, zs, rfl, hys, hzs, rfl⟩ := (readList_cons_eq_some hexp).mp h
      obtain ⟨hhead, htail⟩ := Finding.holdsFrom_join hholds
      have hfirst := related_of_read hkinded p t k inside v ys
        (fun inner hinner => hapart inner (List.mem_append_left _ hinner))
        (hview.part fun _ hbase => List.mem_append_right _ (List.mem_append_left _ hbase))
        (hts t List.mem_cons_self) hys hhead
      have hlater := related_of_readList hkinded ps rest k inside v zs hapart_rest hview_rest
        (fun u hu => hts u (List.mem_cons_of_mem _ hu)) hzs htail
      rw [Term.substList, Substitution.applyList_cons hexp]
      exact .cons (hfirst.mono fun h => h.left zs)
        (hlater.imp fun _ _ h => h.mono fun h => h.right ys)

end

/-! ### Positions of a call -/

/-- The argument `A` is passed to `P`, where `v` tells what the parameters stand for.  Unless
`converted` holds, no qualifiers are gained.

By value, reference and qualifiers at the top are left aside.  An lvalue reference takes lvalues,
and if its referee is `const` everything.  An rvalue reference takes what is no lvalue, and if it is
a forwarding reference it becomes the lvalue that it takes. -/
def Passes (m : Matching) (converted : Prop) (v : Substitution) (P A : Term) : Prop :=
  match P with
  | .reference .lvalue inner =>
    (A.isLvalue = true ∨ inner.quals.isConst = true) ∧
      Term.Related m.model.sameLeaf converted (P.subst v).referee A.referee
  | .reference .rvalue inner =>
    ((m.forwarded inner).isSome = true ∧ A.isLvalue = true ∧
      m.model.sameTerm (P.subst v) A = true) ∨
    (A.isLvalue = false ∧ Term.Related m.model.sameLeaf converted (P.subst v).referee A.referee)
  | P => Term.Related m.model.sameLeaf converted (P.subst v).unqualified A.undecorated

theorem Passes.mono {converted converted' : Prop} {v : Substitution} {P A : Term}
    (h : m.Passes converted v P A) (himp : converted → converted') :
    m.Passes converted' v P A := by
  rw [Passes.eq_def] at h ⊢
  split at h
  · exact ⟨h.1, h.2.mono himp⟩
  · exact h.imp_right fun h => ⟨h.1, h.2.mono himp⟩
  · exact Term.Related.mono h himp

variable {v : Substitution} {inside : Bool} {k : Nat} {xs : List Finding}

/-- A term read in a referee is what its own reference refers to. -/
theorem related_referee (hkinded : m.Kinded σ) {inner A : Term} (kind : RefKind)
    (hapart : inner.OffsetsApart m.isPack) (hview : inner.InView σ inside v) (hA : A.IsArgument)
    (h : m.read inner A.referee k = some xs)
    (hholds : ∀ f ∈ xs, f.HoldsFrom m m.model.sameLeaf σ v inside) :
    Term.Related m.model.sameLeaf (Finding.Converts k xs)
      ((Term.reference kind inner).subst v).referee A.referee := by
  have hinner := related_of_read hkinded inner A.referee k inside v xs hapart hview hA.referee h
    hholds
  have hplain :=
    Term.isReference_eq_false_of_gains hinner.gains (Term.isReference_referee hA.normal)
  change Term.Related _ _ ((inner.subst v).refer kind).referee A.referee
  rwa [Term.referee_refer hplain]

theorem param_of_forwarded {inner : Term} {id : ParamId} (h : m.forwarded inner = some id) :
    inner = .param id := by
  cases inner with
  | param j =>
    rw [forwarded] at h
    split at h
    · rw [Option.some.inj h]
    · exact absurd h (Option.some_ne_none id).symm
  | _ => exact absurd h (Option.some_ne_none id).symm

/-- What a forwarding reference binds collapses with it to the lvalue that it took. -/
theorem same_forwarded {A u : Term} (hnormal : A.isNormal = true) (hA : A.isLvalue = true)
    {leaf : String → String → Bool} (h : u.same leaf (A.referee.refer .lvalue) = true) :
    (u.refer .rvalue).same leaf A = true := by
  cases A with
  | reference kind a =>
    cases kind with
    | lvalue =>
      have hrefer : a.refer .lvalue = .reference .lvalue a := by
        have ha := (Term.isNormal_reference.mp hnormal).1
        cases a with
        | reference k a => exact Bool.noConfusion ha
        | _ => rfl
      change u.same leaf (a.refer .lvalue) = true at h
      rw [hrefer] at h
      cases u with
      | reference k u =>
        obtain ⟨hk, hu⟩ := (Bool.and_eq_true _ _).mp h
        obtain rfl := beq_iff_eq.mp hk
        exact h
      | _ => exact Bool.noConfusion h
    | rvalue => exact Bool.noConfusion hA
  | _ => exact Bool.noConfusion hA

theorem passes_of_readCall (hkinded : m.Kinded σ) {P A : Term} (hapart : P.OffsetsApart m.isPack)
    (hview : P.InView σ inside v) (hA : A.IsArgument) (h : m.readCall P A k = some xs)
    (hholds : ∀ f ∈ xs, f.HoldsFrom m m.model.sameLeaf σ v inside) :
    m.Passes (Finding.Converts k xs) v P A := by
  rw [readCall.eq_def] at h
  split at h
  · rename_i inner
    have hpart : inner.InView σ inside v := hview.part fun _ hbase => hbase
    split at h
    · rename_i id hforwarded hlvalue
      obtain rfl := Option.some.inj h
      obtain ⟨-, u, hu, hsame⟩ := hholds _ (List.mem_singleton_self _)
      refine .inl ⟨by rw [hforwarded]; rfl, hlvalue, ?_⟩
      rw [param_of_forwarded hforwarded]
      change ((v.atParam id).refer .rvalue).same m.model.sameLeaf A = true
      rw [Substitution.atParam, hu]
      exact same_forwarded hA.normal hlvalue hsame
    · exact absurd h (Option.some_ne_none xs).symm
    · rename_i hlvalue
      exact .inr ⟨hlvalue, related_referee hkinded .rvalue hapart hpart hA h hholds⟩
  · rename_i inner
    have hpart : inner.InView σ inside v := hview.part fun _ hbase => hbase
    split at h
    · rename_i hguard
      refine ⟨?_, related_referee hkinded .lvalue hapart hpart hA h hholds⟩
      exact (Bool.or_eq_true _ _).mp hguard
    · exact absurd h (Option.some_ne_none xs).symm
  · rename_i hnotRvalue hnotLvalue
    have hA' := hA.referee.unqualified
    have hplain := Term.isQualified_unqualified hA.referee.normal
    have hmain : Term.Related m.model.sameLeaf (Finding.Converts k xs)
        (P.subst v).unqualified A.undecorated := by
      cases P with
      | qualified quals inner =>
        have hinner := related_of_read hkinded inner A.undecorated k inside v xs hapart
          (hview.part fun _ hbase => hbase) hA' h hholds
        change Term.Related _ _ ((inner.subst v).qualify quals).unqualified _
        rw [Term.unqualified_qualify]
        exact hinner.unqualified hplain
      | _ => exact (related_of_read hkinded _ A.undecorated k inside v xs hapart hview hA' h
          hholds).unqualified hplain
    rw [Passes.eq_def]
    split
    · exact absurd rfl (hnotLvalue _)
    · exact absurd rfl (hnotRvalue _)
    · exact hmain

/-- **Every position of a reading in a call passes its argument.** -/
theorem passes_of_readSlots (hmode : m.mode = .call) (hkinded : m.Kinded σ) {slots : List Slot}
    (hapart : ∀ slot ∈ slots, slot.term.OffsetsApart m.isPack) {targets : List Term}
    (h : m.readSlots slots k targets = some xs) (hholds : ∀ f ∈ xs, f.Holds m m.model.sameLeaf σ)
    {i : Nat} {A : Term} (hA : targets[i]? = some A) (hargument : A.IsArgument)
    (hplain : A.isExpansion = false) :
    ∃ P, Slot.termAt slots i = some P ∧
      m.Passes (Finding.Converts (k + i) xs) (Slot.viewAt σ slots i) P A := by
  obtain ⟨P, ys, hP, hat⟩ := exists_readAt slots k targets xs h i A hA
  refine ⟨P, hP, ?_⟩
  cases hat with
  | slot hterm hread hview hfound =>
    obtain ⟨slot, hslot, rfl⟩ := List.mem_map.mp hterm
    rw [readPosition_call hmode] at hread
    rw [hview]
    have hpasses := passes_of_readCall hkinded (hapart slot hslot) .outside hargument hread
      fun f hf => (hholds f (hfound f hf)).holdsFrom
    exact hpasses.mono fun ⟨f, hf, hconverts⟩ => ⟨f, hfound f hf, hconverts⟩
  | @element pack found j cs hterm hpack hread hfound hx hview =>
    obtain ⟨slot, hslot, heq⟩ := List.mem_map.mp hterm
    have hexpansion := hapart slot hslot
    rw [heq] at hexpansion
    rw [readPosition_call hmode, Term.expanded_eq_self hplain] at hread
    obtain ⟨es, hes, helements⟩ := hholds _ hfound
    obtain ⟨hj, hx⟩ := List.getElem?_eq_some_iff.mp hx
    have hj' : j < es.length := helements.length_eq ▸ hj
    have helement := helements.get hj' hj
    rw [List.get_eq_getElem, List.get_eq_getElem, hx] at helement
    have hat : Slot.viewAt σ slots i = σ.atElement pack es[j] := by
      rw [hview σ es (Deduction.boundPack_of_packOf hkinded hpack hes),
        List.getElem?_eq_getElem hj']
      rfl
    rw [hat]
    have hpasses := passes_of_readCall hkinded
      (fun nested hnested => hexpansion nested (List.mem_cons_of_mem _ hnested))
      (.inside hes (hexpansion P List.mem_cons_self pack hpack)) hargument hread
      helement.holdsFrom
    refine hpasses.mono fun h => ?_
    have hmem : (A, cs) ∈ found := hx ▸ List.getElem_mem hj
    obtain ⟨f, hf, hconverts⟩ := h.elements hmem
    obtain rfl := List.mem_singleton.mp hf
    exact ⟨_, hfound, hconverts⟩

end Matching

/-! ### Calls that match -/

theorem Finding.Converts.hasConversionAt {m : Matching} {xs : List Finding} {d d' : Deduction}
    (h : d.follow m xs = some d') {k : Nat} (hconverts : Finding.Converts k xs) :
    d'.substitution.hasConversionAt k = true := by
  obtain ⟨f, hf, added, hconvert⟩ := hconverts
  exact List.any_eq_true.mpr ⟨_, Deduction.follow_converts h hf hconvert,
    decide_eq_true rfl⟩

/-- **A call that matches passes its arguments.**  Every argument meets a term of the pattern, which
under the substitution found becomes what the argument is passed as; and unless a conversion is
recorded at its position, it gains no qualifiers. -/
theorem Pattern.match?_passes {model : TypeModel} (hrefl : ∀ n, model.sameLeaf n n = true)
    (htrans : ∀ k l n, model.sameLeaf k l = true → model.sameLeaf l n = true →
      model.sameLeaf k n = true)
    {p : Pattern} (hapart : ∀ t ∈ p.args, t.OffsetsApart (p.isPack model)) {targets : List Term}
    (hnormal : ∀ t ∈ targets, t.isNormal = true) (hclosed : ∀ t ∈ targets, t.occurrences = [])
    (hplain : ∀ t ∈ targets, t.isExpansion = false) {σ : Substitution}
    (h : p.match? model .call .empty targets = some σ) :
    ∀ i A, targets[i]? = some A → ∃ P, Slot.termAt p.slots i = some P ∧
      Matching.Passes ⟨model, .call, p.parameters, []⟩ (σ.hasConversionAt i = true)
        (Slot.viewAt σ p.slots i) P A := by
  intro i A hA
  obtain ⟨xs, d, hxs, hfollow, rfl, hholds, hsuits, -⟩ := Matching.run_sound hrefl htrans h
  have hslots : ∀ slot ∈ p.slots, slot.term.OffsetsApart (p.isPack model) :=
    fun slot hslot => hapart slot.term (List.mem_map_of_mem hslot)
  have hmem := List.mem_of_getElem? hA
  obtain ⟨P, hP, hpasses⟩ := Matching.passes_of_readSlots rfl hsuits.packs hslots hxs hholds hA
    ⟨hnormal A hmem, hclosed A hmem⟩ (hplain A hmem)
  rw [Nat.zero_add] at hpasses
  exact ⟨P, hP, hpasses.mono fun hconverts => hconverts.hasConversionAt hfollow⟩

/-- `f(T&&, const U*, const Vs&...)` is called with an lvalue `int`, a `char*`, a `long` and an
lvalue `short`. -/
theorem Pattern.match?_passes_references :
    let model := AliasTable.empty.model
    let const : Qualifiers := ⟨true, false⟩
    let parameters : List Parameter := [{ name := "T", kind := .type },
      { name := "U", kind := .type }, { name := "Vs", kind := .type, pack := true }]
    let m : Matching := { model, mode := .call, parameters }
    let forwarding := Term.reference .rvalue (.param 0)
    let element := Term.reference .lvalue (.qualified const (.param 2))
    let p := Pattern.overload "f" parameters [⟨forwarding, none⟩,
      ⟨.pointer (.qualified const (.param 1)), none⟩, ⟨.expansion element, none⟩]
    let int := Term.reference .lvalue (.type "int")
    let short := Term.reference .lvalue (.type "short")
    let targets : List Term := [int, .pointer (.type "char"), .type "long", short]
    let σ : Substitution :=
      { bindings := [(0, .single int), (1, .single (.type "char")),
          (2, .pack [.type "long", .type "short"])]
        conversions := [⟨1, const⟩, ⟨2, const⟩, ⟨3, const⟩] }
    (∀ n, model.sameLeaf n n = true) ∧
      (∀ k l n, model.sameLeaf k l = true → model.sameLeaf l n = true →
        model.sameLeaf k n = true) ∧
      (∀ t ∈ p.args, t.OffsetsApart (p.isPack model)) ∧ (∀ t ∈ targets, t.isNormal = true) ∧
      (∀ t ∈ targets, t.occurrences = []) ∧ (∀ t ∈ targets, t.isExpansion = false) ∧
      p.match? model .call .empty targets = some σ ∧
      m.Passes (σ.hasConversionAt 0 = true) σ forwarding int ∧ σ.hasConversionAt 0 = false ∧
      m.Passes (σ.hasConversionAt 3 = true) (σ.atElement 2 (.type "short")) element short := by
  intro model const parameters m forwarding element p int short targets σ
  have hrefl : ∀ n, model.sameLeaf n n = true := AliasTable.empty.sameLeaf_refl
  have htrans : ∀ k l n, model.sameLeaf k l = true → model.sameLeaf l n = true →
      model.sameLeaf k n = true := fun _ _ _ => AliasTable.empty.sameLeaf_trans
  have hapart : ∀ t ∈ p.args, t.OffsetsApart (p.isPack model) := by decide
  have hnormal : ∀ t ∈ targets, t.isNormal = true := by decide
  have hclosed : ∀ t ∈ targets, t.occurrences = [] := by decide
  have hplain : ∀ t ∈ targets, t.isExpansion = false := by decide
  have h : p.match? model .call .empty targets = some σ := rfl
  obtain ⟨P, hP, hfirst⟩ := match?_passes hrefl htrans hapart hnormal hclosed hplain h 0 int rfl
  obtain ⟨Q, hQ, hlast⟩ := match?_passes hrefl htrans hapart hnormal hclosed hplain h 3 short rfl
  obtain rfl := Option.some.inj hP
  obtain rfl := Option.some.inj hQ
  exact ⟨hrefl, htrans, hapart, hnormal, hclosed, hplain, h, hfirst, rfl, hlast⟩

/-- Two calls that match without passing their arguments, for the same reasons as with structural
matches: sameness of names that is not transitive, and an offset inside an expansion that holds an
expansion over the same pack. -/
theorem Pattern.match?_not_passes :
    let parameters : List Parameter := [{ name := "Ts", kind := .type, pack := true }]
    let aliased := AliasTable.empty.declare "X" "Y"
    let lower (name : String) := name.toList.map Char.toLower
    let caseless : TypeModel :=
      { aliased.model with sameLeaf := fun a b => aliased.sameLeaf a b || lower a == lower b }
    let pairs := Term.apply (.template "Q")
      [.expansion (.apply (.template "R") [.param 0, .param 0])]
    let repeated := Pattern.overload "f" parameters
      [⟨.apply (.template "P") [.expansion (.param 0)], none⟩, ⟨pairs, none⟩]
    let pairsTarget := Term.apply (.template "Q") [.apply (.template "R") [.type "X", .type "Y"]]
    let repeatedTargets := [Term.apply (.template "P") [.type "x"], pairsTarget]
    let x := Substitution.empty.insert 0 (.pack [.type "x"])
    let standard := AliasTable.empty.model
    let element := Term.apply (.template "P")
      [.param 0, .offset (.apply (.template "F") [.expansion (.param 0)]) 1]
    let nested := Pattern.overload "f" parameters [⟨.expansion element, none⟩]
    let nestedTarget := Term.apply (.template "P")
      [.type "int", .offset (.apply (.template "F") [.type "int"]) 1]
    let int := Substitution.empty.insert 0 (.pack [.type "int"])
    ((∀ n, caseless.sameLeaf n n = true) ∧
      ((Registry.empty caseless).registerAll [repeated]).isOk = true ∧
      (∀ t ∈ repeated.args, t.isNormal = true) ∧ (∀ t ∈ repeatedTargets, t.isNormal = true) ∧
      (∀ t ∈ repeatedTargets, t.occurrences = []) ∧
      repeated.match? caseless .call .empty repeatedTargets = some x ∧
      Slot.termAt repeated.slots 1 = some pairs ∧
      ¬ Matching.Passes { model := caseless, mode := .call, parameters }
        (x.hasConversionAt 1 = true) (Slot.viewAt x repeated.slots 1) pairs pairsTarget) ∧
    (∀ n, standard.sameLeaf n n = true) ∧
      ((Registry.empty standard).registerAll [nested]).isOk = true ∧
      (∀ t ∈ nested.args, t.isNormal = true) ∧ nestedTarget.isNormal = true ∧
      nestedTarget.occurrences = [] ∧
      nested.match? standard .call .empty [nestedTarget] = some int ∧
      Slot.termAt nested.slots 0 = some element ∧
      ¬ Matching.Passes { model := standard, mode := .call, parameters }
        (int.hasConversionAt 0 = true) (Slot.viewAt int nested.slots 0) element nestedTarget := by
  intro parameters aliased lower caseless pairs repeated pairsTarget repeatedTargets x standard
    element nested nestedTarget int
  have hcaseless : ∀ n, caseless.sameLeaf n n = true := by
    intro n
    change (aliased.sameLeaf n n || lower n == lower n) = true
    rw [aliased.sameLeaf_refl, Bool.true_or]
  refine ⟨⟨hcaseless, rfl, by decide, by decide, by decide, rfl, rfl, fun h => ?_⟩,
    AliasTable.empty.sameLeaf_refl, rfl, by decide, rfl, rfl, rfl, rfl, fun h => ?_⟩
  · exact absurd (Term.Related.gains h) (by decide)
  · exact absurd (Term.Related.gains h) (by decide)

end TemplateResolution
