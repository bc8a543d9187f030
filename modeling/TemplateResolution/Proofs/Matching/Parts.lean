import TemplateResolution.Proofs.Matching.Arguments
import TemplateResolution.Proofs.Substitution.Building
import TemplateResolution.TypeModel.Alias

/-!
# The parts of a target

A match binds its parameters to parts of the targets.  It takes a target apart layer by
layer, moves qualifiers from one layer to the next, and for a forwarding reference refers
to what the target refers to.  A property of terms that all this keeps holds of everything
that a reading speaks of if it holds of the targets (`about_readSlots`), and then of
everything that is bound in the end, if it held of what was bound from the start
(`run_allTerms`).

Being reduced is such a property.  So reduced terms stay among themselves in whatever is
done to terms (`isReduced_everywhere`), which matters because terms are compared as they
are written.
-/

namespace TemplateResolution

/-- A match that takes a term apart keeps `P`. -/
structure Term.KeptByParts (P : Term → Prop) : Prop where
  head : ∀ {head args}, P (.apply head args) → P head
  args : ∀ {head args}, P (.apply head args) → ∀ t ∈ args, P t
  pointer : ∀ {t}, P (.pointer t) → P t
  reference : ∀ {kind t}, P (.reference kind t) → P t
  expanded : ∀ {t}, P t → P t.expanded
  unqualified : ∀ {t}, P t → P t.unqualified
  qualify : ∀ {t}, P t → ∀ quals, P (t.qualify quals)
  refer : ∀ {t}, P t → P (t.refer .lvalue)

namespace Term.KeptByParts

variable {P : Term → Prop} {t : Term}

theorem referee (hP : KeptByParts P) (ht : P t) : P t.referee := by
  cases t with
  | reference kind inner => exact hP.reference ht
  | _ => exact ht

theorem undecorated (hP : KeptByParts P) (ht : P t) : P t.undecorated :=
  hP.unqualified (hP.referee ht)

theorem withoutQuals (hP : KeptByParts P) (ht : P t) (quals : Qualifiers) :
    P (t.withoutQuals quals) :=
  hP.qualify (hP.unqualified ht) _

end Term.KeptByParts

/-- `P` holds of the target that the clue speaks of. -/
def Clue.About (P : Term → Prop) : Clue → Prop
  | .bind _ t => P t
  | .defer _ t => P t
  | .convert _ => True

/-- `P` holds of every target that the finding speaks of. -/
def Finding.About (P : Term → Prop) : Finding → Prop
  | .clue c => c.About P
  | .elements _ found => ∀ x ∈ found, P x.1 ∧ ∀ c ∈ x.2, c.About P

namespace Matching

variable {m : Matching} {P : Term → Prop}

/-! ### Reading -/

theorem about_gain {wanted given : Qualifiers} {k : Nat} {xs : List Finding}
    (h : m.gain wanted given k = some xs) : ∀ f ∈ xs, f.About P := by
  rw [gain] at h
  split at h
  · obtain rfl := Option.some.inj h
    exact fun _ hf => absurd hf List.not_mem_nil
  · split at h
    · obtain rfl := Option.some.inj h
      exact List.forall_mem_singleton.mpr trivial
    · exact absurd h (Option.some_ne_none xs).symm

theorem about_guard {c : Prop} [Decidable c] {xs : List Finding}
    (h : (if c then some ([] : List Finding) else none) = some xs) : ∀ f ∈ xs, f.About P := by
  split at h
  · obtain rfl := Option.some.inj h
    exact fun _ hf => absurd hf List.not_mem_nil
  · exact absurd h (Option.some_ne_none xs).symm

section Parts

variable (hP : Term.KeptByParts P)

include hP

theorem about_readExpansion {inner : Term} {step : Nat → Term → Option (List Finding)}
    (hstep : ∀ i t xs, P t → step i t = some xs → ∀ f ∈ xs, f.About P) {ts : List Term}
    (hts : ∀ t ∈ ts, P t) {xs : List Finding} (h : m.readExpansion inner step ts = some xs) :
    ∀ f ∈ xs, f.About P := by
  rw [readExpansion] at h
  split at h
  · obtain ⟨found, hfound, rfl⟩ := Option.map_eq_some_iff.mp h
    refine List.forall_mem_singleton.mpr fun x hx => ?_
    obtain ⟨t, ht, rfl, i, hread⟩ :=
      (exists_mem_of_forall₂ (forall₂_of_readElements hfound)).2 x hx
    have habout := hstep i _ _ (hP.expanded (hts _ ht)) hread
    exact ⟨hts _ ht, fun c hc => habout (.clue c) (List.mem_map_of_mem hc)⟩
  · exact absurd h (Option.some_ne_none xs).symm

mutual

theorem about_read : ∀ (p t : Term) (k : Nat) (xs : List Finding), P t →
    m.read p t k = some xs → ∀ f ∈ xs, f.About P
  | .param _, t, k, xs, ht, h | .offset _ _, t, k, xs, ht, h => by
    obtain rfl := Option.some.inj h
    exact List.forall_mem_singleton.mpr ht
  | .qualified quals inner, t, k, xs, ht, h => by
    rw [read] at h
    obtain ⟨ys, zs, hys, hzs, rfl⟩ := Finding.join_eq_some.mp h
    have hinner := about_read inner _ k zs (hP.withoutQuals ht quals) hzs
    exact List.forall_mem_append.mpr ⟨about_gain hys, hinner⟩
  | .placeholder _, t, k, xs, _, h | .type _, t, k, xs, _, h | .template _, t, k, xs, _, h
  | .value _ _, t, k, xs, _, h => by
    cases t <;> simp only [read, reduceCtorEq] at h
    exact about_guard h
  | .pointer p, t, k, xs, ht, h => by
    cases t <;> simp only [read, reduceCtorEq] at h
    rename_i t
    exact about_read p t k xs (hP.pointer ht) h
  | .reference kind p, t, k, xs, ht, h => by
    cases t <;> simp only [read, reduceCtorEq] at h
    rename_i kind' t
    split at h
    · exact about_read p t k xs (hP.reference ht) h
    · exact absurd h (Option.some_ne_none xs).symm
  | .expansion inner, t, k, xs, _, h => by cases t <;> simp [read] at h
  | .apply head args, t, k, xs, ht, h => by
    cases t <;> simp only [read, reduceCtorEq] at h
    rename_i head' args'
    obtain ⟨ys, zs, hys, hzs, rfl⟩ := Finding.join_eq_some.mp h
    exact List.forall_mem_append.mpr ⟨about_read head head' k ys (hP.head ht) hys,
      about_readList args args' k zs (hP.args ht) hzs⟩

theorem about_readList : ∀ (ps ts : List Term) (k : Nat) (xs : List Finding),
    (∀ t ∈ ts, P t) → m.readList ps ts k = some xs → ∀ f ∈ xs, f.About P
  | [], ts, k, xs, _, h => by
    cases ts with
    | nil =>
      obtain rfl := Option.some.inj h
      exact fun _ hf => absurd hf List.not_mem_nil
    | cons t ts => exact absurd h (Option.some_ne_none xs).symm
  | p :: ps, ts, k, xs, hts, h => by
    by_cases hexp : p.isExpansion = true
    · obtain ⟨inner, rfl⟩ := Term.exists_of_isExpansion hexp
      rw [readList] at h
      obtain ⟨ys, zs, hys, hzs, rfl⟩ := Finding.join_eq_some.mp h
      exact List.forall_mem_append.mpr
        ⟨about_readExpansion hP (fun _ u vs hu hvs => about_read inner u k vs hu hvs) hts hys,
          about_readList ps [] k zs (fun _ ht => absurd ht List.not_mem_nil) hzs⟩
    · rw [Bool.not_eq_true] at hexp
      obtain ⟨t, rest, ys, zs, rfl, hys, hzs, rfl⟩ := (readList_cons_eq_some hexp).mp h
      obtain ⟨ht, hrest⟩ := List.forall_mem_cons.mp hts
      exact List.forall_mem_append.mpr
        ⟨about_read p t k ys ht hys, about_readList ps rest k zs hrest hzs⟩

end

theorem about_readPosition {p t : Term} {k : Nat} {xs : List Finding} (ht : P t)
    (h : m.readPosition p t k = some xs) : ∀ f ∈ xs, f.About P := by
  refine forall_readPosition (fun id => hP.refer (hP.referee ht)) (fun q u ys hu hys => ?_) h
  have hu : P u := by
    rcases hu with rfl | rfl | rfl
    · exact ht
    · exact hP.referee ht
    · exact hP.undecorated ht
  exact about_read hP q u k ys hu hys

/-- **What holds of the targets holds of everything that is found in them.** -/
theorem about_readSlots {slots : List Slot} {k : Nat} {targets : List Term} {xs : List Finding}
    (htargets : ∀ t ∈ targets, P t) (h : m.readSlots slots k targets = some xs) :
    ∀ f ∈ xs, f.About P :=
  forall_readSlots P (fun _ _ _ _ ht hys => about_readPosition hP ht hys)
    (fun _ _ _ _ hts hys =>
      about_readExpansion hP (fun _ _ _ ht hzs => about_readPosition hP ht hzs) hts hys)
    slots k targets xs htargets h

end Parts

end Matching

/-! ### Following -/

/-- `P` holds of everything that is bound so far. -/
structure Deduction.AllTerms (P : Term → Prop) (d : Deduction) : Prop where
  bound : d.substitution.AllTerms P
  element : ∀ pack t, d.element = some (pack, some t) → P t

namespace Deduction

variable {m : Matching} {P : Term → Prop}

/-- Before the element of a pack is found, only the substitution binds. -/
theorem allTerms_of_element {d : Deduction} (helement : ∀ pack t, d.element ≠ some (pack, some t))
    (hd : d.substitution.AllTerms P) : d.AllTerms P :=
  ⟨hd, fun pack t h => absurd h (helement pack t)⟩

theorem followClue_allTerms {c : Clue} (hc : c.About P) {d d' : Deduction} (hd : d.AllTerms P)
    (h : d.followClue m c = some d') : d'.AllTerms P := by
  cases c with
  | convert c =>
    obtain rfl := Option.some.inj h
    exact ⟨hd.bound, hd.element⟩
  | defer pattern t =>
    obtain rfl := Option.some.inj h
    exact ⟨hd.bound, hd.element⟩
  | bind id t =>
    cases (bindArgument_eq_some.mp h).2 with
    | newElement _ =>
      refine ⟨hd.bound, fun pack u hu => ?_⟩
      obtain ⟨-, hu⟩ := Prod.mk.inj (Option.some.inj hu)
      obtain rfl := Option.some.inj hu
      exact hc
    | newSingle _ _ _ => exact ⟨hd.bound.insert id (List.forall_mem_singleton.mpr hc), hd.element⟩
    | oldElement _ _ => exact hd
    | oldSingle _ _ _ _ => exact hd

theorem followClues_allTerms {cs : List Clue} :
    ∀ {d d' : Deduction}, (∀ c ∈ cs, c.About P) → d.AllTerms P →
      d.followClues m cs = some d' → d'.AllTerms P := by
  induction cs with
  | nil =>
    intro d d' _ hd h
    obtain rfl := Option.some.inj h
    exact hd
  | cons c cs ih =>
    intro d d' hcs hd h
    obtain ⟨hc, hcs⟩ := List.forall_mem_cons.mp hcs
    obtain ⟨d₁, hd₁, h⟩ := Option.bind_eq_some_iff.mp h
    exact ih hcs (followClue_allTerms hc hd hd₁) h

variable (hexpansion : ∀ t, P t → P (.expansion t))

include hexpansion

/-- An element that was found in an expansion is one again. -/
theorem gather_allTerms {pack : ParamId} {found : List (Term × List Clue)} :
    ∀ {d d' : Deduction} {elements : List Term}, (Finding.elements pack found).About P →
      d.substitution.AllTerms P → d.gather m pack found = some (elements, d') →
      (∀ t ∈ elements, P t) ∧ d'.substitution.AllTerms P := by
  induction found with
  | nil =>
    intro d d' elements _ hd h
    obtain ⟨rfl, rfl⟩ := Prod.mk.inj (Option.some.inj h)
    exact ⟨fun _ ht => absurd ht List.not_mem_nil, hd⟩
  | cons x found ih =>
    intro d d' elements habout hd h
    obtain ⟨target, cs⟩ := x
    obtain ⟨⟨-, hcs⟩, hfound⟩ := List.forall_mem_cons.mp habout
    obtain ⟨d₁, t, rest, hd₁, helement, hrest, rfl⟩ := gather_cons_eq_some.mp h
    have hstart : { d with element := some (pack, none) }.AllTerms P :=
      allTerms_of_element (by simp) hd
    have hfollowed := followClues_allTerms hcs hstart hd₁
    have ht : P (target.expandedLike t) := by
      rw [Term.expandedLike]
      split
      · exact hexpansion t (hfollowed.element pack t helement)
      · exact hfollowed.element pack t helement
    have hbound : { d₁ with element := none }.substitution.AllTerms P := hfollowed.bound
    obtain ⟨helements, hd'⟩ := ih hfound hbound hrest
    exact ⟨List.forall_mem_cons.mpr ⟨ht, helements⟩, hd'⟩

theorem followFinding_allTerms {f : Finding} (hf : f.About P) {d d' : Deduction}
    (hd : d.AllTerms P) (h : d.followFinding m f = some d') : d'.AllTerms P := by
  cases f with
  | clue c => exact followClue_allTerms hf hd h
  | elements pack found =>
    obtain ⟨helement, elements, d₁, hgather, hbind⟩ := followFinding_elements_eq_some.mp h
    obtain ⟨helements, hd₁⟩ := gather_allTerms hexpansion hf hd.bound hgather
    have helement₁ := (gather_extends helement hgather).1
    rcases bindPack_eq_some.mp hbind with ⟨-, -, -, rfl⟩ | ⟨-, rfl⟩
    · exact allTerms_of_element (by simp [helement₁]) hd₁
    · exact allTerms_of_element (by simp [helement₁]) (hd₁.insert pack helements)

theorem follow_allTerms {found : List Finding} :
    ∀ {d d' : Deduction}, (∀ f ∈ found, f.About P) → d.AllTerms P → d.follow m found = some d' →
      d'.AllTerms P := by
  induction found with
  | nil =>
    intro d d' _ hd h
    obtain rfl := Option.some.inj h
    exact hd
  | cons f found ih =>
    intro d d' hfound hd h
    obtain ⟨hf, hfound⟩ := List.forall_mem_cons.mp hfound
    obtain ⟨d₁, hd₁, h⟩ := Option.bind_eq_some_iff.mp h
    exact ih hfound (followFinding_allTerms hexpansion hf hd hd₁) h

end Deduction

/-- **Whatever a match binds is made of parts of the targets.** -/
theorem Matching.run_allTerms {P : Term → Prop} (hP : Term.KeptByParts P)
    (hexpansion : ∀ t, P t → P (.expansion t)) {model : TypeModel} {mode : MatchMode}
    {parameters : List Parameter} {slots : List Slot} {seed σ : Substitution} {targets : List Term}
    (hseed : seed.AllTerms P) (htargets : ∀ t ∈ targets, P t)
    (h : run model mode parameters slots seed targets = some σ) : σ.AllTerms P := by
  obtain ⟨xs, d, hxs, hfollow, -, rfl⟩ := run_eq_some.mp h
  have hstart : (Deduction.start seed).AllTerms P :=
    Deduction.allTerms_of_element (fun _ _ => (Option.some_ne_none _).symm) hseed
  have hfound := about_readSlots hP htargets hxs
  exact (Deduction.follow_allTerms hexpansion hfound hstart hfollow).bound

/-! ### Reduced terms -/

theorem Term.keptByParts_isReduced : KeptByParts IsReduced where
  head := IsReduced.head
  args := IsReduced.args
  pointer h := ⟨h.normal, h.folded⟩
  reference := IsReduced.inner
  expanded := IsReduced.expanded
  unqualified := IsReduced.unqualified
  qualify := IsReduced.qualify
  refer h := h.refer .lvalue

/-- **Reduced terms stay reduced** in all that builds terms, under every substitution, and in every
match: what is bound is reduced if the targets are and what was bound from the start is, whatever
the pattern looks like. -/
theorem Term.isReduced_everywhere :
    (∀ t : Term, t.IsReduced → (∀ quals, (t.qualify quals).IsReduced) ∧
      (∀ kind, (t.refer kind).IsReduced) ∧ (∀ delta, (t.plus delta).IsReduced) ∧
      t.erase.IsReduced) ∧
    (∀ σ : Substitution, σ.AllTerms IsReduced → (∀ t : Term, (t.subst σ).IsReduced) ∧
      ∀ ts : List Term, ∀ s ∈ substList σ ts, s.IsReduced) ∧
    ∀ (model : TypeModel) (mode : MatchMode) (p : Pattern) (seed : Substitution)
      (targets : List Term) (σ : Substitution), seed.AllTerms IsReduced →
      (∀ t ∈ targets, t.IsReduced) → p.match? model mode seed targets = some σ →
      σ.AllTerms IsReduced := by
  refine ⟨fun t ht => ⟨ht.qualify, ht.refer, ht.plus, t.isReduced_erase⟩, fun σ hσ => ?_, ?_⟩
  · exact ⟨fun t => Substitution.apply_allTerms keptByBuilding_isReduced t hσ,
      fun ts => Substitution.applyList_allTerms keptByBuilding_isReduced ts hσ⟩
  · intro model mode p seed targets σ hseed htargets h
    exact Matching.run_allTerms keptByParts_isReduced (fun _ => keptByBuilding_isReduced.expansion)
      hseed htargets h

/-- A call of `f(T&&, const U*, Ts*...)`, with an empty layer of qualifiers in the pattern, binds
`T` to a reference that it builds, and `U` to what is left of a target. -/
theorem Term.isReduced_everywhere_call :
    let model := AliasTable.empty.model
    let p := Pattern.overload "f" [{ name := "T", kind := .type }, { name := "U", kind := .type },
        { name := "Ts", kind := .type, pack := true }]
      [⟨.reference .rvalue (.param 0), none⟩,
        ⟨.pointer (.qualified .const (.qualified .none (.param 1))), none⟩,
        ⟨.expansion (.pointer (.param 2)), none⟩]
    let limit := Term.offset (.value 9223372036854775807 "int") 1
    let targets : List Term := [.reference .lvalue (.type "int"),
      .pointer (.qualified .constVolatile (.type "char")),
      .expansion (.pointer (.qualified .const (.type "bool"))),
      .pointer (.apply (.template "A") [limit])]
    let σ := ((Substitution.empty.insert 0 (.single (.reference .lvalue (.type "int")))).insert 1
      (.single (.qualified .volatile (.type "char")))).insert 2
      (.pack [.expansion (.qualified .const (.type "bool")), .apply (.template "A") [limit]])
    (∀ t ∈ targets, t.IsReduced) ∧ p.match? model .call .empty targets = some σ ∧
      σ.AllTerms IsReduced ∧ (∀ s ∈ substList σ p.args, s.IsReduced) ∧
      (limit.qualify .const).IsReduced := by
  intro model p limit targets σ
  have htargets : ∀ t ∈ targets, t.IsReduced := by decide
  have hmatch : p.match? model .call .empty targets = some σ := rfl
  obtain ⟨hbuilding, hsubst, hbinds⟩ := isReduced_everywhere
  have hσ := hbinds model .call p .empty targets σ Substitution.allTerms_empty htargets hmatch
  exact ⟨htargets, hmatch, hσ, (hsubst σ hσ).2 p.args, (hbuilding limit (by decide)).1 .const⟩

end TemplateResolution
