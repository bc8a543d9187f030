import TemplateResolution.Proofs.Matching.Call
import TemplateResolution.Proofs.Matching.Parts
import TemplateResolution.Proofs.Matching.Replay

/-!
# Spelling out what was deduced

The bindings that a call has found can be written as template arguments.  A pattern whose
pack comes last takes them back in the same order (`seed?_flatten`), and then matches the
call again with the same bindings (`match?_spelledOut`).

There are two limits.  A reference `T&&` forwards lvalues only while `T` is deduced, so an
lvalue that was forwarded is not taken any more once `T` is written out
(`match?_not_spelledOut`).  And a pack that was deduced from arguments that are expansions
themselves has expansions for elements, which are no template arguments.
-/

namespace TemplateResolution

/-! ### Elements of packs -/

/-- No target that an element was found for is an expansion. -/
def Finding.Plain : Finding → Prop
  | .clue _ => True
  | .elements _ found => ∀ x ∈ found, x.1.isExpansion = false

theorem Term.keptByParts_expansions : KeptByParts fun t => t.expansions = [] where
  head h := (List.append_eq_nil_iff.mp h).1
  args h _ ht := expansions_eq_nil_of_mem (List.append_eq_nil_iff.mp h).2 ht
  pointer h := h
  reference h := h
  expanded {t} h := by rwa [expanded_eq_self (isExpansion_of_expansions_eq_nil h)]
  unqualified {t} h := by rwa [expansions_unqualified]
  qualify {t} h quals := by rwa [expansions_qualify]
  refer {t} h := by cases t <;> exact h

/-- Without expansions in the targets, none is found for an element. -/
theorem Matching.plain_of_readSlots {m : Matching} {slots : List Slot} {k : Nat}
    {targets : List Term} {xs : List Finding} (htargets : ∀ t ∈ targets, t.expansions = [])
    (h : m.readSlots slots k targets = some xs) : ∀ f ∈ xs, f.Plain := by
  intro f hf
  have habout := about_readSlots Term.keptByParts_expansions htargets h f hf
  cases f with
  | clue c => trivial
  | elements pack found => exact fun x hx => Term.isExpansion_of_expansions_eq_nil (habout x hx).1

namespace Deduction

variable {m : Matching}

/-- A clue binds no pack. -/
theorem followClue_packs {c : Clue} {d d' : Deduction} (h : d.followClue m c = some d')
    {pack : ParamId} {ts : List Term} (hts : d'.substitution.get? pack = some (.pack ts)) :
    d.substitution.get? pack = some (.pack ts) := by
  cases c with
  | convert c =>
    obtain rfl := Option.some.inj h
    exact hts
  | defer pattern t =>
    obtain rfl := Option.some.inj h
    exact hts
  | bind id t =>
    cases (bindArgument_eq_some.mp h).2 with
    | newSingle _ _ _ =>
      rw [Substitution.get?_insert] at hts
      split at hts
      · exact Binding.noConfusion (Option.some.inj hts)
      · exact hts
    | newElement _ => exact hts
    | oldElement _ _ => exact hts
    | oldSingle _ _ _ _ => exact hts

theorem followClues_packs {cs : List Clue} {pack : ParamId} {ts : List Term} :
    ∀ {d d' : Deduction}, d.followClues m cs = some d' →
      d'.substitution.get? pack = some (.pack ts) → d.substitution.get? pack = some (.pack ts) := by
  induction cs with
  | nil =>
    intro d d' h hts
    obtain rfl := Option.some.inj h
    exact hts
  | cons c cs ih =>
    intro d d' h hts
    obtain ⟨d₁, hd₁, h⟩ := Option.bind_eq_some_iff.mp h
    exact followClue_packs hd₁ (ih h hts)

theorem gather_packs {pack q : ParamId} {ts : List Term} {found : List (Term × List Clue)} :
    ∀ {d d' : Deduction} {elements : List Term}, d.gather m pack found = some (elements, d') →
      d'.substitution.get? q = some (.pack ts) → d.substitution.get? q = some (.pack ts) := by
  induction found with
  | nil =>
    intro d d' elements h hts
    obtain ⟨-, rfl⟩ := Prod.mk.inj (Option.some.inj h)
    exact hts
  | cons x found ih =>
    intro d d' elements h hts
    obtain ⟨target, cs⟩ := x
    obtain ⟨d₁, t, rest, hd₁, -, hrest, -⟩ := gather_cons_eq_some.mp h
    have hbehind := ih hrest hts
    have hbefore := followClues_packs hd₁ hbehind
    exact hbefore

/-- **The elements of a pack were found for the targets of an expansion.** -/
theorem follow_packs {found : List Finding} {pack : ParamId} {ts : List Term} :
    ∀ {d d' : Deduction}, d.follow m found = some d' →
      d'.substitution.get? pack = some (.pack ts) →
      d.substitution.get? pack = some (.pack ts) ∨
        (∀ t ∈ ts, m.parameters[pack]?.any (m.model.accepts · t.expanded) = true) ∧
          ∃ xs, .elements pack xs ∈ found ∧
            ts.map Term.isExpansion = xs.map (·.1.isExpansion) := by
  induction found with
  | nil =>
    intro d d' h hts
    obtain rfl := Option.some.inj h
    exact .inl hts
  | cons f found ih =>
    intro d d' h hts
    obtain ⟨d₁, hd₁, h⟩ := Option.bind_eq_some_iff.mp h
    rcases ih h hts with hts | ⟨haccepted, xs, hxs, hshapes⟩
    · cases f with
      | clue c => exact .inl (followClue_packs hd₁ hts)
      | elements q xs =>
        obtain ⟨-, elements, d₂, hgather, hbind⟩ := followFinding_elements_eq_some.mp hd₁
        rcases bindPack_eq_some.mp hbind with ⟨us, -, -, rfl⟩ | ⟨-, rfl⟩
        · exact .inl (gather_packs hgather hts)
        · rw [Substitution.get?_insert] at hts
          split at hts
          · rename_i heq
            subst heq
            obtain rfl := Binding.pack.inj (Option.some.inj hts)
            obtain ⟨-, hshapes, haccepted⟩ := gather_keeps hgather
            exact .inr ⟨haccepted, xs, List.mem_cons_self, hshapes⟩
          · exact .inl (gather_packs hgather hts)
    · exact .inr ⟨haccepted, xs, List.mem_cons_of_mem _ hxs, hshapes⟩

end Deduction

/-- No element of a pack is an expansion. -/
def Substitution.PlainPacks (σ : Substitution) : Prop :=
  ∀ pack ts, σ.get? pack = some (.pack ts) → ∀ t ∈ ts, t.isExpansion = false

/-! ### Template arguments from bindings -/

/-- Template arguments for `q` can give the binding. -/
def Binding.Suits (model : TypeModel) (q : Parameter) : Binding → Prop
  | .single t => model.isPack q = false ∧ model.accepts q t = true
  | .pack ts => model.isPack q = true ∧ ∀ t ∈ ts, model.accepts q t = true

namespace Substitution

theorem mem_ids_of_get? {σ : Substitution} {id : ParamId} {b : Binding} (h : σ.get? id = some b) :
    id ∈ σ.ids := by
  obtain ⟨before, behind, hbindings, -⟩ := List.lookup_eq_some_iff.mp h
  rw [ids, hbindings]
  simp

/-- The bindings that a list of terms is made of. -/
theorem exists_bindings_of_flatten {σ : Substitution} {count : Nat} {D : List Term}
    (h : σ.flatten count = some D) :
    ∃ bs : List Binding, bs.length = count ∧ D = bs.flatMap Binding.terms ∧
      ∀ id < count, σ.get? id = bs[id]? := by
  have hmapM : ∀ (ids : List ParamId) (bs : List Binding), ids.mapM σ.get? = some bs →
      List.Forall₂ (fun id b => σ.get? id = some b) ids bs := by
    intro ids
    induction ids with
    | nil =>
      intro bs h
      obtain rfl := Option.some.inj h
      exact .nil
    | cons id ids ih =>
      intro bs h
      rw [List.mapM_cons] at h
      obtain ⟨b, hb, h⟩ := Option.bind_eq_some_iff.mp h
      obtain ⟨rest, hrest, h⟩ := Option.bind_eq_some_iff.mp h
      obtain rfl := Option.some.inj h
      exact .cons hb (ih rest hrest)
  obtain ⟨bs, hbs, rfl⟩ := Option.map_eq_some_iff.mp h
  have hall := hmapM _ bs hbs
  have hlength : bs.length = count := by rw [← hall.length_eq, List.length_range]
  refine ⟨bs, hlength, rfl, fun id hid => ?_⟩
  have hget := hall.get (List.length_range ▸ hid) (hlength ▸ hid)
  rw [List.get_eq_getElem, List.getElem_range] at hget
  rw [hget, List.getElem?_eq_getElem (hlength ▸ hid)]
  rfl

end Substitution

namespace Pattern

variable {model : TypeModel}

/-- Bindings written out one after the other are bound again, except for empty packs. -/
theorem seedFrom_terms (qs : List Parameter) : ∀ (id : ParamId) (bs : List Binding)
    (seed : Substitution), List.Forall₂ (Binding.Suits model) qs bs →
    (∀ k q, qs[k]? = some q → model.isPack q = true → k + 1 = qs.length) →
    ∃ seed', seedFrom model id qs (bs.flatMap Binding.terms) seed = some seed' ∧
      seed'.conversions = seed.conversions ∧
      ∀ j, seed'.get? j =
        if id ≤ j then (bs[j - id]?.filter fun b => !b.terms.isEmpty).or (seed.get? j)
        else seed.get? j := by
  induction qs with
  | nil =>
    intro id bs seed hsuits _
    cases hsuits
    refine ⟨seed, rfl, rfl, fun j => ?_⟩
    simp
  | cons q qs ih =>
    intro id bs seed hsuits hlast
    cases hsuits with
    | @cons _ b _ bs hb hbs =>
      cases b with
      | single t =>
        obtain ⟨hpack, haccepts⟩ := hb
        obtain ⟨seed', hseed', hconversions, hget⟩ := ih (id + 1) bs (seed.insert id (.single t))
          hbs fun k p hp hk => Nat.succ.inj (hlast (k + 1) p hp hk)
        refine ⟨seed', ?_, hconversions, fun j => ?_⟩
        · rw [List.flatMap_cons, Binding.terms, List.singleton_append, seedFrom, hpack,
            if_neg Bool.false_ne_true, if_pos haccepts, hseed']
        · rw [hget, Substitution.get?_insert]
          rcases Nat.lt_trichotomy j id with hj | rfl | hj
          · rw [if_neg (Nat.not_le.mpr (Nat.lt_succ_of_lt hj)), if_neg (Nat.ne_of_lt hj),
              if_neg (Nat.not_le.mpr hj)]
          · rw [if_neg (Nat.not_succ_le_self j), if_pos rfl, if_pos (Nat.le_refl j), Nat.sub_self]
            rfl
          · have hsub : j - id = (j - (id + 1)) + 1 :=
              (Nat.sub_add_cancel (Nat.sub_pos_of_lt hj)).symm
            rw [if_pos (Nat.succ_le_of_lt hj), if_neg (Nat.ne_of_gt hj), if_pos (Nat.le_of_lt hj),
              hsub, List.getElem?_cons_succ]
      | pack ts =>
        obtain ⟨hpack, haccepts⟩ := hb
        -- the pack is the last parameter and takes all that is left
        obtain rfl : qs = [] := List.length_eq_zero_iff.mp (Nat.succ.inj (hlast 0 q rfl hpack)).symm
        cases hbs
        rw [List.flatMap_singleton, Binding.terms]
        have hget : ∀ j, ([Binding.pack ts][j - id]?.filter fun b => !b.terms.isEmpty).or
            (seed.get? j) = if j - id = 0 ∧ ts ≠ [] then some (.pack ts) else seed.get? j := by
          intro j
          cases ts <;> cases j - id <;> rfl
        cases ts with
        | nil =>
          refine ⟨seed, rfl, rfl, fun j => ?_⟩
          rw [hget]
          simp
        | cons t ts =>
          have hall : (t :: ts).all (model.accepts q) = true := List.all_eq_true.mpr haccepts
          refine ⟨seed.insert id (.pack (t :: ts)), ?_, rfl, fun j => ?_⟩
          · rw [seedFrom, hpack, if_pos rfl, if_pos hall]
          · rw [hget, Substitution.get?_insert]
            rcases Nat.lt_trichotomy j id with hj | rfl | hj
            · rw [if_neg (Nat.ne_of_lt hj), if_neg (Nat.not_le.mpr hj)]
            · simp
            · have hsub : ¬(j - id = 0 ∧ t :: ts ≠ []) :=
                fun hzero => Nat.ne_of_gt (Nat.sub_pos_of_lt hj) hzero.1
              rw [if_neg (Nat.ne_of_gt hj), if_pos (Nat.le_of_lt hj), if_neg hsub]

/-- **What was deduced can be written as template arguments.**  Only empty packs stay unbound. -/
theorem seed?_flatten {p : Pattern} {mode : MatchMode} {σ : Substitution}
    (hsuits : Matching.Suits ⟨model, mode, p.parameters, []⟩ σ)
    (hpacks : ∀ pack ts, σ.get? pack = some (.pack ts) →
      ∀ t ∈ ts, p.parameters[pack]?.any (model.accepts · t) = true)
    (hlast : ∀ id q, p.parameter? id = some q → model.isPack q = true →
      id + 1 = p.parameters.length)
    {D : List Term} (hD : σ.flatten p.parameters.length = some D) :
    ∃ seed, p.seed? model D = some seed ∧ seed.conversions = [] ∧
      ∀ id, seed.get? id = (σ.get? id).filter fun b => !b.terms.isEmpty := by
  obtain ⟨bs, hlength, rfl, hget⟩ := Substitution.exists_bindings_of_flatten hD
  have hbs : List.Forall₂ (Binding.Suits model) p.parameters bs := by
    refine List.forall₂_iff_get.mpr ⟨hlength.symm, fun i hi hi' => ?_⟩
    have hq : p.parameters[i]? = some p.parameters[i] := List.getElem?_eq_getElem hi
    have hb : σ.get? i = some bs[i] := (hget i hi).trans (List.getElem?_eq_getElem hi')
    rw [List.get_eq_getElem, List.get_eq_getElem]
    generalize p.parameters[i] = q at hq
    generalize bs[i] = b at hb
    cases b with
    | single t =>
      obtain ⟨hpack, haccepts⟩ := hsuits.singles i t hb
      rw [Matching.isPack, hq] at hpack
      rw [hq] at haccepts
      exact ⟨hpack, haccepts⟩
    | pack ts =>
      have hpack := hsuits.packs i ts hb
      rw [Matching.isPack, hq] at hpack
      refine ⟨hpack, fun t ht => ?_⟩
      have haccepts := hpacks i ts hb t ht
      rwa [hq] at haccepts
  obtain ⟨seed, hseed, hconversions, hbound⟩ := seedFrom_terms p.parameters 0 bs .empty hbs hlast
  refine ⟨seed, hseed, hconversions, fun id => ?_⟩
  rw [hbound, if_pos (Nat.zero_le id), Nat.sub_zero, Substitution.get?_empty, Option.or_none]
  by_cases hid : id < p.parameters.length
  · rw [hget id hid]
  · have hnone : p.parameters[id]? = none := List.getElem?_eq_none (Nat.not_lt.mp hid)
    rw [List.getElem?_eq_none (hlength ▸ Nat.not_lt.mp hid)]
    -- what is no parameter is not bound
    cases hb : σ.get? id with
    | none => rfl
    | some b =>
      cases b with
      | single t =>
        have haccepts := (hsuits.singles id t hb).2
        rw [hnone] at haccepts
        exact Bool.noConfusion haccepts
      | pack ts =>
        have hpack := hsuits.packs id ts hb
        rw [Matching.isPack, hnone] at hpack
        exact Bool.noConfusion hpack

end Pattern

/-! ### Forwarding -/

theorem Term.isExpansion_of_isLvalue {t : Term} (h : t.isLvalue = true) :
    t.isExpansion = false := by
  cases t with
  | expansion inner => exact Bool.noConfusion h
  | _ => rfl

/-- The argument number `i` meets a reference `T&&`, which forwards lvalues if `T` is deduced. -/
def Slot.ForwardsAt (slots : List Slot) (i : Nat) (id : ParamId) : Prop :=
  termAt slots i = some (.reference .rvalue (.param id))

/-- A parameter that is met outside all expansions accepts what it meets, and is bound to a single
term. -/
theorem Deduction.follow_bind {m : Matching} {id : ParamId} {u : Term} {found : List Finding} :
    ∀ {d d' : Deduction}, (∀ f ∈ found, f.OverPacks m) → d.element = none →
      d.follow m found = some d' → .clue (.bind id u) ∈ found →
      m.parameters[id]?.any (m.model.accepts · u) = true ∧
        ∃ t, d'.substitution.get? id = some (.single t) := by
  induction found with
  | nil => exact fun _ _ _ hmem => absurd hmem List.not_mem_nil
  | cons f found ih =>
    intro d d' hpacks hd h hmem
    obtain ⟨d₁, hd₁, hrest⟩ := Option.bind_eq_some_iff.mp h
    obtain ⟨hf, hpacks⟩ := List.forall_mem_cons.mp hpacks
    rcases List.mem_cons.mp hmem with rfl | hmem
    · obtain ⟨haccepts, hmeets⟩ := bindArgument_eq_some.mp hd₁
      have hbound : ∃ t, d₁.substitution.get? id = some (.single t) := by
        cases hmeets with
        | newElement helement =>
          exact absurd (hd.symm.trans helement) (Option.some_ne_none _).symm
        | oldElement helement _ =>
          exact absurd (hd.symm.trans helement) (Option.some_ne_none _).symm
        | newSingle _ _ _ => exact ⟨u, Substitution.get?_insert_self _ _ _⟩
        | @oldSingle t _ _ hget _ => exact ⟨t, hget⟩
      obtain ⟨t, ht⟩ := hbound
      exact ⟨haccepts, t, (follow_keeps hrest).1.bindings id _ ht⟩
    · have hone : d.follow m [f] = some d₁ := by rw [follow_singleton, hd₁]
      have helement := (follow_extends (List.forall_mem_singleton.mpr hf) hd hone).1
      exact ih hpacks helement hrest hmem

namespace Matching

variable {m : Matching} (hmode : m.mode = .call)

theorem readCall_withSeeded (ids : List ParamId) {P A : Term} (k : Nat)
    (h : A.isLvalue = true → ∀ id, P ≠ .reference .rvalue (.param id)) :
    (m.withSeeded ids).readCall P A k = m.readCall P A k := by
  cases P with
  | reference kind inner =>
    cases kind with
    | lvalue => rw [readCall, readCall, read_withSeeded]
    | rvalue =>
      rw [readCall, readCall]
      cases hA : A.isLvalue with
      | false =>
        cases m.forwarded inner <;> cases (m.withSeeded ids).forwarded inner <;>
          exact read_withSeeded ids inner A.referee k
      | true =>
        cases inner with
        | param id => exact absurd rfl (h hA id)
        | _ => rfl
  | _ => exact read_withSeeded ids _ A.undecorated k

include hmode

/-- Where nothing is forwarded, it makes no difference what is bound from the start. -/
theorem readSlots_withSeeded (ids : List ParamId) (slots : List Slot) :
    ∀ (k : Nat) (targets : List Term),
      (∀ i A id, targets[i]? = some A → A.expanded.isLvalue = true →
        ¬Slot.ForwardsAt slots i id) →
      (m.withSeeded ids).readSlots slots k targets = m.readSlots slots k targets := by
  have hposition : ∀ {P A : Term} (k : Nat),
      (A.isLvalue = true → ∀ id, P ≠ .reference .rvalue (.param id)) →
      (m.withSeeded ids).readPosition P A k = m.readPosition P A k := by
    intro P A k h
    rw [readPosition_call hmode, readPosition_call (m := m.withSeeded ids) hmode]
    exact readCall_withSeeded ids k h
  induction slots with
  | nil => intro k targets _; cases targets <;> rfl
  | cons slot rest ih =>
    intro k targets hforwards
    by_cases hexp : slot.isExpansion = true
    · obtain ⟨term, default⟩ := slot
      obtain ⟨inner, rfl⟩ := Term.exists_of_isExpansion hexp
      have helements : readElements (fun i t => (m.withSeeded ids).readPosition inner t (k + i)) 0
          targets = readElements (fun i t => m.readPosition inner t (k + i)) 0 targets :=
        readElements_congr fun i A hA => hposition _ fun hlvalue id heq =>
          hforwards i A id hA hlvalue (congrArg some heq)
      have hrest : (m.withSeeded ids).readSlots rest (k + targets.length) [] =
          m.readSlots rest (k + targets.length) [] :=
        ih _ [] fun _ A _ hA => absurd hA (Option.some_ne_none A).symm
      rw [readSlots, readSlots, hrest, readExpansion, readExpansion, helements]
      rfl
    · rw [Bool.not_eq_true] at hexp
      cases targets with
      | nil =>
        rw [readSlots_cons_nil _ hexp, readSlots_cons_nil _ hexp,
          ih k [] fun _ A _ hA => absurd hA (Option.some_ne_none A).symm]
      | cons t targets =>
        have hhead : (m.withSeeded ids).readPosition slot.term t k =
            m.readPosition slot.term t k := by
          refine hposition k fun hlvalue id heq => ?_
          rw [← Term.expanded_eq_self (Term.isExpansion_of_isLvalue hlvalue)] at hlvalue
          exact hforwards 0 t id rfl hlvalue
            ((Slot.termAt_zero hexp rest).trans (congrArg some heq))
        have hrest : ∀ i A id, targets[i]? = some A → A.expanded.isLvalue = true →
            ¬Slot.ForwardsAt rest i id :=
          fun i A id hA hlvalue hP =>
            hforwards (i + 1) A id hA hlvalue ((Slot.termAt_succ hexp rest i).trans hP)
        rw [readSlots_cons _ hexp, readSlots_cons _ hexp, hhead, ih (k + 1) targets hrest]

/-- What would be forwarded to a parameter that is bound from the start is not read. -/
theorem readSlots_withSeeded_eq_none {ids : List ParamId} {slots : List Slot} {k : Nat}
    {targets : List Term} {i : Nat} {A : Term} {id : ParamId} (hA : targets[i]? = some A)
    (hlvalue : A.isLvalue = true) (hP : Slot.ForwardsAt slots i id) (hid : id ∈ ids) :
    (m.withSeeded ids).readSlots slots k targets = none := by
  rw [Option.eq_none_iff_forall_ne_some]
  intro xs h
  obtain ⟨P, ys, hP', hat⟩ := exists_readAt slots k targets xs h i A hA
  obtain rfl := Option.some.inj (hP.symm.trans hP')
  have hread : (m.withSeeded ids).readPosition (.reference .rvalue (.param id)) A (k + i) =
      some ys := by
    cases hat with
    | slot _ hread _ _ => exact hread
    | element _ _ hread _ _ _ =>
      rwa [Term.expanded_eq_self (Term.isExpansion_of_isLvalue hlvalue)] at hread
  have hforwarded : (m.withSeeded ids).forwarded (.param id) = none := by
    rw [forwarded, if_neg]
    rw [Bool.and_eq_true, not_and, Bool.not_eq_true, Bool.not_eq_false']
    exact fun _ => List.contains_iff_mem.mpr hid
  rw [readPosition_call (m := m.withSeeded ids) hmode, readCall, hforwarded, hlvalue] at hread
  exact absurd hread (Option.some_ne_none ys).symm

section

variable {slots : List Slot} {k : Nat} {targets : List Term} {xs : List Finding}
  (h : m.readSlots slots k targets = some xs) {i : Nat} {A : Term} {id : ParamId}
  (hA : targets[i]? = some A) (hP : Slot.ForwardsAt slots i id) {d d' : Deduction}
  (hd : d.element = none) (hfollow : d.follow m xs = some d')
include h hA hP hd hfollow

/-- A parameter that something is forwarded to is bound, and not to an empty pack. -/
theorem exists_of_forwards (hlvalue : A.isLvalue = true) :
    ∃ b, d'.substitution.get? id = some b ∧ b.terms ≠ [] := by
  obtain ⟨P, ys, hP', hat⟩ := exists_readAt slots k targets xs h i A hA
  obtain rfl := Option.some.inj (hP.symm.trans hP')
  cases hat with
  | slot _ hread _ hfound =>
    rw [readPosition_call hmode, readCall, hlvalue] at hread
    cases hforwarded : m.forwarded (.param id) with
    | none =>
      rw [hforwarded] at hread
      exact absurd hread (Option.some_ne_none ys).symm
    | some id' =>
      rw [hforwarded] at hread
      obtain rfl := Option.some.inj hread
      obtain rfl := Term.param.inj (param_of_forwarded hforwarded)
      obtain ⟨-, t, ht⟩ := Deduction.follow_bind (overPacks_readSlots h) hd hfollow
        (hfound _ (List.mem_singleton_self _))
      exact ⟨_, ht, List.cons_ne_nil t []⟩
  | @element pack found j cs _ hpack _ hfound hx _ =>
    obtain rfl : pack = id := List.mem_singleton.mp (List.mem_of_find?_eq_some hpack)
    obtain ⟨ts, hts, hshapes⟩ := (Deduction.follow_keeps hfollow).2 pack found hfound
    refine ⟨_, hts, fun hnil => ?_⟩
    obtain rfl : ts = [] := hnil
    rw [List.map_eq_nil_iff.mp hshapes.symm] at hx
    exact absurd hx (Option.some_ne_none _).symm

/-- Where packs have no expansions for elements, no expansion meets a reference `T&&`. -/
theorem isExpansion_of_forwardsAt (hplain : d'.substitution.PlainPacks) :
    A.isExpansion = false := by
  obtain ⟨P, ys, hP', hat⟩ := exists_readAt slots k targets xs h i A hA
  obtain rfl := Option.some.inj (hP.symm.trans hP')
  cases hat with
  | slot _ hread _ hfound =>
    cases A with
    | expansion inner =>
      -- an expansion is no argument for `T`
      have hclue : some [Finding.clue (.bind id (.expansion inner))] = some ys := by
        rw [← hread, readPosition_call hmode, readCall]
        cases m.forwarded (.param id) <;> rfl
      obtain rfl := Option.some.inj hclue
      obtain ⟨haccepts, -⟩ := Deduction.follow_bind (overPacks_readSlots h) hd hfollow
        (hfound _ (List.mem_singleton_self _))
      obtain ⟨p, -, hp⟩ := (Option.any_eq_true _ _).mp haccepts
      exact Deduction.isExpansion_of_accepts hp
    | _ => rfl
  | @element pack found j cs _ hpack _ hfound hx _ =>
    obtain ⟨ts, hts, hshapes⟩ := (Deduction.follow_keeps hfollow).2 pack found hfound
    have hmem : A.isExpansion ∈ ts.map Term.isExpansion := by
      rw [hshapes]
      exact List.mem_map_of_mem (f := fun x => x.1.isExpansion) (List.mem_of_getElem? hx)
    obtain ⟨t, ht, heq⟩ := List.mem_map.mp hmem
    rw [← heq, hplain pack ts hts t ht]

end

end Matching

/-! ### The call again -/

/-- **What was deduced can be spelled out, unless something was forwarded.**  The bindings of a call
that matches are taken as template arguments by a pattern whose pack comes last, and with them the
call matches again with the same bindings and conversions.  Only lvalues that were forwarded are not
taken any more.

An expansion is no template argument for a pack, so none may be among the elements that were found;
where no argument holds an expansion, none is. -/
theorem Pattern.match?_spelledOut {model : TypeModel} (hrefl : ∀ n, model.sameLeaf n n = true)
    {p : Pattern} (hlast : ∀ id q, p.parameter? id = some q → model.isPack q = true →
      id + 1 = p.parameters.length)
    {targets : List Term} {σ : Substitution}
    (h : p.match? model .call .empty targets = some σ) {D : List Term}
    (hD : σ.flatten p.parameters.length = some D) :
    ((∀ t ∈ targets, t.expansions = []) → σ.PlainPacks) ∧
      (σ.PlainPacks → ∃ seed, p.seed? model D = some seed ∧
        ((∀ i A id, targets[i]? = some A → A.isLvalue = true →
            ¬Slot.ForwardsAt p.slots i id) →
          ∃ τ, p.match? model .call seed targets = some τ ∧ (∀ id, τ.get? id = σ.get? id) ∧
            τ.conversions = σ.conversions) ∧
        ((∃ i A id, targets[i]? = some A ∧ A.isLvalue = true ∧ Slot.ForwardsAt p.slots i id) →
          p.match? model .call seed targets = none)) := by
  obtain ⟨xs, d, hxs, hfollow, -, rfl⟩ := Matching.run_eq_some.mp h
  let m : Matching := { model, mode := .call, parameters := p.parameters }
  change m.readSlots p.slots 0 targets = some xs at hxs
  change (Deduction.start .empty).follow m xs = some d at hfollow
  have horigin := fun pack ts (hts : d.substitution.get? pack = some (.pack ts)) =>
    (Deduction.follow_packs hfollow hts).resolve_left fun h => absurd h (Option.some_ne_none _).symm
  refine ⟨fun htargets pack ts hts t ht => ?_, fun hplain => ?_⟩
  · obtain ⟨-, found, hfound, hshapes⟩ := horigin pack ts hts
    have hmem : t.isExpansion ∈ found.map (·.1.isExpansion) :=
      hshapes ▸ List.mem_map_of_mem ht
    obtain ⟨x, hx, heq⟩ := List.mem_map.mp hmem
    rw [← heq, Matching.plain_of_readSlots htargets hxs _ hfound x hx]
  · have hsuits : m.Suits d.substitution :=
      (Deduction.follow_extends (Matching.overPacks_readSlots hxs) rfl hfollow).2.suits
        (Matching.suits_empty m)
    have hpacks : ∀ pack ts, d.substitution.get? pack = some (.pack ts) →
        ∀ t ∈ ts, p.parameters[pack]?.any (model.accepts · t) = true := by
      intro pack ts hts t ht
      have haccepts := (horigin pack ts hts).1 t ht
      rwa [Term.expanded_eq_self (hplain pack ts hts t ht)] at haccepts
    obtain ⟨seed, hseed, hconversions, hget⟩ := seed?_flatten hsuits hpacks hlast hD
    refine ⟨seed, hseed, fun hforwards => ?_, ?_⟩
    · refine Matching.run_replays hrefl h hconversions (fun id b hb => ?_) ?_
      · rw [hget, Option.filter_eq_some_iff] at hb
        exact hb.1
      · refine Matching.readSlots_withSeeded rfl seed.ids p.slots 0 targets
          fun i A id hA hlvalue hP => ?_
        have hA' := Matching.isExpansion_of_forwardsAt rfl hxs hA hP rfl hfollow hplain
        rw [Term.expanded_eq_self hA'] at hlvalue
        exact hforwards i A id hA hlvalue hP
    · rintro ⟨i, A, id, hA, hlvalue, hP⟩
      obtain ⟨b, hb, hterms⟩ := Matching.exists_of_forwards rfl hxs hA hP rfl hfollow hlvalue
      have hseeded : id ∈ seed.ids := by
        have hbound : seed.get? id = some b := by
          rw [hget, hb]
          exact Option.filter_eq_some_iff.mpr ⟨rfl, by simpa using hterms⟩
        exact Substitution.mem_ids_of_get? hbound
      have hread : (m.withSeeded seed.ids).readSlots p.slots 0 targets = none :=
        Matching.readSlots_withSeeded_eq_none rfl hA hlvalue hP hseeded
      rw [Option.eq_none_iff_forall_ne_some]
      intro τ hτ
      obtain ⟨ys, -, hys, -⟩ := Matching.run_eq_some.mp hτ
      exact absurd (hread.symm.trans hys) (Option.some_ne_none ys).symm

/-- `f(T, U&&, Vs*...)` is called with an lvalue `int`, a `bool`, a `char*` and a `const short*`,
and again as `f<int, bool, char, const short>`. -/
theorem Pattern.match?_spelledOut_pointers :
    let model := AliasTable.empty.model
    let const : Qualifiers := ⟨true, false⟩
    let parameters : List Parameter := [{ name := "T", kind := .type },
      { name := "U", kind := .type }, { name := "Vs", kind := .type, pack := true }]
    let p := Pattern.overload "f" parameters [⟨.param 0, none⟩,
      ⟨.reference .rvalue (.param 1), none⟩, ⟨.expansion (.pointer (.param 2)), none⟩]
    let short := Term.qualified const (.type "short")
    let targets : List Term := [.reference .lvalue (.type "int"), .type "bool",
      .pointer (.type "char"), .pointer short]
    let σ := ((Substitution.empty.insert 0 (.single (.type "int"))).insert 1
      (.single (.type "bool"))).insert 2 (.pack [.type "char", short])
    let D := [.type "int", .type "bool", .type "char", short]
    (∀ n, model.sameLeaf n n = true) ∧
      (∀ id q, p.parameter? id = some q → model.isPack q = true → id + 1 = p.parameters.length) ∧
      p.match? model .call .empty targets = some σ ∧
      σ.flatten p.parameters.length = some D ∧ σ.PlainPacks ∧
      ∃ seed, p.seed? model D = some seed ∧ ∃ τ, p.match? model .call seed targets = some τ ∧
        (∀ id, τ.get? id = σ.get? id) ∧ τ.conversions = σ.conversions := by
  intro model const parameters p short targets σ D
  have hrefl : ∀ n, model.sameLeaf n n = true := AliasTable.empty.sameLeaf_refl
  have hlast : ∀ id q, p.parameter? id = some q → model.isPack q = true →
      id + 1 = p.parameters.length := by
    intro id q hq hpack
    match id with
    | 0 | 1 =>
      obtain rfl := Option.some.inj hq
      exact Bool.noConfusion hpack
    | 2 => rfl
    | id + 3 => exact absurd hq (Option.some_ne_none q).symm
  have h : p.match? model .call .empty targets = some σ := rfl
  have hD : σ.flatten p.parameters.length = some D := rfl
  obtain ⟨hplain, htakes⟩ := match?_spelledOut hrefl hlast h hD
  obtain ⟨seed, hseed, hagain, -⟩ := htakes (hplain (by decide))
  refine ⟨hrefl, hlast, h, hD, hplain (by decide), seed, hseed,
    hagain fun i A id hA hlvalue hP => ?_⟩
  -- only the second argument meets a forwarding reference, and it is no lvalue
  match i with
  | 0 => exact Term.noConfusion (Option.some.inj hP)
  | 1 =>
    obtain rfl := Option.some.inj hA
    exact Bool.noConfusion hlvalue
  | i + 2 => exact Term.noConfusion (Option.some.inj hP)

/-- Two calls that match, but not again with what was deduced spelled out: an lvalue that is
forwarded, and a pack with an expansion for its element. -/
theorem Pattern.match?_not_spelledOut :
    let model := AliasTable.empty.model
    let forwarding := Pattern.overload "f" [{ name := "T", kind := .type }]
      [⟨.reference .rvalue (.param 0), none⟩]
    let lvalue := Term.reference .lvalue (.type "int")
    let σ := Substitution.empty.insert 0 (.single lvalue)
    let list := Pattern.overload "f" [{ name := "Ts", kind := .type, pack := true }]
      [⟨.apply (.template "A") [.expansion (.param 0)], none⟩]
    let expansion := Term.expansion (.type "int")
    let target := Term.apply (.template "A") [expansion]
    let τ := Substitution.empty.insert 0 (.pack [expansion])
    (∀ n, model.sameLeaf n n = true) ∧
      ((Registry.standard.registerAll [forwarding]).isOk = true ∧ lvalue.isNormal = true ∧
        lvalue.occurrences = [] ∧ lvalue.expansions = [] ∧
        forwarding.match? model .call .empty [lvalue] = some σ ∧ σ.flatten 1 = some [lvalue] ∧
        forwarding.seed? model [lvalue] = some σ ∧
        forwarding.match? model .call σ [lvalue] = none) ∧
      (Registry.standard.registerAll [list]).isOk = true ∧ target.isNormal = true ∧
        target.occurrences = [] ∧ list.match? model .call .empty [target] = some τ ∧
        τ.flatten 1 = some [expansion] ∧ list.seed? model [expansion] = none := by
  intro model forwarding lvalue σ list expansion target τ
  exact ⟨AliasTable.empty.sameLeaf_refl, ⟨rfl, rfl, rfl, rfl, rfl, rfl, rfl, rfl⟩,
    rfl, rfl, rfl, rfl, rfl, rfl⟩

end TemplateResolution
