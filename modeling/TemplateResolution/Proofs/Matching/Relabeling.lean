import TemplateResolution.Proofs.Matching.Arguments
import TemplateResolution.Proofs.Matching.Sifting
import TemplateResolution.Proofs.Term.Relabeling

/-!
# Matching with renamed parameters

Of a parameter, a match looks at what arguments it accepts and whether it is a pack
(`Parameter.traits`).  So a pattern with its parameters in another order reads in the
same targets the same things about them (`readList_relabel`), follows them in the same
way (`follow_relabel`), and a match of it ends in the relabelled substitution or in the
same failure (`run_relabel`, `run_relabel_slots`).

Parameters may stand in the targets as well.  They are names like any other there, and
may be given numbers of their own, `τ` where the pattern has `ρ`.  The two meet only at
the end of a match: a term that was deferred may keep parameters of the pattern, and is
then compared with a target (`finish_relabel`).
-/

namespace TemplateResolution

/-- What a match regards in a parameter. -/
def Parameter.traits (model : TypeModel) (p : Parameter) : Bool × ParamKind × Option String :=
  (model.isPack p, model.argumentKind p, p.valueType)

theorem TypeModel.accepts_of_traits {model : TypeModel} {p q : Parameter}
    (h : p.traits model = q.traits model) (t : Term) : model.accepts p t = model.accepts q t := by
  obtain ⟨-, hkind, htype⟩ : model.isPack p = model.isPack q ∧
      model.argumentKind p = model.argumentKind q ∧ p.valueType = q.valueType := by
    simpa [Parameter.traits] using h
  unfold accepts
  rw [hkind]
  cases model.argumentKind q with
  | type => rfl
  | value => cases t <;> simp only [htype]
  | nested => rfl

def Clue.relabel (ρ τ : Equiv.Perm ParamId) : Clue → Clue
  | .bind id t => .bind (ρ id) (t.relabel τ)
  | .defer pattern t => .defer (pattern.relabel ρ) (t.relabel τ)
  | .convert c => .convert c

/-- What is found for one target of an expansion. -/
def Finding.relabelElement (ρ τ : Equiv.Perm ParamId) (x : Term × List Clue) : Term × List Clue :=
  (x.1.relabel τ, x.2.map (Clue.relabel ρ τ))

def Finding.relabel (ρ τ : Equiv.Perm ParamId) : Finding → Finding
  | .clue c => .clue (c.relabel ρ τ)
  | .elements pack found => .elements (ρ pack) (found.map (relabelElement ρ τ))

def Deduction.relabel (ρ τ : Equiv.Perm ParamId) (d : Deduction) : Deduction where
  substitution := d.substitution.relabel ρ τ
  deferred := d.deferred.map fun (pattern, target) => (pattern.relabel ρ, target.relabel τ)
  element := d.element.map fun (pack, found) => (ρ pack, found.map (Term.relabel τ))

variable {ρ τ : Equiv.Perm ParamId}

theorem any_of_traits {model : TypeModel} {f : Parameter → Bool}
    (hf : ∀ p q, p.traits model = q.traits model → f p = f q) {x y : Option Parameter}
    (h : x.map (Parameter.traits model) = y.map (Parameter.traits model)) : x.any f = y.any f := by
  cases x with
  | none =>
    cases y with
    | none => rfl
    | some q => exact absurd h.symm (Option.some_ne_none _)
  | some p =>
    cases y with
    | none => exact absurd h (Option.some_ne_none _)
    | some q => exact hf p q (Option.some.inj h)

theorem TypeModel.sameTerm_relabel (model : TypeModel) (t u : Term) :
    model.sameTerm (t.relabel ρ) (u.relabel ρ) = model.sameTerm t u :=
  Term.same_relabel model.sameLeaf t u

theorem TypeModel.accepts_relabel (model : TypeModel) (p : Parameter) (t : Term) :
    model.accepts p (t.relabel ρ) = model.accepts p t := by
  unfold accepts
  cases model.argumentKind p with
  | type => exact t.isTypeLike_relabel
  | value => cases t <;> rfl
  | nested => cases t <;> rfl

namespace Finding

theorem clues?_relabel (xs : List Finding) :
    clues? (xs.map (relabel ρ τ)) = (clues? xs).map (List.map (Clue.relabel ρ τ)) := by
  induction xs with
  | nil => rfl
  | cons f xs ih =>
    cases f with
    | clue c =>
      rw [List.map_cons, relabel, clues?, clues?, ih, Option.map_map, Option.map_map]
      rfl
    | elements pack found => rfl

theorem join_relabel (first second : Option (List Finding)) :
    join (first.map (List.map (relabel ρ τ))) (second.map (List.map (relabel ρ τ))) =
      (join first second).map (List.map (relabel ρ τ)) := by
  cases first <;> cases second <;> simp [join]

theorem guard_relabel {c : Prop} [Decidable c] :
    (if c then some ([] : List Finding) else none).map (List.map (relabel ρ τ)) =
      if c then some [] else none := by
  split <;> rfl

end Finding

namespace Matching

/-- Two settings of matches that differ in the numbers of the parameters. -/
structure Relabels (ρ : Equiv.Perm ParamId) (m m' : Matching) : Prop where
  model : m'.model = m.model
  mode : m'.mode = m.mode
  traits : ∀ id, (m'.parameters[ρ id]?).map (Parameter.traits m.model) =
    (m.parameters[id]?).map (Parameter.traits m.model)

theorem readElements_relabel {step step' : Nat → Term → Option (List Finding)}
    (hstep : ∀ k t, step' k (t.relabel τ) = (step k t).map (List.map (Finding.relabel ρ τ)))
    (ts : List Term) : ∀ k, readElements step' k (Term.relabelList τ ts) =
      (readElements step k ts).map (List.map (Finding.relabelElement ρ τ)) := by
  induction ts with
  | nil => intro k; rfl
  | cons t ts ih =>
    intro k
    rw [Term.relabelList, readElements, readElements, Term.expanded_relabel, hstep, ih]
    cases hread : step k t.expanded with
    | none => rfl
    | some xs =>
      rw [Option.map_some, Option.bind_some, Option.bind_some, Finding.clues?_relabel]
      cases Finding.clues? xs with
      | none => rfl
      | some cs =>
        dsimp only [Option.map_some]
        rw [Option.map_map, Option.map_map]
        rfl

end Matching

open Matching (Relabels)

variable {m m' : Matching}

/-! ### Readings -/

namespace Matching.Relabels

variable (h : m.Relabels ρ m')
include h

theorem isPack (id : ParamId) : m'.isPack (ρ id) = m.isPack id := by
  rw [Matching.isPack, Matching.isPack, h.model]
  exact any_of_traits (fun _ _ htraits => congrArg Prod.fst htraits) (h.traits id)

theorem accepts (id : ParamId) (t : Term) :
    m'.parameters[ρ id]?.any (m'.model.accepts · (t.relabel τ)) =
      m.parameters[id]?.any (m.model.accepts · t) := by
  rw [h.model]
  simp only [TypeModel.accepts_relabel]
  exact any_of_traits (fun _ _ htraits => TypeModel.accepts_of_traits htraits t) (h.traits id)

theorem packOf (t : Term) : m'.packOf (t.relabel ρ) = (m.packOf t).map ρ := by
  have hpacks : m'.isPack ∘ ρ = m.isPack := funext h.isPack
  rw [Matching.packOf, Matching.packOf, Term.occurrences_relabel, List.find?_map, hpacks]

/-- An expansion finds the same elements. -/
theorem readExpansion (inner : Term) (step step' : Nat → Term → Option (List Finding))
    (hstep : ∀ k t, step' k (t.relabel τ) = (step k t).map (List.map (Finding.relabel ρ τ)))
    (ts : List Term) :
    m'.readExpansion (inner.relabel ρ) step' (Term.relabelList τ ts) =
      (m.readExpansion inner step ts).map (List.map (Finding.relabel ρ τ)) := by
  rw [Matching.readExpansion, Matching.readExpansion, h.packOf]
  cases m.packOf inner with
  | none => rfl
  | some pack =>
    dsimp only [Option.map_some]
    rw [Matching.readElements_relabel hstep ts 0, Option.map_map, Option.map_map]
    rfl

theorem gain (wanted given : Qualifiers) (k : Nat) :
    m'.gain wanted given k =
      (m.gain wanted given k).map (List.map (Finding.relabel ρ τ)) := by
  rw [Matching.gain, Matching.gain, h.model, h.mode]
  split
  · rfl
  · split <;> rfl

end Matching.Relabels

namespace Matching

mutual

theorem read_relabel (h : m.Relabels ρ m') : ∀ (p t : Term) (k : Nat),
    m'.read (p.relabel ρ) (t.relabel τ) k =
      (m.read p t k).map (List.map (Finding.relabel ρ τ))
  | .param _, t, k | .offset _ _, t, k => by simp only [Term.relabel, read]; rfl
  | .placeholder _, t, k | .type _, t, k | .template _, t, k | .value _ _, t, k => by
    cases t <;> simp only [Term.relabel, read, h.model, Finding.guard_relabel, Option.map_none]
  | .expansion _, t, k => by cases t <;> simp only [Term.relabel, read] <;> rfl
  | .pointer p, t, k => by
    cases t with
    | pointer t => exact read_relabel h p t k
    | _ => simp only [Term.relabel, read]; rfl
  | .reference kind p, t, k => by
    cases t with
    | reference kind' t =>
      rw [Term.relabel, Term.relabel, read, read, read_relabel h p t k]
      split <;> rfl
    | _ => simp only [Term.relabel, read]; rfl
  | .qualified quals p, t, k => by
    rw [Term.relabel, read, read, Term.quals_relabel, Term.withoutQuals_relabel, h.gain,
      read_relabel h p (t.withoutQuals quals) k, Finding.join_relabel]
  | .apply head args, t, k => by
    cases t with
    | apply head' args' =>
      rw [Term.relabel, Term.relabel, read, read, read_relabel h head head' k,
        readList_relabel h args args' k, Finding.join_relabel]
    | _ => simp only [Term.relabel, read]; rfl

/-- **A pattern reads the same whatever the numbers of its parameters.** -/
theorem readList_relabel (h : m.Relabels ρ m') : ∀ (ps ts : List Term) (k : Nat),
    m'.readList (Term.relabelList ρ ps) (Term.relabelList τ ts) k =
      (m.readList ps ts k).map (List.map (Finding.relabel ρ τ))
  | [], ts, k => by cases ts <;> rfl
  | p :: ps, ts, k => by
    by_cases hexp : p.isExpansion = true
    · obtain ⟨inner, rfl⟩ := Term.exists_of_isExpansion hexp
      have hnil := readList_relabel h ps [] k
      rw [Term.relabelList] at hnil
      have hinner := h.readExpansion (τ := τ) inner (fun _ t => m.read inner t k)
        (fun _ t => m'.read (inner.relabel ρ) t k) (fun _ t => read_relabel h inner t k) ts
      rw [Term.relabelList, Term.relabel, readList, readList, hnil, ← Finding.join_relabel, hinner]
    · rw [Bool.not_eq_true] at hexp
      have hexp' : (p.relabel ρ).isExpansion = false := (p.isExpansion_relabel).trans hexp
      cases ts with
      | nil =>
        rw [Term.relabelList, Term.relabelList, readList_cons_nil _ hexp',
          readList_cons_nil _ hexp]
        rfl
      | cons t ts =>
        rw [Term.relabelList, Term.relabelList, readList_cons _ hexp', readList_cons _ hexp,
          read_relabel h p t k, readList_relabel h ps ts k, Finding.join_relabel]

end

/-- Outside calls, so does a position. -/
theorem readPosition_relabel (h : m.Relabels ρ m') (hmode : m.mode ≠ .call) (p t : Term)
    (k : Nat) : m'.readPosition (p.relabel ρ) (t.relabel τ) k =
      (m.readPosition p t k).map (List.map (Finding.relabel ρ τ)) := by
  rw [readPosition, readPosition, h.mode]
  cases hm : m.mode with
  | structural => exact read_relabel h p t k
  | ordering =>
    dsimp only
    rw [Term.undecorated_relabel, Term.undecorated_relabel]
    exact read_relabel h p.undecorated t.undecorated k
  | call => exact absurd hm hmode

/-- Which slots carry a default matters, what the default is does not. -/
theorem readSlots_relabel (h : m.Relabels ρ m') (hmode : m.mode ≠ .call) :
    ∀ (slots slots' : List Slot), slots'.map (·.term) = Term.relabelList ρ (slots.map (·.term)) →
      slots'.map (·.default.isSome) = slots.map (·.default.isSome) → ∀ (k : Nat) (ts : List Term),
        m'.readSlots slots' k (Term.relabelList τ ts) =
          (m.readSlots slots k ts).map (List.map (Finding.relabel ρ τ)) := by
  intro slots
  induction slots with
  | nil =>
    intro slots' hargs _ k ts
    obtain rfl := List.map_eq_nil_iff.mp hargs
    cases ts <;> rfl
  | cons slot rest ih =>
    intro slots' hargs hdefaults k ts
    obtain ⟨slot', rest', rfl⟩ : ∃ slot' rest', slots' = slot' :: rest' := by
      cases slots' with
      | nil => exact absurd hargs.symm (List.cons_ne_nil _ _)
      | cons slot' rest' => exact ⟨slot', rest', rfl⟩
    obtain ⟨hterm, hargs⟩ : slot'.term = slot.term.relabel ρ ∧ _ := List.cons.inj hargs
    obtain ⟨hdefault, hdefaults⟩ : slot'.default.isSome = slot.default.isSome ∧ _ :=
      List.cons.inj hdefaults
    have hrest := ih rest' hargs hdefaults
    by_cases hexp : slot.isExpansion = true
    · obtain ⟨term, default⟩ := slot
      obtain ⟨term', default'⟩ := slot'
      obtain ⟨inner, rfl⟩ := Term.exists_of_isExpansion hexp
      obtain rfl : term' = .expansion (inner.relabel ρ) := hterm
      have hinner := h.readExpansion (τ := τ) inner (fun i t => m.readPosition inner t (k + i))
        (fun i t => m'.readPosition (inner.relabel ρ) t (k + i))
        (fun i t => readPosition_relabel h hmode inner t (k + i)) ts
      have hnil := hrest (k + ts.length) []
      rw [readSlots, readSlots, hinner, ← Finding.join_relabel, ← hnil, Term.relabelList_eq_map τ ts,
        List.length_map]
      rfl
    · rw [Bool.not_eq_true] at hexp
      have hexp' : slot'.isExpansion = false := by
        rw [Slot.isExpansion, hterm, Term.isExpansion_relabel]
        exact hexp
      cases ts with
      | nil =>
        have hnil := hrest k []
        rw [Term.relabelList] at hnil ⊢
        rw [readSlots_cons_nil _ hexp', readSlots_cons_nil _ hexp, hdefault, hnil]
        split <;> rfl
      | cons t ts =>
        rw [Term.relabelList, readSlots_cons _ hexp', readSlots_cons _ hexp, hterm,
          readPosition_relabel h hmode, hrest, Finding.join_relabel]

end Matching

/-! ### Following -/

namespace Deduction

theorem element_relabel (d : Deduction) : (d.relabel ρ τ).element =
    d.element.map fun (pack, found) => (ρ pack, found.map (Term.relabel τ)) := rfl

theorem get?_relabel (d : Deduction) (id : ParamId) : (d.relabel ρ τ).substitution.get? (ρ id) =
    (d.substitution.get? id).map (Binding.relabel τ) :=
  Substitution.get?_relabel _ id

variable (h : m.Relabels ρ m')
include h

theorem bindElement_relabel (pack : ParamId) (found : Option Term) (t : Term) (d : Deduction) :
    (d.relabel ρ τ).bindElement m' (ρ pack) (found.map (Term.relabel τ)) (t.relabel τ) =
      (d.bindElement m pack found t).map (relabel ρ τ) := by
  cases found with
  | none => rfl
  | some u =>
    rw [Option.map_some, bindElement, bindElement, h.model, TypeModel.sameTerm_relabel]
    split <;> rfl

theorem bindSingle_relabel (id : ParamId) (t : Term) (d : Deduction) :
    (d.relabel ρ τ).bindSingle m' (ρ id) (t.relabel τ) = (d.bindSingle m id t).map (relabel ρ τ) := by
  have htraits := h.traits id
  rw [bindSingle, bindSingle, h.model]
  cases hp : m.parameters[id]? with
  | none =>
    rw [hp, Option.map_none, Option.map_eq_none_iff] at htraits
    rw [htraits]
    rfl
  | some p =>
    rw [hp] at htraits
    obtain ⟨q, hq, htraits⟩ := Option.map_eq_some_iff.mp htraits
    have hpack : m.model.isPack q = m.model.isPack p := congrArg Prod.fst htraits
    rw [hq]
    dsimp only
    rw [hpack, get?_relabel]
    split
    · rfl
    · rcases d.substitution.get? id with _ | (u | us)
      · have hinsert := Substitution.insert_relabel (ρ := ρ) (τ := τ) d.substitution id (.single t)
        simp only [Option.map_none, Option.map_some, relabel, ← hinsert, Binding.relabel]
      · simp only [Option.map_some, Binding.relabel, TypeModel.sameTerm_relabel]
        split <;> rfl
      · rfl

theorem bind_relabel (id : ParamId) (t : Term) (d : Deduction) :
    (d.relabel ρ τ).bind m' (ρ id) (t.relabel τ) = (d.bind m id t).map (relabel ρ τ) := by
  rw [bind, bind, element_relabel]
  rcases d.element with _ | ⟨pack, found⟩
  · exact bindSingle_relabel h id t d
  · simp only [Option.map_some, EmbeddingLike.apply_eq_iff_eq]
    split
    · exact bindElement_relabel h pack found t d
    · exact bindSingle_relabel h id t d

theorem followClue_relabel (c : Clue) (d : Deduction) :
    (d.relabel ρ τ).followClue m' (c.relabel ρ τ) = (d.followClue m c).map (relabel ρ τ) := by
  cases c with
  | bind id t =>
    rw [Clue.relabel, followClue, followClue, bindArgument, bindArgument, h.accepts]
    split
    · exact bind_relabel h id t d
    · rfl
  | defer pattern t => rfl
  | convert c => rfl

theorem followClues_relabel (cs : List Clue) : ∀ d : Deduction,
    (d.relabel ρ τ).followClues m' (cs.map (Clue.relabel ρ τ)) =
      (d.followClues m cs).map (relabel ρ τ) := by
  induction cs with
  | nil => intro d; rfl
  | cons c cs ih =>
    intro d
    rw [List.map_cons, followClues, followClues, followClue_relabel h]
    cases d.followClue m c with
    | none => rfl
    | some d' => exact ih d'

theorem gather_relabel (pack : ParamId) (found : List (Term × List Clue)) : ∀ d : Deduction,
    (d.relabel ρ τ).gather m' (ρ pack) (found.map (Finding.relabelElement ρ τ)) =
      (d.gather m pack found).map fun (ts, d') => (Term.relabelList τ ts, d'.relabel ρ τ) := by
  induction found with
  | nil => intro d; rfl
  | cons x found ih =>
    intro d
    obtain ⟨t, cs⟩ := x
    have hclues : Deduction.followClues m' (cs.map (Clue.relabel ρ τ))
          { d.relabel ρ τ with element := some (ρ pack, none) } =
        (Deduction.followClues m cs { d with element := some (pack, none) }).map (relabel ρ τ) :=
      followClues_relabel h cs { d with element := some (pack, none) }
    rw [List.map_cons, gather, Finding.relabelElement, gather, hclues]
    rcases Deduction.followClues m cs { d with element := some (pack, none) }
      with _ | ⟨σ, deferred, _ | ⟨pack', _ | u⟩⟩
    · rfl
    · rfl
    · rfl
    · have hrest := ih ⟨σ, deferred, none⟩
      simp only [Option.map_some, relabel, Option.map_none] at hrest ⊢
      rw [hrest]
      rcases Deduction.gather m pack found ⟨σ, deferred, none⟩ with _ | ⟨ts, d''⟩
      · rfl
      · simp only [Option.map_some, Term.relabelList, Term.expandedLike_relabel]

theorem bindPack_relabel (pack : ParamId) (ts : List Term) (d : Deduction) :
    (d.relabel ρ τ).bindPack m' (ρ pack) (Term.relabelList τ ts) =
      (d.bindPack m pack ts).map (relabel ρ τ) := by
  have hsame : ∀ us, m.model.sameTerms (Term.relabelList τ us) (Term.relabelList τ ts) =
      m.model.sameTerms us ts := fun us => Term.sameList_relabel m.model.sameLeaf us ts
  rw [bindPack, bindPack, get?_relabel, h.model]
  rcases d.substitution.get? pack with _ | (u | us)
  · have hinsert := Substitution.insert_relabel (ρ := ρ) (τ := τ) d.substitution pack (.pack ts)
    simp only [Option.map_none, Option.map_some, relabel, ← hinsert, Binding.relabel]
  · rfl
  · simp only [Option.map_some, Binding.relabel, hsame]
    split <;> rfl

theorem followFinding_relabel (f : Finding) (d : Deduction) :
    (d.relabel ρ τ).followFinding m' (f.relabel ρ τ) = (d.followFinding m f).map (relabel ρ τ) := by
  cases f with
  | clue c => exact followClue_relabel h c d
  | elements pack found =>
    rw [Finding.relabel, followFinding, followFinding, element_relabel]
    cases d.element with
    | some e => rfl
    | none =>
      simp only [Option.map_none]
      rw [gather_relabel h]
      rcases d.gather m pack found with _ | ⟨ts, d'⟩
      · rfl
      · exact bindPack_relabel h pack ts d'

theorem follow_relabel (xs : List Finding) : ∀ d : Deduction,
    (d.relabel ρ τ).follow m' (xs.map (Finding.relabel ρ τ)) = (d.follow m xs).map (relabel ρ τ) := by
  induction xs with
  | nil => intro d; rfl
  | cons f xs ih =>
    intro d
    rw [List.map_cons, follow, follow, followFinding_relabel h]
    cases d.followFinding m f with
    | none => rfl
    | some d' => exact ih d'

/-- What was deferred may keep parameters of the pattern, so these and those in the targets have to
be numbered alike if anything was. -/
theorem finish_relabel (d : Deduction) (hd : ρ = τ ∨ d.deferred = []) :
    (d.relabel ρ τ).finish m' = (d.finish m).map (Substitution.relabel ρ τ) := by
  have hdeferred : ((d.relabel ρ τ).deferred.all fun (pattern, target) =>
        m.model.sameTerm (pattern.subst (d.relabel ρ τ).substitution) target) =
      d.deferred.all fun (pattern, target) =>
        m.model.sameTerm (pattern.subst d.substitution) target := by
    rcases hd with rfl | hnil
    · rw [relabel, List.all_map]
      refine congrArg (List.all d.deferred) (funext fun (pattern, target) => ?_)
      have hsubst : (pattern.relabel ρ).subst (d.substitution.relabel ρ ρ) =
          (pattern.subst d.substitution).relabel ρ := Substitution.apply_relabel pattern _
      dsimp only [Function.comp_apply]
      rw [hsubst, TypeModel.sameTerm_relabel]
    · rw [relabel, hnil]
      rfl
  rw [finish, finish, h.model, hdeferred]
  split <;> rfl

end Deduction

/-! ### Whole matches -/

namespace Matching

variable {model : TypeModel} {mode : MatchMode} {parameters parameters' : List Parameter}
  {slots slots' : List Slot} {targets : List Term}

/-- **A match goes through a relabelling,** if its reading does. -/
theorem run_of_readSlots_relabel
    (htraits : ∀ id, (parameters'[ρ id]?).map (Parameter.traits model) =
      (parameters[id]?).map (Parameter.traits model))
    (hread : (⟨model, mode, parameters', []⟩ : Matching).readSlots slots' 0
        (Term.relabelList τ targets) =
      ((⟨model, mode, parameters, []⟩ : Matching).readSlots slots 0 targets).map
        (List.map (Finding.relabel ρ τ)))
    (hdeferred : ρ = τ ∨ ∀ xs,
      (⟨model, mode, parameters, []⟩ : Matching).readSlots slots 0 targets = some xs →
        ∀ f ∈ xs, ∀ p t, .defer p t ∉ f.clues) :
    run model mode parameters' slots' .empty (Term.relabelList τ targets) =
      (run model mode parameters slots .empty targets).map (Substitution.relabel ρ τ) := by
  let m : Matching := ⟨model, mode, parameters, []⟩
  let m' : Matching := ⟨model, mode, parameters', []⟩
  have h : m.Relabels ρ m' := ⟨rfl, rfl, htraits⟩
  have hrun : run model mode parameters slots .empty targets =
      ((m.readSlots slots 0 targets).bind fun found =>
        (Deduction.start .empty).follow m found).bind (Deduction.finish m) :=
    run_eq model mode parameters slots .empty targets
  have hrun' : run model mode parameters' slots' .empty (Term.relabelList τ targets) =
      ((m'.readSlots slots' 0 (Term.relabelList τ targets)).bind fun found =>
        (Deduction.start .empty).follow m' found).bind (Deduction.finish m') :=
    run_eq model mode parameters' slots' .empty (Term.relabelList τ targets)
  rw [hrun, hrun', hread]
  cases hxs : m.readSlots slots 0 targets with
  | none => rfl
  | some xs =>
    have hfollow : (Deduction.start .empty).follow m' (xs.map (Finding.relabel ρ τ)) =
        ((Deduction.start .empty).follow m xs).map (Deduction.relabel ρ τ) :=
      Deduction.follow_relabel h xs (.start .empty)
    rw [Option.map_some, Option.bind_some, Option.bind_some, hfollow]
    cases hd : (Deduction.start .empty).follow m xs with
    | none => rfl
    | some d =>
      refine Deduction.finish_relabel h d (hdeferred.imp_right fun hnone => ?_)
      have hextends := (Deduction.follow_extends (overPacks_readSlots hxs) rfl hd).2
      refine List.eq_nil_iff_forall_not_mem.mpr fun pt hpt => ?_
      rcases hextends.deferred pt hpt with hstart | hclue
      · exact List.not_mem_nil hstart
      · obtain ⟨f, hf, hclue⟩ := List.mem_flatMap.mp hclue
        exact hnone xs hxs f hf _ _ hclue

/-- So a structural match does, if no default of a slot is needed. -/
theorem run_relabel
    (htraits : ∀ id, (parameters'[ρ id]?).map (Parameter.traits model) =
      (parameters[id]?).map (Parameter.traits model))
    (hargs : slots'.map (·.term) = Term.relabelList ρ (slots.map (·.term)))
    (hslots : (structural model parameters).readSlots slots 0 targets =
      (structural model parameters).readList (slots.map (·.term)) targets 0)
    (hslots' : (structural model parameters').readSlots slots' 0 (Term.relabelList ρ targets) =
      (structural model parameters').readList (slots'.map (·.term))
        (Term.relabelList ρ targets) 0) :
    run model .structural parameters' slots' .empty (Term.relabelList ρ targets) =
      (run model .structural parameters slots .empty targets).map (Substitution.relabel ρ ρ) := by
  refine run_of_readSlots_relabel htraits ?_ (.inl rfl)
  have h : (structural model parameters).Relabels ρ (structural model parameters') :=
    ⟨rfl, rfl, htraits⟩
  exact hslots'.trans (by rw [hargs, readList_relabel h]; exact congrArg _ hslots.symm)

/-- Outside calls any match does, if the same slots carry a default.  Without offsets in the pattern,
parameters in the targets may be numbered anyhow. -/
theorem run_relabel_slots (hmode : mode ≠ .call)
    (htraits : ∀ id, (parameters'[ρ id]?).map (Parameter.traits model) =
      (parameters[id]?).map (Parameter.traits model))
    (hargs : slots'.map (·.term) = Term.relabelList ρ (slots.map (·.term)))
    (hdefaults : slots'.map (·.default.isSome) = slots.map (·.default.isSome))
    (hoffsets : ρ = τ ∨ Term.offsetsList (slots.map (·.term)) = []) :
    run model mode parameters' slots' .empty (Term.relabelList τ targets) =
      (run model mode parameters slots .empty targets).map (Substitution.relabel ρ τ) := by
  have h : Relabels ρ ⟨model, mode, parameters, []⟩ ⟨model, mode, parameters', []⟩ :=
    ⟨rfl, rfl, htraits⟩
  refine run_of_readSlots_relabel htraits
    (readSlots_relabel h hmode slots slots' hargs hdefaults 0 targets)
    (hoffsets.imp_right fun hnone xs hxs => not_deferred_of_readSlots hmode hnone hxs)

end Matching

end TemplateResolution
