import TemplateResolution.Matching.Slots
import TemplateResolution.Proofs.Placeholder.Renaming

/-!
# Matching renamed terms

Matching asks of a placeholder whether it is the same as another and of what
kind it is, and nothing else.  So a match of renamed slots with renamed targets
goes step by step like the match of the originals, and ends in the renamed
substitution or in the same failure.  The main statement is `run_rename`; each
step of a deduction has its own form of it, and `unify_rename` is the induction
over the pattern.
-/

namespace TemplateResolution

def Slot.rename (f : Nat → Nat) (slot : Slot) : Slot := { slot with term := slot.term.rename f }

def Deduction.rename (f : Nat → Nat) (d : Deduction) : Deduction where
  substitution := d.substitution.rename f
  deferred := d.deferred.map fun (pattern, target) => (pattern.rename f, target.rename f)
  element := d.element.map fun (pack, found) => (pack, found.map (Term.rename f))

variable {f : Nat → Nat}

/-! ### What the model says about a term -/

theorem TypeModel.accepts_rename (model : TypeModel) (p : Parameter) (t : Term) :
    model.accepts p (t.rename f) = model.accepts p t := by
  unfold accepts
  cases model.argumentKind p with
  | type => exact t.isTypeLike_rename
  | value => cases t <;> rfl
  | nested => cases t <;> rfl

theorem TypeModel.sameTerm_rename (hf : Function.Injective f) (model : TypeModel) (t u : Term) :
    model.sameTerm (t.rename f) (u.rename f) = model.sameTerm t u :=
  Term.same_rename hf model.sameLeaf t u

theorem TypeModel.sameTerms_rename (hf : Function.Injective f) (model : TypeModel)
    (ts us : List Term) :
    model.sameTerms (ts.map (Term.rename f)) (us.map (Term.rename f)) = model.sameTerms ts us := by
  rw [← Term.renameList_eq_map, ← Term.renameList_eq_map]
  exact Term.sameList_rename hf model.sameLeaf ts us

namespace Matching

variable (m : Matching)

theorem packOf_rename (t : Term) : m.packOf (t.rename f) = m.packOf t := by
  rw [packOf, packOf, Term.occurrences_rename]

theorem forwarded_rename (t : Term) : m.forwarded (t.rename f) = m.forwarded t := by
  cases t <;> rfl

end Matching

/-! ### Steps of a deduction -/

namespace Deduction

variable (m : Matching)

theorem bindElement_rename (hf : Function.Injective f) (pack : ParamId) (found : Option Term)
    (t : Term) (d : Deduction) :
    (d.rename f).bindElement m pack (found.map (Term.rename f)) (t.rename f) =
      (d.bindElement m pack found t).map (rename f) := by
  cases found with
  | none => rfl
  | some u =>
    rw [Option.map_some, bindElement, bindElement, TypeModel.sameTerm_rename hf]
    split <;> rfl

theorem bindSingle_rename (hf : Function.Injective f) (id : ParamId) (t : Term) (d : Deduction) :
    (d.rename f).bindSingle m id (t.rename f) = (d.bindSingle m id t).map (rename f) := by
  rw [bindSingle, bindSingle]
  cases m.parameters[id]? with
  | none => rfl
  | some p =>
    dsimp only
    split
    · rfl
    · have hget : (d.rename f).substitution.get? id =
          (d.substitution.get? id).map (Binding.rename f) := Substitution.get?_rename _ id
      rw [hget]
      rcases d.substitution.get? id with _ | (u | us)
      · have hinsert := Substitution.insert_rename (f := f) d.substitution id (.single t)
        simp only [Option.map_none, Option.map_some, rename, ← hinsert, Binding.rename]
      · simp only [Option.map_some, Binding.rename, TypeModel.sameTerm_rename hf]
        split <;> rfl
      · rfl

theorem bind_rename (hf : Function.Injective f) (id : ParamId) (t : Term) (d : Deduction) :
    (d.rename f).bind m id (t.rename f) = (d.bind m id t).map (rename f) := by
  have helement : (d.rename f).element =
      d.element.map fun (pack, found) => (pack, found.map (Term.rename f)) := rfl
  rw [bind, bind, helement]
  rcases d.element with _ | ⟨pack, found⟩
  · exact bindSingle_rename m hf id t d
  · simp only [Option.map_some]
    split
    · exact bindElement_rename m hf pack found t d
    · exact bindSingle_rename m hf id t d

theorem bindArgument_rename (hf : Function.Injective f) (id : ParamId) (t : Term)
    (d : Deduction) :
    (d.rename f).bindArgument m id (t.rename f) = (d.bindArgument m id t).map (rename f) := by
  rw [bindArgument, bindArgument]
  simp only [TypeModel.accepts_rename]
  split
  · exact bind_rename m hf id t d
  · rfl

theorem admitQualifiers_rename (wanted given : Qualifiers) (position : Nat) (d : Deduction) :
    (d.rename f).admitQualifiers m wanted given position =
      (d.admitQualifiers m wanted given position).map (rename f) := by
  rw [admitQualifiers, admitQualifiers]
  split
  · rfl
  · split <;> rfl

/-! ### Expansions -/

variable {step step' : Nat → Term → Deduction → Option Deduction}

theorem collect_rename (pack : ParamId)
    (hstep : ∀ k t d, step' k (t.rename f) (d.rename f) = (step k t d).map (rename f)) :
    ∀ (k : Nat) (targets : List Term) (d : Deduction),
      collect pack step' k (targets.map (Term.rename f)) (d.rename f) =
        (collect pack step k targets d).map fun (ts, d') =>
          (ts.map (Term.rename f), d'.rename f) := by
  intro k targets
  induction targets generalizing k with
  | nil => exact fun d => rfl
  | cons target targets ih =>
    intro d
    have hopen : { d.rename f with element := some (pack, none) } =
        rename f { d with element := some (pack, none) } := rfl
    rw [List.map_cons, collect, collect, hopen, Term.expanded_rename, hstep]
    rcases step k target.expanded { d with element := some (pack, none) } with _ | d'
    · rfl
    · have helement : (d'.rename f).element =
          d'.element.map fun (pack, found) => (pack, found.map (Term.rename f)) := rfl
      have hclose : { d'.rename f with element := none } = rename f { d' with element := none } :=
        rfl
      simp only [Option.map_some, helement]
      rcases d'.element with _ | ⟨_, _ | t⟩
      · rfl
      · rfl
      · simp only [Option.map_some, hclose, ih]
        rcases collect pack step (k + 1) targets { d' with element := none } with _ | ⟨ts, d''⟩
        · rfl
        · simp only [Option.map_some, Term.expandedLike_rename, List.map_cons]

theorem bindPack_rename (hf : Function.Injective f) (pack : ParamId) (elements : List Term)
    (d : Deduction) :
    (d.rename f).bindPack m pack (elements.map (Term.rename f)) =
      (d.bindPack m pack elements).map (rename f) := by
  have hget : (d.rename f).substitution.get? pack =
      (d.substitution.get? pack).map (Binding.rename f) := Substitution.get?_rename _ pack
  rw [bindPack, bindPack, hget]
  rcases d.substitution.get? pack with _ | (u | us)
  · have hinsert := Substitution.insert_rename (f := f) d.substitution pack (.pack elements)
    simp only [Option.map_none, Option.map_some, rename, ← hinsert, Binding.rename]
  · rfl
  · simp only [Option.map_some, Binding.rename, TypeModel.sameTerms_rename hf]
    split <;> rfl

theorem expand_rename (hf : Function.Injective f) (inner : Term)
    (hstep : ∀ k t d, step' k (t.rename f) (d.rename f) = (step k t d).map (rename f))
    (targets : List Term) (d : Deduction) :
    (d.rename f).expand m (inner.rename f) step' (targets.map (Term.rename f)) =
      (d.expand m inner step targets).map (rename f) := by
  have helement : (d.rename f).element =
      d.element.map fun (pack, found) => (pack, found.map (Term.rename f)) := rfl
  rw [expand, expand, Matching.packOf_rename, helement]
  rcases m.packOf inner with _ | pack
  · rfl
  · rcases d.element with _ | e
    · simp only [Option.map_none, collect_rename pack hstep]
      rcases collect pack step 0 targets d with _ | ⟨elements, d'⟩
      · rfl
      · exact bindPack_rename m hf pack elements d'
    · rfl

theorem finish_rename (hf : Function.Injective f) (d : Deduction) :
    (d.rename f).finish m = (d.finish m).map (Substitution.rename f) := by
  have hall : ((d.rename f).deferred.all fun (pattern, target) =>
        m.model.sameTerm (pattern.subst (d.rename f).substitution) target) =
      d.deferred.all fun (pattern, target) =>
        m.model.sameTerm (pattern.subst d.substitution) target := by
    simp only [rename, List.all_map, Function.comp_def, Term.subst, Substitution.apply_rename,
      TypeModel.sameTerm_rename hf]
  rw [finish, finish, hall]
  split <;> rfl

end Deduction

/-! ### Terms and argument lists -/

namespace Matching

variable (m : Matching)

mutual

/-- **Unification goes through a renaming.** -/
theorem unify_rename (hf : Function.Injective f) :
    ∀ (pattern target : Term) (k : Nat) (d : Deduction),
      m.unify (pattern.rename f) (target.rename f) k (d.rename f) =
        (m.unify pattern target k d).map (Deduction.rename f)
  | .param id, target, k, d => by
    rw [Term.rename, unify, unify, Deduction.bindArgument_rename m hf]
  | .offset base delta, target, k, d => by rw [Term.rename, unify, unify]; rfl
  | .qualified quals inner, target, k, d => by
    have hinner := unify_rename hf inner
    rw [Term.rename, unify, unify, Term.quals_rename, Deduction.admitQualifiers_rename]
    rcases d.admitQualifiers m quals target.quals k with _ | d'
    · rfl
    · simp only [Option.map_some, Term.unqualified_rename, Term.qualify_rename, hinner]
  | .placeholder a, target, k, d => by
    cases target with
    | placeholder b =>
      simp only [Term.rename, unify, (Placeholder.rename_injective hf).eq_iff]
      split <;> rfl
    | _ => simp [Term.rename, unify]
  | .type a, target, k, d => by
    cases target with
    | type b => simp only [Term.rename, unify]; split <;> rfl
    | _ => simp [Term.rename, unify]
  | .template a, target, k, d => by
    cases target with
    | template b => simp only [Term.rename, unify]; split <;> rfl
    | _ => simp [Term.rename, unify]
  | .value a s, target, k, d => by
    cases target with
    | value b t => simp only [Term.rename, unify]; split <;> rfl
    | _ => simp [Term.rename, unify]
  | .pointer p, target, k, d => by
    cases target with
    | pointer t => simp only [Term.rename, unify, unify_rename hf p]
    | _ => simp [Term.rename, unify]
  | .reference l p, target, k, d => by
    cases target with
    | reference l' t =>
      simp only [Term.rename, unify, unify_rename hf p]
      split <;> rfl
    | _ => simp [Term.rename, unify]
  | .expansion inner, target, k, d => by cases target <;> simp [Term.rename, unify]
  | .apply head args, target, k, d => by
    have hhead := unify_rename hf head
    have hargs := unifyList_rename hf args
    cases target with
    | apply head' args' =>
      rw [Term.rename, Term.rename, unify, unify, hhead]
      rcases m.unify head head' k d with _ | d'
      · rfl
      · simp only [Option.map_some, hargs]
    | _ => simp [Term.rename, unify]

theorem unifyList_rename (hf : Function.Injective f) :
    ∀ (patterns targets : List Term) (k : Nat) (d : Deduction),
      m.unifyList (Term.renameList f patterns) (Term.renameList f targets) k (d.rename f) =
        (m.unifyList patterns targets k d).map (Deduction.rename f)
  | [], targets, k, d => by cases targets <;> rfl
  | pattern :: patterns, targets, k, d => by
    have hhead := unify_rename hf pattern
    have htail := unifyList_rename hf patterns
    rw [Term.renameList_eq_map f targets]
    by_cases hexp : pattern.isExpansion = true
    · obtain ⟨inner, rfl⟩ := Term.exists_of_isExpansion hexp
      have hstep := fun (_ : Nat) t d => unify_rename hf inner t k d
      rw [Term.renameList, Term.rename, unifyList, unifyList,
        Deduction.expand_rename m hf inner hstep]
      rcases d.expand m inner (fun _ target d => m.unify inner target k d) targets with _ | d'
      · rfl
      · exact htail [] k d'
    · rw [Bool.not_eq_true] at hexp
      have hexp' : (pattern.rename f).isExpansion = false :=
        pattern.isExpansion_rename.trans hexp
      cases targets with
      | nil =>
        rw [Term.renameList, List.map_nil, unifyList_cons_nil m hexp', unifyList_cons_nil m hexp]
        rfl
      | cons target targets =>
        rw [Term.renameList, List.map_cons, unifyList_cons m hexp', unifyList_cons m hexp, hhead,
          ← Term.renameList_eq_map]
        rcases m.unify pattern target k d with _ | d'
        · rfl
        · exact htail targets k d'

end

theorem callPosition_rename (hf : Function.Injective f) (pattern arg : Term) (k : Nat)
    (d : Deduction) :
    m.callPosition (pattern.rename f) (arg.rename f) k (d.rename f) =
      (m.callPosition pattern arg k d).map (Deduction.rename f) := by
  have hlvalue : (arg.rename f).isLvalue = arg.isLvalue := by
    cases arg with
    | reference kind inner => cases kind <;> rfl
    | _ => rfl
  have hvalue := m.unify_rename hf pattern.unqualified arg.undecorated k d
  rw [← Term.unqualified_rename, ← Term.undecorated_rename] at hvalue
  cases pattern with
  | reference kind inner =>
    have hinner := m.unify_rename hf inner arg.referee k d
    cases kind with
    | lvalue =>
      rw [Term.rename, callPosition, callPosition, hlvalue, Term.quals_rename, Term.referee_rename,
        hinner]
      split <;> rfl
    | rvalue =>
      rw [Term.rename, callPosition, callPosition, hlvalue, forwarded_rename, Term.referee_rename,
        Term.refer_rename, hinner]
      rcases m.forwarded inner with _ | id <;> rcases arg.isLvalue with _ | _
      · rfl
      · rfl
      · rfl
      · exact Deduction.bind_rename m hf id _ d
  | _ => exact hvalue

theorem position_rename (hf : Function.Injective f) (pattern target : Term) (k : Nat)
    (d : Deduction) :
    m.position (pattern.rename f) (target.rename f) k (d.rename f) =
      (m.position pattern target k d).map (Deduction.rename f) := by
  rw [position, position]
  cases m.mode with
  | structural => exact m.unify_rename hf pattern target k d
  | ordering =>
    simp only [Term.undecorated_rename]
    exact m.unify_rename hf pattern.undecorated target.undecorated k d
  | call => exact m.callPosition_rename hf pattern target k d

theorem slots_rename (hf : Function.Injective f) (slots : List Slot) :
    ∀ (k : Nat) (targets : List Term) (d : Deduction),
      m.slots (slots.map (Slot.rename f)) k (targets.map (Term.rename f)) (d.rename f) =
        (m.slots slots k targets d).map (Deduction.rename f) := by
  induction slots with
  | nil => intro k targets d; cases targets <;> rfl
  | cons slot rest ih =>
    intro k targets d
    by_cases hexp : slot.isExpansion = true
    · obtain ⟨term, default⟩ := slot
      obtain ⟨inner, rfl⟩ := Term.exists_of_isExpansion hexp
      have hstep := fun i t d => m.position_rename hf inner t (k + i) d
      rw [List.map_cons, Slot.rename, Term.rename, Matching.slots, Matching.slots,
        Deduction.expand_rename m hf inner hstep, List.length_map]
      rcases d.expand m inner (fun i target d => m.position inner target (k + i) d) targets
        with _ | d'
      · rfl
      · exact ih (k + targets.length) [] d'
    · rw [Bool.not_eq_true] at hexp
      have hexp' : (slot.rename f).isExpansion = false :=
        slot.term.isExpansion_rename.trans hexp
      cases targets with
      | nil =>
        rw [List.map_cons, List.map_nil, slots_cons_nil m hexp', slots_cons_nil m hexp]
        have htail := ih k [] d
        rw [List.map_nil] at htail
        rw [htail, Slot.rename]
        split <;> rfl
      | cons target targets =>
        rw [List.map_cons, List.map_cons, slots_cons m hexp', slots_cons m hexp, Slot.rename,
          m.position_rename hf]
        rcases m.position slot.term target k d with _ | d'
        · rfl
        · exact ih (k + 1) targets d'

/-- **A match goes through a renaming.** -/
theorem run_rename (hf : Function.Injective f) (model : TypeModel) (mode : MatchMode)
    (parameters : List Parameter) (slots : List Slot) (seed : Substitution)
    (targets : List Term) :
    run model mode parameters (slots.map (Slot.rename f)) (seed.rename f)
        (targets.map (Term.rename f)) =
      (run model mode parameters slots seed targets).map (Substitution.rename f) := by
  have hslots := (Matching.mk model mode parameters seed.ids).slots_rename hf slots 0 targets
    (.start seed)
  have hstart : Deduction.start (seed.rename f) = (Deduction.start seed).rename f := rfl
  rw [run, run, Substitution.ids_rename, hstart, hslots]
  rcases (Matching.mk model mode parameters seed.ids).slots slots 0 targets (.start seed)
    with _ | d
  · rfl
  · exact Deduction.finish_rename _ hf d

end Matching

end TemplateResolution
