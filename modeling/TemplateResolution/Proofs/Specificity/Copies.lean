import TemplateResolution.Proofs.Matching.Relabeling
import TemplateResolution.Proofs.Matching.SelfMatch
import TemplateResolution.Proofs.Registry.Duplicates
import TemplateResolution.Proofs.Specificity.Closed
import TemplateResolution.Proofs.Specificity.Standing
import Mathlib.Logic.Equiv.Basic

/-!
# Copies

A copy of a pattern has the same argument list with other parameters in the places of
the old ones (`Pattern.Copies`).  In a comparison it cannot be told from the original:
what takes the one takes the other (`takes_copy`), and both take the same
(`copy_takes`).  So a pattern and its copy declare the same exactly if the pattern takes
itself (`coincides_copy`).

Not every pattern does.  What occurs in an offset alone is deduced from nothing, not even
from the placeholder that stands for it.  A pattern that is legible takes itself
(`takesItself_of_legible`).
-/

namespace TemplateResolution

namespace Term

variable {ρ : Equiv.Perm ParamId} {isPack : ParamId → Bool}

/-! ### Relabelled terms -/

mutual

theorem deducibleOccurrences_relabel : ∀ t : Term,
    (t.relabel ρ).deducibleOccurrences = t.deducibleOccurrences.map ρ
  | param _ | placeholder _ | type _ | value _ _ | template _ | offset _ _ => rfl
  | apply head args => by
    rw [relabel, deducibleOccurrences, deducibleOccurrences, deducibleOccurrences_relabel head,
      deducibleOccurrencesList_relabel args, List.map_append]
  | pointer t | qualified _ t | reference _ t | expansion t => deducibleOccurrences_relabel t

theorem deducibleOccurrencesList_relabel : ∀ ts : List Term,
    deducibleOccurrencesList (relabelList ρ ts) = (deducibleOccurrencesList ts).map ρ
  | [] => rfl
  | t :: ts => by
    rw [relabelList, deducibleOccurrencesList, deducibleOccurrencesList,
      deducibleOccurrences_relabel t, deducibleOccurrencesList_relabel ts, List.map_append]

end

mutual

theorem placeholders_relabel : ∀ t : Term, (t.relabel ρ).placeholders = t.placeholders
  | param _ | placeholder _ | type _ | value _ _ | template _ => rfl
  | apply head args => by
    rw [relabel, placeholders, placeholders, placeholders_relabel head,
      placeholdersList_relabel args]
  | pointer t | qualified _ t | reference _ t | expansion t | offset t _ => placeholders_relabel t

theorem placeholdersList_relabel : ∀ ts : List Term,
    placeholdersList (relabelList ρ ts) = placeholdersList ts
  | [] => rfl
  | t :: ts => by
    rw [relabelList, placeholdersList, placeholdersList, placeholders_relabel t,
      placeholdersList_relabel ts]

end

theorem occurrencesList_renameList (f : Nat → Nat) (ts : List Term) :
    occurrencesList (renameList f ts) = occurrencesList ts := by
  induction ts with
  | nil => rfl
  | cons t ts ih => rw [renameList, occurrencesList, occurrencesList, occurrences_rename, ih]

/-! ### Parameters without their qualifiers -/

theorem decayed_relabel : ∀ t : Term, (t.relabel ρ).decayed = t.decayed.relabel ρ
  | expansion inner => congrArg expansion (decayed_relabel inner)
  | qualified _ _ | param _ | placeholder _ | type _ | value _ _ | template _ | apply _ _
  | pointer _ | reference _ _ | offset _ _ => rfl

theorem deducibleOccurrences_decayed : ∀ t : Term,
    t.decayed.deducibleOccurrences = t.deducibleOccurrences
  | expansion inner => deducibleOccurrences_decayed inner
  | qualified _ _ | param _ | placeholder _ | type _ | value _ _ | template _ | apply _ _
  | pointer _ | reference _ _ | offset _ _ => rfl

theorem isNormal_decayed : ∀ {t : Term}, t.isNormal = true → t.decayed.isNormal = true
  | expansion inner, h => isNormal_decayed (t := inner) h
  | qualified _ _, h => (isNormal_qualified.mp h).2.2.2
  | param _, h | placeholder _, h | type _, h | value _ _, h | template _, h | apply _ _, h
  | pointer _, h | reference _ _, h | offset _ _, h => h

theorem placesPacks_decayed {inside : Bool} : ∀ {t : Term},
    t.placesPacks isPack inside = true → t.decayed.placesPacks isPack inside = true
  | expansion _, h => Bool.noConfusion h
  | qualified _ _, h => h
  | param _, h | placeholder _, h | type _, h | value _ _, h | template _, h | apply _ _, h
  | pointer _, h | reference _ _, h | offset _ _, h => h

theorem placesPacksList_decayed {ts : List Term} (h : placesPacksList isPack false ts = true) :
    placesPacksList isPack false (ts.map decayed) = true := by
  induction ts with
  | nil => rfl
  | cons t ts ih =>
    by_cases hexp : t.isExpansion = true
    · obtain ⟨inner, rfl⟩ := exists_of_isExpansion hexp
      obtain ⟨rfl, -, hany, hinner⟩ := placesPacksList_expansion h
      have hdecayed := placesPacks_decayed hinner
      rw [← occurrences_decayed] at hany
      simp [decayed, placesPacksList, hany, hdecayed]
    · rw [Bool.not_eq_true] at hexp
      rw [placesPacksList_cons hexp, Bool.and_eq_true] at h
      have hdecayed := placesPacks_decayed h.1
      have hexp' : t.decayed.isExpansion = false := by
        cases hd : t.decayed with
        | expansion inner => rw [hd] at hdecayed; exact Bool.noConfusion hdecayed
        | _ => rfl
      rw [List.map_cons, placesPacksList_cons hexp', hdecayed, ih h.2]
      rfl

/-- An expansion decays to an expansion. -/
theorem isExpansion_decayed : ∀ {t : Term}, t.isExpansion = true ∨ t.expandsInLists = true →
    t.decayed.isExpansion = t.isExpansion
  | expansion _, _ => rfl
  | qualified _ inner, h => by
    cases inner with
    | expansion t => exact h.elim (fun hexp => Bool.noConfusion hexp) fun h => Bool.noConfusion h
    | _ => rfl
  | param _, _ | placeholder _, _ | type _, _ | value _ _, _ | template _, _ | apply _ _, _
  | pointer _, _ | reference _ _, _ | offset _ _, _ => rfl

theorem occurrencesList_decayed (ts : List Term) :
    occurrencesList (ts.map decayed) = occurrencesList ts := by
  induction ts with
  | nil => rfl
  | cons t ts ih => rw [List.map_cons, occurrencesList, occurrencesList, occurrences_decayed, ih]

end Term

open PlaceholderSupply (frozen)

namespace PlaceholderSupply

variable (model : TypeModel) (parameters : List Parameter)

/-- An argument list is as long as its image. -/
theorem length_substList_frozen (ts : List Term) :
    (Term.substList (frozen model parameters) ts).length = ts.length := by
  induction ts with
  | nil => rfl
  | cons t ts ih =>
    have hfirst : (Term.substList (frozen model parameters) [t]).length = 1 := by
      by_cases hexp : t.isExpansion = true
      · obtain ⟨inner, rfl⟩ := Term.exists_of_isExpansion hexp
        rw [Term.substList, Substitution.applyList]
        rcases hbound : (frozen model parameters).boundPack inner with _ | ⟨pack, us⟩
        · rfl
        · obtain ⟨-, hget⟩ := Substitution.boundPack_inv hbound
          obtain ⟨q, -, ⟨-, heq⟩ | ⟨-, heq⟩⟩ := exists_of_get?_frozen hget
          · exact Binding.noConfusion heq
          · obtain rfl := Binding.pack.inj heq
            rfl
      · rw [Bool.not_eq_true] at hexp
        rw [Term.substList, Substitution.applyList_cons hexp]
        rfl
    rw [Term.substList_cons, List.length_append, hfirst, ih, List.length_cons, Nat.add_comm]

/-- A placeholder is an argument for the parameter that it stands for. -/
theorem accepts_placeholder (q : Parameter) (n : Nat) :
    model.accepts q (.placeholder ⟨n, model.argumentKind q⟩) = true := by
  rw [TypeModel.accepts]
  cases model.argumentKind q <;> rfl

theorem fills_frozen :
    (Matching.structural model parameters).Fills (frozen model parameters) := by
  constructor
  · intro id q hq hpack
    exact ⟨_, frozen_single hq hpack, accepts_placeholder model q id, ⟨rfl, rfl⟩⟩
  · intro id q hq hpack
    refine ⟨_, frozen_pack hq hpack, fun t ht => ?_⟩
    obtain rfl := List.mem_singleton.mp ht
    exact ⟨accepts_placeholder model q id, ⟨rfl, rfl⟩⟩

end PlaceholderSupply

/-! ### Sides -/

/-- The argument list with placeholders for the parameters. -/
def Side.image (model : TypeModel) (s : Side) : List Term :=
  Term.substList (frozen model s.parameters) s.args

/-- The image is a list of terms without parameters, item by item that of the argument list. -/
structure Side.Closed (model : TypeModel) (s : Side) : Prop where
  placeholderFree : s.PlaceholderFree
  image : Term.occurrencesList (s.image model) = []
  expansions : ∀ t ∈ s.args.dropLast, t.isExpansion = false

/-- The second has the same argument list with other parameters of the same kinds, `ρ id` in the
place of `id`. -/
structure Side.Copies (model : TypeModel) (ρ : Equiv.Perm ParamId) (s s' : Side) : Prop where
  traits : ∀ id, (s'.parameters[ρ id]?).map (Parameter.traits model) =
    (s.parameters[id]?).map (Parameter.traits model)
  args : s'.args = Term.relabelList ρ s.args

/-- The argument list can be read back from its image: it is in normal form, packs stand where their
elements can be told apart, and what an offset mentions is found elsewhere. -/
structure Side.Legible (model : TypeModel) (s : Side) : Prop where
  normal : ∀ t ∈ s.args, t.isNormal = true
  places : Term.placesPacksList (Matching.structural model s.parameters).isPack false s.args = true
  deducible : ∀ id ∈ Term.occurrencesList s.args, id ∈ Term.deducibleOccurrencesList s.args

namespace Side

variable {model : TypeModel} {ρ : Equiv.Perm ParamId} {s s' : Side}

theorem args_mapTerms (f : Term → Term) (s : Side) : (s.mapTerms f).args = s.args.map f := by
  rw [args, args, mapTerms, List.map_map, List.map_map]
  rfl

theorem placeholderFree_iff : s.PlaceholderFree ↔ ∀ t ∈ s.args, t.PlaceholderFree := by
  rw [args, List.forall_mem_map]
  rfl

/-! ### Sides without their qualifiers -/

theorem Copies.mapTerms (h : s.Copies model ρ s') {f : Term → Term}
    (hf : ∀ t : Term, f (t.relabel ρ) = (f t).relabel ρ) :
    (s.mapTerms f).Copies model ρ (s'.mapTerms f) := by
  refine ⟨h.traits, ?_⟩
  rw [args_mapTerms, args_mapTerms, h.args, Term.relabelList_eq_map, Term.relabelList_eq_map,
    List.map_map, List.map_map]
  exact List.map_congr_left fun t _ => hf t

theorem Legible.decayed (h : s.Legible model) : (s.mapTerms Term.decayed).Legible model := by
  constructor
  · intro t ht
    rw [args_mapTerms] at ht
    obtain ⟨u, hu, rfl⟩ := List.mem_map.mp ht
    exact Term.isNormal_decayed (h.normal u hu)
  · rw [args_mapTerms]
    exact Term.placesPacksList_decayed h.places
  · intro id hid
    rw [args_mapTerms] at hid ⊢
    have hmem := h.deducible id (Term.occurrencesList_decayed s.args ▸ hid)
    obtain ⟨t, ht, hid⟩ := Term.mem_deducibleOccurrencesList.mp hmem
    rw [← Term.deducibleOccurrences_decayed] at hid
    exact Term.mem_deducibleOccurrencesList.mpr ⟨_, List.mem_map_of_mem ht, hid⟩

theorem Closed.decayed (h : s.Closed model) (hlists : Term.expandsInListsList s.args = true) :
    (s.mapTerms Term.decayed).Closed model := by
  have hshape : ∀ t ∈ s.args, t.decayed.isExpansion = t.isExpansion :=
    fun t ht => Term.isExpansion_decayed (Term.expandsInLists_of_mem hlists ht)
  refine ⟨h.placeholderFree.mapTerms_decayed, ?_, ?_⟩
  · rw [Side.image, args_mapTerms]
    exact Substitution.occurrencesList_decayed_eq_nil (PlaceholderSupply.grounding_frozen model _)
      h.image
  · intro t ht
    rw [args_mapTerms, ← List.map_dropLast] at ht
    obtain ⟨u, hu, rfl⟩ := List.mem_map.mp ht
    rw [hshape u (List.dropLast_subset _ hu)]
    exact h.expansions u hu

/-! ### The image of a copy -/

theorem Copies.placeholderFree (h : s.Copies model ρ s') (hs : s.PlaceholderFree) :
    s'.PlaceholderFree := by
  rw [placeholderFree_iff, ← Term.placeholdersList_eq_nil] at hs ⊢
  rw [h.args, Term.placeholdersList_relabel, hs]

/-- The placeholders of a copy are those of the original, renamed with the parameters. -/
theorem Copies.get?_frozen (h : s.Copies model ρ s') (id : ParamId) :
    (frozen model s'.parameters).get? (ρ id) =
      ((frozen model s.parameters).get? id).map (Binding.rename ρ) := by
  have htraits := h.traits id
  rw [PlaceholderSupply.get?_frozen, PlaceholderSupply.get?_frozen]
  cases hq : s.parameters[id]? with
  | none =>
    rw [hq, Option.map_none, Option.map_eq_none_iff] at htraits
    rw [htraits]
    rfl
  | some q =>
    rw [hq] at htraits
    obtain ⟨q', hq', htraits⟩ := Option.map_eq_some_iff.mp htraits
    have hpack : model.isPack q' = model.isPack q := congrArg Prod.fst htraits
    have hkind : model.argumentKind q' = model.argumentKind q :=
      congrArg (fun traits => traits.2.1) htraits
    rw [hq', Option.map_some, Option.map_some, Option.map_some,
      PlaceholderSupply.bindingFor_rename, PlaceholderSupply.bindingFor,
      PlaceholderSupply.bindingFor, hpack, hkind]
    rfl

/-- **The image of a copy is the image with other placeholders,** and with other numbers for the
parameters that are left in it. -/
theorem Copies.image_relabel (h : s.Copies model ρ s') (hs : s.PlaceholderFree) :
    s'.image model = Term.relabelList ρ (Term.renameList ρ (s.image model)) := by
  let fresh := (frozen model s.parameters).rename ρ
  have hget : ∀ id, (frozen model s'.parameters).get? id = (fresh.relabel ρ ρ).get? id := by
    intro id
    have hid := h.get?_frozen (ρ.symm id)
    have hfresh := Substitution.get?_relabel (ρ := ρ) (τ := ρ) fresh (ρ.symm id)
    rw [Equiv.apply_symm_apply] at hid hfresh
    rw [hid, hfresh, Substitution.get?_rename, PlaceholderSupply.get?_frozen]
    cases s.parameters[ρ.symm id]? with
    | none => rfl
    | some q =>
      rw [Option.map_some, PlaceholderSupply.bindingFor]
      cases model.isPack q <;> rfl
  have hcongr : s'.image model = Term.substList (fresh.relabel ρ ρ) s'.args :=
    Substitution.applyList_congr s'.args fun id _ => hget id
  have hrelabel : Term.substList (fresh.relabel ρ ρ) (Term.relabelList ρ s.args) =
      Term.relabelList ρ (Term.substList fresh s.args) := Substitution.applyList_relabel s.args fresh
  have hrename : Term.substList fresh s.args = Term.renameList ρ (s.image model) := by
    have happly := Substitution.applyList_rename (f := ρ) s.args (frozen model s.parameters)
    rwa [hs.renameList_args] at happly
  rw [hcongr, h.args, hrelabel, hrename]

theorem Copies.image_eq (h : s.Copies model ρ s') (hs : s.PlaceholderFree)
    (hclosed : Term.occurrencesList (s.image model) = []) :
    s'.image model = Term.renameList ρ (s.image model) := by
  have hrenamed : Term.occurrencesList (Term.renameList ρ (s.image model)) = [] := by
    rw [Term.occurrencesList_renameList, hclosed]
  rw [h.image_relabel hs, Term.relabelList_of_closed hrenamed]

end Side

/-! ### What takes a copy, and what a copy takes -/

namespace Comparator

variable (c : Comparator) {ρ : Equiv.Perm ParamId} {s s' t : Side}

/-- Two sides are taken alike if one match is had from the other. -/
theorem takes_of_map {s t s' t' : Side} {mode : MatchMode} {f : Substitution → Substitution}
    (h : Matching.run c.model mode s'.parameters s'.slots .empty (t'.image c.model) =
      (Matching.run c.model mode s.parameters s.slots .empty (t.image c.model)).map f) :
    c.takes mode s' t' = c.takes mode s t := by
  have hsome := congrArg Option.isSome h
  rw [Option.isSome_map] at hsome
  exact hsome

/-- An image with other placeholders is matched alike. -/
theorem run_renamed_image (mode : MatchMode) (ht : t.PlaceholderFree) (s : Side) :
    Matching.run c.model mode t.parameters t.slots .empty (Term.renameList ρ (s.image c.model)) =
      (Matching.run c.model mode t.parameters t.slots .empty (s.image c.model)).map
        (Substitution.rename ρ) := by
  have hrun := Matching.run_rename ρ.injective c.model mode t.parameters t.slots .empty
    (s.image c.model)
  rwa [ht.map_rename_slots, Substitution.rename_empty, ← Term.renameList_eq_map] at hrun

/-- **What takes a pattern takes its copies.** -/
theorem takes_copy (mode : MatchMode) (ht : t.PlaceholderFree) (hs : s.PlaceholderFree)
    (hclosed : Term.occurrencesList (s.image c.model) = []) (h : s.Copies c.model ρ s') :
    c.takes mode t s' = c.takes mode t s := by
  have hrun := c.run_renamed_image (ρ := ρ) mode ht s
  rw [← h.image_eq hs hclosed] at hrun
  exact c.takes_of_map hrun

/-- **A copy takes what the original takes,** where no default of a slot is needed. -/
theorem copy_takes (h : s.Copies c.model ρ s')
    (ht : Term.occurrencesList (t.image c.model) = [])
    (hslots : (Matching.structural c.model s.parameters).readSlots s.slots 0 (t.image c.model) =
      (Matching.structural c.model s.parameters).readList s.args (t.image c.model) 0)
    (hslots' : (Matching.structural c.model s'.parameters).readSlots s'.slots 0
        (t.image c.model) =
      (Matching.structural c.model s'.parameters).readList s'.args (t.image c.model) 0) :
    c.takes .structural s' t = c.takes .structural s t := by
  have hclosed : Term.relabelList ρ (t.image c.model) = t.image c.model :=
    Term.relabelList_of_closed ht
  have hrun := Matching.run_relabel h.traits h.args hslots (by rw [hclosed]; exact hslots')
  rw [hclosed] at hrun
  exact c.takes_of_map hrun

/-- A copy takes the original if that takes itself. -/
theorem copy_takes_self (hs : s.Closed c.model) (h : s.Copies c.model ρ s') :
    c.takes .structural s' s = c.takes .structural s s := by
  have hlength : (s.image c.model).length = s.args.length :=
    PlaceholderSupply.length_substList_frozen c.model s.parameters s.args
  have hlength' : s'.args.length = s.args.length := by
    rw [h.args, Term.relabelList_eq_map, List.length_map]
  have hexpansions' : ∀ t ∈ s'.args.dropLast, t.isExpansion = false := by
    intro t ht
    rw [h.args, Term.relabelList_eq_map, ← List.map_dropLast] at ht
    obtain ⟨u, hu, rfl⟩ := List.mem_map.mp ht
    rw [Term.isExpansion_relabel]
    exact hs.expansions u hu
  refine c.copy_takes h hs.image ?_ ?_
  · refine Matching.readSlots_eq_of_length_le rfl s.slots hs.expansions 0 _ ?_
    rw [hlength, Side.args, List.length_map]
  · refine Matching.readSlots_eq_of_length_le rfl s'.slots hexpansions' 0 _ ?_
    rw [hlength, ← hlength', Side.args, List.length_map]

theorem interchangeable_copy (hs : s.Closed c.model) (h : s.Copies c.model ρ s') :
    c.interchangeable s s' = c.takes .structural s s := by
  rw [interchangeable, c.takes_copy .structural hs.placeholderFree hs.placeholderFree hs.image h,
    c.copy_takes_self hs h, Bool.and_self]

/-- **What can be read back from its image takes itself.** -/
theorem takes_self (hrefl : ∀ n, c.model.sameLeaf n n = true)
    (hunique : ∀ i j, (Matching.structural c.model s.parameters).isPack i = true →
      (Matching.structural c.model s.parameters).isPack j = true → i = j)
    (hdeclared : ∀ id ∈ Term.occurrencesList s.args, id < s.parameters.length)
    (h : s.Legible c.model) : c.takes .structural s s = true := by
  refine Matching.isSome_run_subst hrefl hunique h.normal hdeclared h.places h.deducible
    (PlaceholderSupply.fills_frozen c.model s.parameters) fun id hid => ?_
  obtain ⟨q, -, ⟨-, heq⟩ | ⟨-, heq⟩⟩ := PlaceholderSupply.exists_of_get?_frozen hid
  · exact Binding.noConfusion heq
  · exact absurd (Binding.pack.inj heq).symm (List.cons_ne_nil _ _)

end Comparator

/-! ### Patterns -/

namespace Pattern

/-- `q` has the argument list of `p` with other parameters of the same kinds. -/
def Copies (model : TypeModel) (ρ : Equiv.Perm ParamId) (p q : Pattern) : Prop :=
  (Side.ofPattern p).Copies model ρ (Side.ofPattern q)

/-- The argument list can be read back from its image. -/
def Legible (model : TypeModel) (p : Pattern) : Prop := (Side.ofPattern p).Legible model

variable {model : TypeModel} {ρ : Equiv.Perm ParamId} {p q t : Pattern}

/-- By a table of aliases, parameters are of the same kind if they are declared alike. -/
theorem copies_of_table (table : AliasTable)
    (hparameters : ∀ id, (q.parameters[ρ id]?).map (fun a => (a.kind, a.valueType, a.pack)) =
      (p.parameters[id]?).map fun a => (a.kind, a.valueType, a.pack))
    (hargs : q.args = Term.relabelList ρ p.args) : p.Copies table.model ρ q := by
  refine ⟨fun id => ?_, hargs⟩
  have htraits : ∀ a : Parameter, a.traits table.model = (a.pack, a.kind, a.valueType) := by
    intro a
    have hkind : table.model.argumentKind a = a.kind := ite_self a.kind
    rw [Parameter.traits, hkind]
    rfl
  have hid := congrArg
    (Option.map fun x : ParamKind × Option String × Bool => (x.2.2, x.1, x.2.1)) (hparameters id)
  rw [Option.map_map, Option.map_map] at hid
  simp only [Side.ofPattern, funext htraits]
  exact hid

/-- So they are where two parameters change places. -/
theorem copies_of_swap (table : AliasTable) {x y x' y' : Parameter} (hp : p.parameters = [x, y])
    (hq : q.parameters = [y', x'])
    (hx : (x'.kind, x'.valueType, x'.pack) = (x.kind, x.valueType, x.pack))
    (hy : (y'.kind, y'.valueType, y'.pack) = (y.kind, y.valueType, y.pack))
    (hargs : q.args = Term.relabelList (Equiv.swap 0 1) p.args) :
    p.Copies table.model (Equiv.swap 0 1) q := by
  refine copies_of_table table (fun id => ?_) hargs
  rw [hp, hq]
  match id with
  | 0 => exact congrArg some hx
  | 1 => exact congrArg some hy
  | id + 2 =>
    rw [Equiv.swap_apply_of_ne_of_ne (Nat.succ_ne_zero _) (Nat.succ_succ_ne_one _)]
    rfl

theorem Copies.placeholderFree (h : p.Copies model ρ q) (hp : p.PlaceholderFree) :
    q.PlaceholderFree :=
  Side.Copies.placeholderFree h hp

theorem Copies.isVariadic (h : p.Copies model ρ q) : q.isVariadic = p.isVariadic := by
  have hany : ∀ p : Pattern, p.isVariadic = p.args.any Term.isExpansion := by
    intro p
    rw [Pattern.isVariadic, args, List.any_map]
    rfl
  have hargs : q.args = Term.relabelList ρ p.args := h.args
  rw [hany, hany, hargs, Term.relabelList_eq_map, List.any_map]
  exact congrArg (List.any _) (funext fun t => t.isExpansion_relabel)

theorem Grounded.closed (h : p.Grounded) (hp : p.WellFormed model) :
    (Side.ofPattern p).Closed model := by
  refine ⟨h.placeholderFree, h.occurrences_image hp, fun t ht => ?_⟩
  have harguments := hp.arguments
  rw [checkArguments] at harguments
  split at harguments
  · exact Except.noConfusion rfl rfl (heq_of_eq harguments)
  · rename_i hinner
    rw [Bool.not_eq_true] at hinner
    exact Bool.eq_false_iff.mpr (List.any_eq_false.mp hinner t ht)

end Pattern

namespace Comparator

variable {c : Comparator} {ρ : Equiv.Perm ParamId} {p q t : Pattern}

/-- Whether a pattern takes its own image. -/
def takesItself (c : Comparator) (p : Pattern) : Bool :=
  c.takes .structural (c.declared p) (c.declared p)

theorem declared_closed (hp : p.Grounded) (hwf : p.WellFormed c.model) :
    (c.declared p).Closed c.model := by
  rw [declared]
  cases c.flavor with
  | functionLike => exact (hp.closed hwf).decayed hp.expansions
  | classLike => exact hp.closed hwf

/-- **A pattern and its copy declare the same exactly if the pattern takes itself.** -/
theorem coincides_copy (hp : p.Grounded) (hwf : p.WellFormed c.model) (h : p.Copies c.model ρ q) :
    c.coincides p q = c.takesItself p := by
  have hdeclared : (c.declared p).Copies c.model ρ (c.declared q) := by
    rw [declared, declared]
    cases c.flavor with
    | functionLike => exact Side.Copies.mapTerms h Term.decayed_relabel
    | classLike => exact h
  exact c.interchangeable_copy (declared_closed hp hwf) hdeclared

/-- **A legible pattern takes itself.** -/
theorem takesItself_of_legible (hrefl : ∀ n, c.model.sameLeaf n n = true) (hp : p.Grounded)
    (hwf : p.WellFormed c.model) (h : p.Legible c.model) : c.takesItself p = true := by
  have hunique := hwf.isPack_unique
  rw [takesItself, declared]
  cases c.flavor with
  | functionLike =>
    refine c.takes_self hrefl hunique (fun id hid => hp.declared id ?_) (Side.Legible.decayed h)
    rw [Side.args_mapTerms, Term.occurrencesList_decayed] at hid
    exact hid
  | classLike => exact c.takes_self hrefl hunique hp.declared h

/-- **In a class-like family a copy compares as the original does.** -/
theorem compare_copy {model : TypeModel} {rules : OrderingRules} (ht : t.Grounded)
    (htwf : t.WellFormed model) (hp : p.Grounded) (hwf : p.WellFormed model)
    (h : p.Copies model ρ q) (hdefaults : ∀ slot ∈ p.slots, slot.default = none)
    (hdefaults' : ∀ slot ∈ q.slots, slot.default = none) (supply : PlaceholderSupply) :
    (((Comparator.mk model rules .classLike).compare t q).run supply).1 =
      (((Comparator.mk model rules .classLike).compare t p).run supply).1 := by
  let c : Comparator := ⟨model, rules, .classLike⟩
  have htakes : c.takes .structural (.ofPattern t) (.ofPattern q) =
      c.takes .structural (.ofPattern t) (.ofPattern p) :=
    c.takes_copy .structural ht.placeholderFree hp.placeholderFree (hp.closed hwf).image h
  have htaken : c.takes .structural (.ofPattern q) (.ofPattern t) =
      c.takes .structural (.ofPattern p) (.ofPattern t) :=
    c.copy_takes h (ht.closed htwf).image (Matching.readSlots_eq rfl p.slots hdefaults 0 _)
      (Matching.readSlots_eq rfl q.slots hdefaults' 0 _)
  have hweigh : ∀ aFromB bFromA,
      c.weigh t q (.ofPattern t) (.ofPattern q) .neutral aFromB bFromA =
        c.weigh t p (.ofPattern t) (.ofPattern p) .neutral aFromB bFromA := by
    intro aFromB bFromA
    cases aFromB <;> cases bFromA <;> simp [weigh, breakTie, c, h.isVariadic]
  have hq := c.compareAt_run_fst ht.placeholderFree (h.placeholderFree hp.placeholderFree) none
    supply
  have hp := c.compareAt_run_fst ht.placeholderFree hp.placeholderFree none supply
  refine hq.trans (Eq.trans ?_ hp.symm)
  have houtcome : ∀ p : Pattern, c.outcome t p none =
      c.weigh t p (.ofPattern t) (.ofPattern p) .neutral
        (c.takes .structural (.ofPattern p) (.ofPattern t))
        (c.takes .structural (.ofPattern t) (.ofPattern p)) := fun _ => rfl
  rw [houtcome, houtcome, htakes, htaken, hweigh]

end Comparator

end TemplateResolution
