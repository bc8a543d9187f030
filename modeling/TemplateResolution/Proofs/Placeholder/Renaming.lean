import TemplateResolution.Proofs.Substitution.Support
import TemplateResolution.TypeModel.Basic
import Mathlib.Logic.Function.Basic

/-!
# Renaming placeholders

A placeholder is equal to nothing but itself, so which one stands for a
parameter cannot matter.  `rename f` gives every placeholder the number `f` has
for it and keeps its kind.  This file says that everything done to terms goes
through a renaming: what is built from renamed terms is the renaming of what was
built, and with an injective `f` two terms are the same exactly when their
renamings are (`same_rename`).

A term without placeholders is its own renaming (`rename_of_placeholderFree`).
-/

namespace TemplateResolution

def Placeholder.rename (f : Nat → Nat) (token : Placeholder) : Placeholder :=
  ⟨f token.id, token.kind⟩

theorem Placeholder.rename_injective {f : Nat → Nat} (hf : Function.Injective f) :
    Function.Injective (rename f) := by
  rintro ⟨i, k⟩ ⟨j, l⟩ h
  obtain ⟨hid, hkind⟩ := Placeholder.mk.inj h
  exact Placeholder.mk.injEq .. ▸ ⟨hf hid, hkind⟩

namespace Term

mutual

def rename (f : Nat → Nat) : Term → Term
  | placeholder token => placeholder (token.rename f)
  | apply head args => apply (rename f head) (renameList f args)
  | pointer inner => pointer (rename f inner)
  | qualified quals inner => qualified quals (rename f inner)
  | reference kind inner => reference kind (rename f inner)
  | expansion inner => expansion (rename f inner)
  | offset base delta => offset (rename f base) delta
  | param id => param id
  | type name => type name
  | value number ty => value number ty
  | template name => template name

def renameList (f : Nat → Nat) : List Term → List Term
  | [] => []
  | t :: ts => rename f t :: renameList f ts

end

mutual

/-- Every placeholder in a term, from left to right. -/
def placeholders : Term → List Placeholder
  | placeholder token => [token]
  | apply head args => placeholders head ++ placeholdersList args
  | pointer inner | expansion inner | qualified _ inner | reference _ inner => placeholders inner
  | offset base _ => placeholders base
  | param _ | type _ | value _ _ | template _ => []

def placeholdersList : List Term → List Placeholder
  | [] => []
  | t :: ts => placeholders t ++ placeholdersList ts

end

/-- No placeholder occurs in the term, as in everything that is declared or asked for. -/
def PlaceholderFree (t : Term) : Prop := t.placeholders = []

instance (t : Term) : Decidable t.PlaceholderFree := inferInstanceAs (Decidable (_ = _))

variable {f : Nat → Nat}

theorem renameList_eq_map (f : Nat → Nat) (ts : List Term) :
    renameList f ts = ts.map (rename f) := by
  induction ts with
  | nil => rfl
  | cons t ts ih => rw [renameList, ih, List.map_cons]

/-! ### Terms without placeholders -/

theorem placeholdersList_eq_nil {ts : List Term} :
    placeholdersList ts = [] ↔ ∀ t ∈ ts, t.PlaceholderFree := by
  induction ts with
  | nil => simp [placeholdersList]
  | cons t ts ih => simp [placeholdersList, ih, PlaceholderFree]

theorem rename_of_placeholderFree {t : Term} (h : t.PlaceholderFree) : t.rename f = t := by
  induction t using Term.induct with
  | param id => rfl
  | placeholder token => exact absurd h (List.cons_ne_nil _ _)
  | type name => rfl
  | value number ty => rfl
  | template name => rfl
  | apply head args ihHead ihArgs =>
    obtain ⟨hhead, hargs⟩ := List.append_eq_nil_iff.mp h
    rw [placeholdersList_eq_nil] at hargs
    have hmap : args.map (rename f) = args.map id :=
      List.map_congr_left fun t ht => ihArgs t ht (hargs t ht)
    rw [rename, ihHead hhead, renameList_eq_map, hmap, List.map_id]
  | pointer inner ih => rw [rename, ih h]
  | qualified quals inner ih => rw [rename, ih h]
  | reference kind inner ih => rw [rename, ih h]
  | expansion inner ih => rw [rename, ih h]
  | offset base delta ih => rw [rename, ih h]

theorem map_rename_of_placeholderFree {ts : List Term} (h : ∀ t ∈ ts, t.PlaceholderFree) :
    ts.map (rename f) = ts := by
  induction ts with
  | nil => rfl
  | cons t ts ih =>
    rw [List.map_cons, rename_of_placeholderFree (h t List.mem_cons_self),
      ih fun u hu => h u (List.mem_cons_of_mem t hu)]

/-- Erasing decorations brings no placeholder in. -/
theorem PlaceholderFree.erase {t : Term} (h : t.PlaceholderFree) : t.erase.PlaceholderFree := by
  induction t using Term.induct with
  | param id => rfl
  | placeholder token => exact absurd h (List.cons_ne_nil _ _)
  | type name => rfl
  | value number ty => rfl
  | template name => rfl
  | apply head args ihHead ihArgs =>
    obtain ⟨hhead, hargs⟩ := List.append_eq_nil_iff.mp h
    rw [placeholdersList_eq_nil] at hargs
    rw [Term.erase, eraseList_eq_map, PlaceholderFree, placeholders, ihHead hhead, List.nil_append,
      placeholdersList_eq_nil]
    intro u hu
    obtain ⟨t, ht, rfl⟩ := List.mem_map.mp hu
    exact ihArgs t ht (hargs t ht)
  | pointer inner ih => exact ih h
  | qualified quals inner ih => exact ih h
  | reference kind inner ih => exact ih h
  | expansion inner ih => exact ih h
  | offset base delta ih =>
    have hbase := ih h
    rw [Term.erase]
    cases he : base.erase with
    | value number ty =>
      rw [plus]
      split <;> rfl
    | _ => rw [he] at hbase; exact hbase

/-! ### Shapes -/

@[simp] theorem isTypeLike_rename (t : Term) : (t.rename f).isTypeLike = t.isTypeLike := by
  cases t <;> rfl

@[simp] theorem isExpansion_rename (t : Term) : (t.rename f).isExpansion = t.isExpansion := by
  cases t <;> rfl

@[simp] theorem expanded_rename (t : Term) : (t.rename f).expanded = t.expanded.rename f := by
  cases t <;> rfl

@[simp] theorem expandedLike_rename (t element : Term) :
    (t.rename f).expandedLike (element.rename f) = (t.expandedLike element).rename f := by
  cases t <;> rfl

@[simp] theorem quals_rename (t : Term) : (t.rename f).quals = t.quals := by
  cases t <;> rfl

@[simp] theorem unqualified_rename (t : Term) :
    (t.rename f).unqualified = t.unqualified.rename f := by
  cases t <;> rfl

@[simp] theorem referee_rename (t : Term) : (t.rename f).referee = t.referee.rename f := by
  cases t <;> rfl

@[simp] theorem undecorated_rename (t : Term) :
    (t.rename f).undecorated = t.undecorated.rename f := by
  rw [undecorated, referee_rename, unqualified_rename, undecorated]

@[simp] theorem qualify_rename (quals : Qualifiers) (t : Term) :
    (t.rename f).qualify quals = (t.qualify quals).rename f := by
  unfold qualify
  split
  · rfl
  · cases t <;> rfl

@[simp] theorem refer_rename (kind : RefKind) (t : Term) :
    (t.rename f).refer kind = (t.refer kind).rename f := by
  cases t <;> rfl

@[simp] theorem plus_rename (t : Term) (delta : Int) :
    (t.rename f).plus delta = (t.plus delta).rename f := by
  cases t with
  | value number ty =>
    rw [rename, plus]
    split <;> rfl
  | _ => rfl

@[simp] theorem occurrences_rename (t : Term) : (t.rename f).occurrences = t.occurrences := by
  induction t using Term.induct with
  | apply head args ihHead ihArgs =>
    have hargs : occurrencesList (renameList f args) = occurrencesList args := by
      rw [renameList_eq_map]
      induction args with
      | nil => rfl
      | cons t ts ih =>
        rw [List.map_cons, occurrencesList, occurrencesList, ihArgs t List.mem_cons_self,
          ih fun u hu => ihArgs u (List.mem_cons_of_mem t hu)]
    rw [rename, occurrences, occurrences, ihHead, hargs]
  | pointer inner ih => exact ih
  | qualified quals inner ih => exact ih
  | reference kind inner ih => exact ih
  | expansion inner ih => exact ih
  | offset base delta ih => exact ih
  | _ => rfl

mutual

/-- **Renaming apart keeps terms apart.** -/
theorem same_rename (hf : Function.Injective f) (leaf : String → String → Bool) :
    ∀ a b : Term, same leaf (a.rename f) (b.rename f) = same leaf a b
  | placeholder s, b => by
    cases b <;> simp [rename, same, (Placeholder.rename_injective hf).eq_iff, beq_eq_beq]
  | param _, b | type _, b | template _, b | value _ _, b => by
    cases b <;> simp [rename, same]
  | apply g as, b => by
    cases b <;> simp [rename, same, same_rename hf leaf g, sameList_rename hf leaf as]
  | pointer a, b | expansion a, b | qualified _ a, b | reference _ a, b | offset a _, b => by
    cases b <;> simp [rename, same, same_rename hf leaf a]

theorem sameList_rename (hf : Function.Injective f) (leaf : String → String → Bool) :
    ∀ as bs : List Term, sameList leaf (renameList f as) (renameList f bs) = sameList leaf as bs
  | [], bs => by cases bs <;> rfl
  | a :: as, bs => by
    cases bs <;> simp [renameList, sameList, same_rename hf leaf a, sameList_rename hf leaf as]

end

end Term

/-! ### Substitutions -/

def Binding.rename (f : Nat → Nat) : Binding → Binding
  | .single t => .single (t.rename f)
  | .pack ts => .pack (ts.map (Term.rename f))

namespace Substitution

variable {f : Nat → Nat}

def rename (f : Nat → Nat) (σ : Substitution) : Substitution :=
  { σ with bindings := σ.bindings.map fun (id, b) => (id, b.rename f) }

@[simp] theorem rename_empty : empty.rename f = empty := rfl

@[simp] theorem ids_rename (σ : Substitution) : (σ.rename f).ids = σ.ids := by
  simp [rename, ids, Function.comp_def]

theorem get?_rename (σ : Substitution) (id : ParamId) :
    (σ.rename f).get? id = (σ.get? id).map (Binding.rename f) :=
  lookup_map (Binding.rename f) id σ.bindings

theorem insert_rename (σ : Substitution) (id : ParamId) (b : Binding) :
    (σ.rename f).insert id (b.rename f) = (σ.insert id b).rename f := by
  have hbindings : ∀ l : List (ParamId × Binding),
      insertInto id (b.rename f) (l.map fun (i, c) => (i, c.rename f)) =
        (insertInto id b l).map fun (i, c) => (i, c.rename f) := by
    intro l
    induction l with
    | nil => rfl
    | cons entry rest ih =>
      obtain ⟨i, old⟩ := entry
      rw [List.map_cons, insertInto, insertInto]
      split
      · rfl
      · rw [ih, List.map_cons]
  rw [insert, insert, rename, rename, hbindings]

theorem atElement_rename (σ : Substitution) (pack : ParamId) (element : Term) :
    (σ.rename f).atElement pack (element.rename f) = (σ.atElement pack element).rename f := by
  rw [atElement, atElement, ← insert_rename, Term.expanded_rename, Binding.rename]

theorem atParam_rename (σ : Substitution) (id : ParamId) :
    (σ.rename f).atParam id = (σ.atParam id).rename f := by
  rw [atParam, atParam, get?_rename]
  rcases σ.get? id with _ | (_ | _) <;> rfl

theorem boundPack_rename (σ : Substitution) (t : Term) :
    (σ.rename f).boundPack (t.rename f) =
      (σ.boundPack t).map fun (pack, ts) => (pack, ts.map (Term.rename f)) := by
  rw [boundPack, boundPack, Term.occurrences_rename]
  induction t.occurrences with
  | nil => rfl
  | cons id ids ih =>
    rw [List.findSome?_cons, List.findSome?_cons, ih, get?_rename]
    rcases σ.get? id with _ | (_ | _) <;> rfl

mutual

theorem apply_rename : ∀ (t : Term) (σ : Substitution),
    apply (t.rename f) (σ.rename f) = (apply t σ).rename f
  | .param id, σ => atParam_rename σ id
  | .apply head args, σ => by
    rw [Term.rename, apply, apply, apply_rename head σ, applyList_rename args σ, Term.rename]
  | .pointer inner, σ => by rw [Term.rename, apply, apply, apply_rename inner σ, Term.rename]
  | .qualified quals inner, σ => by
    rw [Term.rename, apply, apply, apply_rename inner σ, Term.qualify_rename]
  | .reference kind inner, σ => by
    rw [Term.rename, apply, apply, apply_rename inner σ, Term.refer_rename]
  | .expansion inner, σ => by rw [Term.rename, apply, apply, apply_rename inner σ, Term.rename]
  | .offset base delta, σ => by
    rw [Term.rename, apply, apply, apply_rename base σ, Term.plus_rename]
  | .placeholder _, _ | .type _, _ | .value _ _, _ | .template _, _ => rfl

theorem applyList_rename : ∀ (ts : List Term) (σ : Substitution),
    applyList (Term.renameList f ts) (σ.rename f) = Term.renameList f (applyList ts σ)
  | [], _ => rfl
  | t :: ts, σ => by
    have htail := applyList_rename ts σ
    cases t with
    | expansion inner =>
      have hinner := fun τ => apply_rename inner τ
      rw [Term.renameList, Term.rename, applyList, applyList, boundPack_rename]
      cases σ.boundPack inner with
      | none => simp only [Option.map_none, hinner, htail, Term.renameList, Term.rename]
      | some b =>
        obtain ⟨pack, elements⟩ := b
        simp only [Term.renameList_eq_map] at htail ⊢
        simp only [Option.map_some, List.map_map, Function.comp_def, atElement_rename, hinner,
          Term.expandedLike_rename, htail, List.map_append]
    | _ =>
      rw [applyList_cons rfl, Term.renameList, applyList_cons rfl, apply_rename, htail,
        Term.renameList]

end

end Substitution

end TemplateResolution
