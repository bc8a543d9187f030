import TemplateResolution.Candidate
import TemplateResolution.Proofs.Matching.SpelledOut

/-!
# Kinds are respected

Whatever a parameter is bound to is an argument of its kind: a pack is bound to a list of such
arguments, any other parameter to one.  Bindings are made in three places.  Template arguments
that are written out are looked at before they are bound (`respectsKinds_seedFrom`), so is every
target that a parameter meets, and the elements of a pack are targets that the pack met
(`follow_respectsKinds`).

An element that was found for a target which is an expansion is an expansion itself; the kind is
that of the term inside.
-/

namespace TemplateResolution

/-- The binding is one for `q`: a list of arguments of its kind if `q` is a pack, one argument
otherwise.  An expansion in the list stands for arguments of the kind of the term inside. -/
def Binding.OfKind (model : TypeModel) (q : Parameter) : Binding → Prop
  | .single t => model.isPack q = false ∧ model.accepts q t = true
  | .pack ts => model.isPack q = true ∧ ∀ t ∈ ts, model.accepts q t.expanded = true

/-- Only declared parameters are bound, each to what is of its kind. -/
def Substitution.RespectsKinds (model : TypeModel) (parameters : List Parameter)
    (σ : Substitution) : Prop :=
  ∀ id b, σ.get? id = some b → ∃ q, parameters[id]? = some q ∧ b.OfKind model q

namespace Substitution.RespectsKinds

variable {model : TypeModel} {parameters : List Parameter} {σ : Substitution}

theorem empty : RespectsKinds model parameters .empty :=
  fun _ b h => absurd h (Option.some_ne_none b).symm

theorem insert (h : σ.RespectsKinds model parameters) {id : ParamId} {q : Parameter}
    (hq : parameters[id]? = some q) {b : Binding} (hb : b.OfKind model q) :
    (σ.insert id b).RespectsKinds model parameters := by
  intro j c hj
  rw [get?_insert] at hj
  split at hj
  · rename_i heq
    obtain rfl := Option.some.inj hj
    exact ⟨q, heq ▸ hq, hb⟩
  · exact h j c hj

/-- Bindings that respect the kinds are of the form that a match expects. -/
theorem suits (h : σ.RespectsKinds model parameters) {mode : MatchMode} {seeded : List ParamId} :
    Matching.Suits ⟨model, mode, parameters, seeded⟩ σ := by
  constructor
  · intro id ts hts
    obtain ⟨q, hq, hpack, -⟩ := h id _ hts
    rw [Matching.isPack, hq]
    exact hpack
  · intro id t ht
    obtain ⟨q, hq, hpack, haccepts⟩ := h id _ ht
    rw [Matching.isPack, hq]
    exact ⟨hpack, haccepts⟩

end Substitution.RespectsKinds

/-! ### Template arguments that are written out -/

theorem Pattern.respectsKinds_seedFrom {model : TypeModel} {parameters : List Parameter} :
    ∀ (ps : List Parameter) (id : ParamId) (args : List Term) (σ seed : Substitution),
      parameters.drop id = ps → σ.RespectsKinds model parameters →
      seedFrom model id ps args σ = some seed → seed.RespectsKinds model parameters := by
  refine seedFrom_induction (fun _ _ _ _ hq hpack haccepts hσ => ?_)
    fun _ q _ _ hq hpack haccepted hσ => ?_
  · exact hσ.insert hq ⟨hpack, haccepts⟩
  · refine hσ.insert hq ⟨hpack, fun t ht => ?_⟩
    have haccepts : model.accepts q t = true := haccepted t ht
    rwa [Term.expanded_eq_self (Deduction.isExpansion_of_accepts haccepts)]

/-! ### What a match adds -/

/-- Following a reading adds bindings that respect the kinds. -/
theorem Deduction.follow_respectsKinds {m : Matching} {found : List Finding} {d d' : Deduction}
    (hd : d.substitution.RespectsKinds m.model m.parameters) (helement : d.element = none)
    (hpacks : ∀ f ∈ found, f.OverPacks m) (h : d.follow m found = some d') :
    d'.substitution.RespectsKinds m.model m.parameters := by
  have hsuits : m.Suits d'.substitution := (follow_extends hpacks helement h).2.suits hd.suits
  intro id b hb
  cases b with
  | single t =>
    obtain ⟨hpack, haccepts⟩ := hsuits.singles id t hb
    obtain ⟨q, hq, hqt⟩ := (Option.any_eq_true _ _).mp haccepts
    rw [Matching.isPack, hq] at hpack
    exact ⟨q, hq, hpack, hqt⟩
  | pack ts =>
    rcases follow_packs h hb with hbefore | ⟨haccepted, -⟩
    · exact hd id _ hbefore
    · obtain ⟨q, hq, hpack⟩ := (Option.any_eq_true _ _).mp (hsuits.packs id ts hb)
      refine ⟨q, hq, hpack, fun t ht => ?_⟩
      have haccepts := haccepted t ht
      rwa [hq] at haccepts

theorem Pattern.respectsKinds_of_match? {model : TypeModel} {mode : MatchMode} {p : Pattern}
    {seed σ : Substitution} (hseed : seed.RespectsKinds model p.parameters) {targets : List Term}
    (h : p.match? model mode seed targets = some σ) : σ.RespectsKinds model p.parameters := by
  obtain ⟨xs, d, hxs, hfollow, -, rfl⟩ := Matching.run_eq_some.mp h
  exact Deduction.follow_respectsKinds hseed rfl (Matching.overPacks_readSlots hxs) hfollow

/-- **Every binding is one for its parameter.**  If the template arguments that are written out fit
the parameters of a pattern, and the pattern then matches its targets, in whatever mode, then packs
are bound to lists of arguments of their kinds, all other parameters to one argument of theirs, and
nothing else is bound; and what was written out is bound as written. -/
theorem Pattern.match?_respectsKinds {model : TypeModel} {mode : MatchMode} {p : Pattern}
    {explicitArgs targets : List Term} {seed σ : Substitution}
    (hseed : p.seed? model explicitArgs = some seed)
    (h : p.match? model mode seed targets = some σ) :
    σ.RespectsKinds model p.parameters ∧
      ∀ id b, seed.get? id = some b → σ.get? id = some b := by
  obtain ⟨xs, d, hxs, hfollow, -, rfl⟩ := Matching.run_eq_some.mp h
  have hkinds : seed.RespectsKinds model p.parameters :=
    respectsKinds_seedFrom p.parameters 0 explicitArgs .empty seed rfl .empty hseed
  refine ⟨?_, (Deduction.follow_keeps hfollow).1.bindings⟩
  exact Deduction.follow_respectsKinds hkinds rfl (Matching.overPacks_readSlots hxs) hfollow

/-- `f<int>(T, U&&, A<Vs...>)` is called with an `int`, an lvalue `bool` and an `A<char, Ws...>`. -/
theorem Pattern.match?_respectsKinds_forwarded :
    let model := AliasTable.empty.model
    let parameters : List Parameter := [{ name := "T", kind := .type },
      { name := "U", kind := .type }, { name := "Vs", kind := .type, pack := true }]
    let p := Pattern.overload "f" parameters [⟨.param 0, none⟩,
      ⟨.reference .rvalue (.param 1), none⟩,
      ⟨.apply (.template "A") [.expansion (.param 2)], none⟩]
    let bool := Term.reference .lvalue (.type "bool")
    let pack := [.type "char", .expansion (.type "Ws")]
    let targets : List Term := [.type "int", bool, .apply (.template "A") pack]
    let seed := Substitution.empty.insert 0 (.single (.type "int"))
    let σ := (seed.insert 1 (.single bool)).insert 2 (.pack pack)
    p.seed? model [.type "int"] = some seed ∧ p.match? model .call seed targets = some σ ∧
      σ.RespectsKinds model p.parameters ∧
      ∀ id b, seed.get? id = some b → σ.get? id = some b := by
  intro model parameters p bool pack targets seed σ
  have hseed : p.seed? model [.type "int"] = some seed := rfl
  have h : p.match? model .call seed targets = some σ := rfl
  exact ⟨hseed, h, match?_respectsKinds hseed h⟩

end TemplateResolution
