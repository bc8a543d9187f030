import TemplateResolution.Proofs.Registry.Overloads
import TemplateResolution.Proofs.Resolution.Defaults
import Mathlib.Data.List.Forall2

/-!
# Arguments that are not supplied

A slot with a default at the end of an overload only matters to a query that has an
argument for it.  To a match with fewer arguments it is not there (`slots_append`), and
a comparison at the use-site looks at the slots that have an argument, if the rules say
so, and apart from them at the parameters and at whether there is an expansion
(`compareAt_congr`).

So two registries that differ in such slots answer a query in the same way, whatever
pairs are compared and by whichever rule the comparisons are decided
(`registerAll_resolve_extended`).
-/

namespace TemplateResolution

/-- `p'` has more slots behind those of `p`: none of them is an expansion, and each has a default.
There is no expansion among the slots of `p` either. -/
structure Pattern.Extends (p p' : Pattern) : Prop where
  fixed : p.isVariadic = false
  slots : ∃ extra, extra ≠ [] ∧ p' = { p with slots := p.slots ++ extra } ∧
    ∀ s ∈ extra, s.isExpansion = false ∧ s.default.isSome = true

/-- What is looked at in an overload that is compared at a use-site with `arity` arguments is the
same for `p` and `p'`. -/
structure Pattern.AgreesAt (arity : Nat) (p p' : Pattern) : Prop where
  role : p.role = p'.role
  parameters : p.parameters = p'.parameters
  slots : p.slots.take arity = p'.slots.take arity
  isVariadic : p.isVariadic = p'.isVariadic

/-! ### Matching -/

namespace Matching

variable {m : Matching} {extra : List Slot}
  (hextra : ∀ s ∈ extra, s.isExpansion = false ∧ s.default.isSome = true)
include hextra

theorem slots_defaults (k : Nat) (d : Deduction) : m.slots extra k [] d = some d := by
  induction extra with
  | nil => rfl
  | cons s extra ih =>
    obtain ⟨⟨hexp, hdefault⟩, hrest⟩ := List.forall_mem_cons.mp hextra
    rw [slots_cons_nil m hexp, if_pos hdefault, ih hrest]

/-- Slots with defaults behind those that have a target are not there for a match. -/
theorem slots_append {front : List Slot} (hfront : ∀ s ∈ front, s.isExpansion = false) :
    ∀ (k : Nat) (targets : List Term) (d : Deduction), targets.length ≤ front.length →
      m.slots (front ++ extra) k targets d = m.slots front k targets d := by
  induction front with
  | nil =>
    intro k targets d hlength
    obtain rfl := List.length_eq_zero_iff.mp (Nat.le_zero.mp hlength)
    exact slots_defaults hextra k d
  | cons s front ih =>
    obtain ⟨hexp, hrest⟩ := List.forall_mem_cons.mp hfront
    intro k targets d hlength
    cases targets with
    | nil =>
      rw [List.cons_append, slots_cons_nil m hexp, slots_cons_nil m hexp,
        ih hrest k [] d (Nat.zero_le _)]
    | cons target targets =>
      have hlength' := Nat.le_of_succ_le_succ hlength
      rw [List.cons_append, slots_cons m hexp, slots_cons m hexp]
      exact congrArg _ (funext fun d' => ih hrest (k + 1) targets d' hlength')

end Matching

namespace Pattern

variable {p p' : Pattern}

theorem Extends.screen_eq (h : p.Extends p') {args : List Term}
    (hargs : args.length ≤ p.slots.length)
    (model : TypeModel) (flavor : Flavor) (explicitArgs : List Term) :
    p.screen model flavor args explicitArgs = p'.screen model flavor args explicitArgs := by
  obtain ⟨hfixed, extra, -, rfl, hextra⟩ := h
  have hfront : ∀ s ∈ p.slots, s.isExpansion = false := fun s hs =>
    Bool.eq_false_iff.mpr (List.any_eq_false.mp hfixed s hs)
  have hmatch : ∀ seed, p.match? model flavor.siteMode seed args =
      match? model flavor.siteMode { p with slots := p.slots ++ extra } seed args := by
    intro seed
    rw [match?, match?, Matching.run, Matching.run]
    dsimp only
    rw [Matching.slots_append hextra hfront _ _ _ hargs]
  rw [screen, screen]
  simp only [hmatch]
  rfl

theorem Extends.agreesAt (h : p.Extends p') {arity : Nat} (harity : arity ≤ p.slots.length) :
    p.AgreesAt arity p' := by
  obtain ⟨hfixed, extra, -, rfl, hextra⟩ := h
  refine ⟨rfl, rfl, ?_, ?_⟩
  · exact (List.take_append_of_le_length harity).symm
  · have hany : extra.any (·.isExpansion) = false :=
      List.any_eq_false.mpr fun s hs => Bool.eq_false_iff.mp (hextra s hs).1
    rw [isVariadic, isVariadic, List.any_append, hany, Bool.or_false]

theorem Extends.header (h : p.Extends p') : p.name = p'.name ∧ p.role = p'.role := by
  obtain ⟨-, extra, -, rfl, -⟩ := h
  exact ⟨rfl, rfl⟩

theorem header_of_extended (h : p' = p ∨ p.Extends p') : p.name = p'.name ∧ p.role = p'.role := by
  rcases h with rfl | hextends
  · exact ⟨rfl, rfl⟩
  · exact hextends.header

end Pattern

/-! ### Comparing -/

namespace Comparator

variable {c : Comparator} {a a' b b' : Pattern}

theorem sideAt_congr (hflavor : c.flavor = .functionLike)
    (hsupplied : c.rules.suppliedArgumentsOnly = true) {site : UseSite}
    (h : a.AgreesAt site.arity a') : c.sideAt (some site) a = c.sideAt (some site) a' := by
  simp only [sideAt, heed, hflavor, if_true, hsupplied, Side.take, Side.ofPattern, h.parameters,
    h.slots]

theorem weigh_congr (ha : a.isVariadic = a'.isVariadic) (hb : b.isVariadic = b'.isVariadic)
    (aSide bSide : Side) (conversions : Verdict) (aFromB bFromA : Bool) :
    c.weigh a b aSide bSide conversions aFromB bFromA =
      c.weigh a' b' aSide bSide conversions aFromB bFromA := by
  simp only [weigh, breakTie, ha, hb]

/-- **A comparison does not depend on slots without an argument.** -/
theorem compareAt_congr (hflavor : c.flavor = .functionLike)
    (hsupplied : c.rules.suppliedArgumentsOnly = true) {site : UseSite}
    (ha : a.AgreesAt site.arity a') (hb : b.AgreesAt site.arity b') :
    c.compareAt a b (some site) = c.compareAt a' b' (some site) := by
  rw [compareAt, compareAt, sideAt_congr hflavor hsupplied ha, sideAt_congr hflavor hsupplied hb]
  simp only [weigh_congr ha.isVariadic hb.isVariadic]

end Comparator

/-! ### Resolving -/

/-- The same candidate for a query, but for slots without an argument. -/
structure Candidate.AgreesAt (arity : Nat) (c c' : Candidate) : Prop where
  id : c.id = c'.id
  pattern : c.pattern.AgreesAt arity c'.pattern
  substitution : c.substitution = c'.substitution

/-- A query with these arguments takes `p` as it takes `p'`. -/
structure Pattern.AlikeFor (model : TypeModel) (args : List Term) (p p' : Pattern) : Prop where
  agrees : p.AgreesAt args.length p'
  screen : ∀ flavor explicitArgs,
    p.screen model flavor args explicitArgs = p'.screen model flavor args explicitArgs

theorem Pattern.AlikeFor.refl (model : TypeModel) (args : List Term) (p : Pattern) :
    p.AlikeFor model args p :=
  ⟨⟨rfl, rfl, rfl, rfl⟩, fun _ _ => rfl⟩

theorem Pattern.Extends.alikeFor {p p' : Pattern} (h : p.Extends p') (model : TypeModel)
    {args : List Term} (hargs : args.length ≤ p.slots.length) : p.AlikeFor model args p' :=
  ⟨h.agreesAt hargs, h.screen_eq hargs model⟩

section Lists

variable {α β γ : Type} {R : α → α → Prop}

theorem forall₂_pairs {l l' : List α} (h : List.Forall₂ R l l') :
    List.Forall₂ (fun e e' => R e.1 e'.1 ∧ R e.2 e'.2) (pairs l) (pairs l') := by
  induction h with
  | nil => exact .nil
  | @cons x x' l l' hx hl ih =>
    refine List.rel_append ?_ ih
    exact List.rel_map (fun _ _ hy => ⟨hx, hy⟩) hl

theorem mapM_congr_of_forall₂ {σ : Type} {f f' : α → StateM σ β} {l l' : List α}
    (h : List.Forall₂ R l l') (hf : ∀ x x', R x x' → f x = f' x') : l.mapM f = l'.mapM f' := by
  induction h with
  | nil => rfl
  | cons hx _ ih => rw [List.mapM_cons, List.mapM_cons, hf _ _ hx, ih]

theorem map_congr_of_forall₂ {f f' : α → β} {l l' : List α} (h : List.Forall₂ R l l')
    (hf : ∀ x x', R x x' → f x = f' x') : l.map f = l'.map f' := by
  induction h with
  | nil => rfl
  | cons hx _ ih => rw [List.map_cons, List.map_cons, hf _ _ hx, ih]

theorem forall₂_filter {f f' : α → Bool} {l l' : List α} (h : List.Forall₂ R l l')
    (hf : ∀ x x', R x x' → f x = f' x') : List.Forall₂ R (l.filter f) (l'.filter f') := by
  induction h with
  | nil => exact .nil
  | @cons x x' l l' hx _ ih =>
    rw [List.filter_cons, List.filter_cons, hf x x' hx]
    split
    · exact .cons hx ih
    · exact ih

theorem forall₂_getElem? {l l' : List α} (h : List.Forall₂ R l l') :
    ∀ i : Nat, Option.Rel R l[i]? l'[i]? := by
  induction h with
  | nil => exact fun _ => .none
  | cons hx _ ih =>
    intro i
    cases i with
    | zero => exact .some hx
    | succ i => exact ih i

end Lists

namespace Declarations

variable {d d' : Declarations} {rules : OrderingRules} {family : Family} {q : Query}

theorem compareCandidates_congr {c : Comparator} (hflavor : c.flavor = .functionLike)
    (hsupplied : c.rules.suppliedArgumentsOnly = true) {arity : Nat} {x x' y y' : Candidate}
    (hx : x.AgreesAt arity x') (hy : y.AgreesAt arity y') :
    compareCandidates c arity x y = compareCandidates c arity x' y' := by
  rw [compareCandidates, compareCandidates, hx.id, hy.id, hx.substitution, hy.substitution,
    Comparator.compareAt_congr hflavor hsupplied hx.pattern hy.pattern]

theorem graph_congr (hmodel : d.model = d'.model) (hsupplied : rules.suppliedArgumentsOnly = true)
    {arity : Nat} {viable viable' : List Candidate}
    (h : List.Forall₂ (Candidate.AgreesAt arity) viable viable') :
    d.graph rules .functionLike arity viable = d'.graph rules .functionLike arity viable' := by
  have hids : viable.map (·.id) = viable'.map (·.id) := map_congr_of_forall₂ h fun _ _ hc => hc.id
  have hcomparisons := mapM_congr_of_forall₂ (forall₂_pairs h) fun e e' he =>
    compareCandidates_congr (c := ⟨d.model, rules, .functionLike⟩) rfl hsupplied he.1 he.2
  rw [graph, graph, hids, ← hmodel]
  exact congrArg _ (congrArg (fun run => (run.run {}).1) hcomparisons)

theorem explicitAt?_congr (hmodel : d.model = d'.model)
    (hroles : ∀ id, (d.pattern? id).map (·.role) = (d'.pattern? id).map (·.role)) (of : PatternId)
    (templateArgs : List Term) :
    d.explicitAt? family of templateArgs = d'.explicitAt? family of templateArgs := by
  have hany : ∀ id, (d.pattern? id).any (isExplicitAt d.model of templateArgs) =
      (d'.pattern? id).any (isExplicitAt d'.model of templateArgs) := by
    intro id
    have hrole := hroles id
    rw [← hmodel]
    generalize d.pattern? id = entry, d'.pattern? id = entry' at hrole ⊢
    rcases entry with _ | p <;> rcases entry' with _ | p'
    · rfl
    · exact absurd hrole (Option.some_ne_none _).symm
    · exact absurd hrole (Option.some_ne_none _)
    · have hrole : p.role = p'.role := Option.some.inj hrole
      rw [Option.any_some, Option.any_some, isExplicitAt, isExplicitAt, hrole]
  rw [explicitAt?, explicitAt?, funext hany]

theorem select_congr (hmodel : d.model = d'.model)
    (hroles : ∀ id, (d.pattern? id).map (·.role) = (d'.pattern? id).map (·.role))
    {arity : Nat} {c c' : Candidate} (h : c.AgreesAt arity c') (path : SelectionPath) :
    d.select family q.primaryOnly path c = d'.select family q.primaryOnly path c' := by
  have hspecializes : c.pattern.specializes = c'.pattern.specializes := by
    rw [Pattern.specializes, Pattern.specializes, h.pattern.role]
  have hexplicit : d.explicitAt? family c.id = d'.explicitAt? family c.id :=
    funext (explicitAt?_congr hmodel hroles c.id)
  rw [select, select, Pattern.complete, Pattern.complete, hexplicit, hspecializes, ← hmodel, h.id,
    h.substitution, h.pattern.parameters]

/-- Patterns that are alike to a query are screened alike. -/
theorem screening_congr {model : TypeModel} {flavor : Flavor} {args explicitArgs : List Term}
    {entries entries' : List (PatternId × Pattern)}
    (h : List.Forall₂ (fun e e' => e.1 = e'.1 ∧ e.2.AlikeFor model args e'.2) entries entries') :
    let screening := Screening.ofPatterns model flavor args explicitArgs entries
    let screening' := Screening.ofPatterns model flavor args explicitArgs entries'
    List.Forall₂ (Candidate.AgreesAt args.length) screening.viable screening'.viable ∧
      screening.rejected = screening'.rejected := by
  induction h with
  | nil => exact ⟨.nil, rfl⟩
  | @cons e e' entries entries' he _ ih =>
    obtain ⟨hviable, hrejected⟩ := ih
    obtain ⟨hid, halike⟩ := he
    rw [Screening.ofPatterns, Screening.ofPatterns, ← halike.screen, hid]
    cases e.2.screen model flavor args explicitArgs with
    | ok σ => exact ⟨.cons ⟨rfl, halike.agrees, rfl⟩ hviable, hrejected⟩
    | error reason => exact ⟨hviable, congrArg ((e'.1, reason) :: ·) hrejected⟩

theorem forall₂_withIds {R : Pattern → Pattern → Prop} {ids : List PatternId}
    (h : ∀ id ∈ ids, Option.Rel R (d.pattern? id) (d'.pattern? id)) :
    List.Forall₂ (fun e e' => e.1 = e'.1 ∧ R e.2 e'.2) (d.withIds ids) (d'.withIds ids) := by
  induction ids with
  | nil => exact .nil
  | cons id ids ih =>
    obtain ⟨hid, hrest⟩ := List.forall_mem_cons.mp h
    have htail := ih hrest
    rw [withIds] at htail ⊢
    rw [withIds, List.filterMap_cons, List.filterMap_cons]
    generalize d.pattern? id = entry, d'.pattern? id = entry' at hid ⊢
    cases hid with
    | none => exact htail
    | some hp => exact .cons ⟨rfl, hp⟩ htail

theorem siteArgs_functionLike (hflavor : family.flavor = .functionLike) :
    d.siteArgs family q = q.args := by
  rw [siteArgs, hflavor]

/-- Overloads that are alike to a query are answered alike. -/
theorem resolveAmong_congr (hmodel : d.model = d'.model) (hflavor : family.flavor = .functionLike)
    (hsupplied : rules.suppliedArgumentsOnly = true)
    (hroles : ∀ id, (d.pattern? id).map (·.role) = (d'.pattern? id).map (·.role))
    (hcontenders : ∀ id ∈ family.contenders q.primaryOnly,
      Option.Rel (Pattern.AlikeFor d.model q.args) (d.pattern? id) (d'.pattern? id)) :
    d.resolveAmong rules family q q.args = d'.resolveAmong rules family q q.args := by
  have hsite : d.siteArgs family q = q.args := siteArgs_functionLike hflavor
  have hsite' : d'.siteArgs family q = q.args := siteArgs_functionLike hflavor
  obtain ⟨hviable, hrejected⟩ : List.Forall₂ (Candidate.AgreesAt q.args.length)
      (d.viable family q) (d'.viable family q) ∧
        (d.screening family q).rejected = (d'.screening family q).rejected := by
    rw [viable, viable, screening, screening, hsite, hsite', ← hmodel]
    exact screening_congr (forall₂_withIds hcontenders)
  have hselect : ∀ path c c', c.AgreesAt q.args.length c' →
      d.select family q.primaryOnly path c = d'.select family q.primaryOnly path c' :=
    fun path c c' h => select_congr hmodel hroles h path
  have hranking : d.ranking rules family q = d'.ranking rules family q := by
    rw [ranking, ranking, hflavor]
    exact graph_congr hmodel hsupplied hviable
  have hbest := forall₂_filter hviable fun c c' hc =>
    congrArg (d.ranking rules family q).isMaximal hc.id
  rw [← hsite]
  conv_rhs => rw [hsite, ← hsite']
  cases hv : d.viable family q with
  | nil =>
    rw [hv] at hviable
    rw [resolveAmong_nil hv, resolveAmong_nil (List.forall₂_nil_left_iff.mp hviable), hrejected]
  | cons c rest =>
    rw [hv] at hviable
    obtain ⟨c', rest', hc, hrest, hv'⟩ := List.forall₂_cons_left_iff.mp hviable
    cases hrest with
    | nil => rw [resolveAmong_singleton hv, resolveAmong_singleton hv', hselect _ c c' hc]
    | cons _ _ =>
      have hmany : 2 ≤ (d.viable family q).length := by
        rw [hv]
        exact Nat.le_add_left 2 _
      have hmany' : 2 ≤ (d'.viable family q).length := by
        rw [hv']
        exact Nat.le_add_left 2 _
      rw [resolveAmong_many hmany, resolveAmong_many hmany', ← hranking]
      generalize (d.viable family q).filter _ = best,
        (d'.viable family q).filter _ = best' at hbest ⊢
      rcases hbest with _ | ⟨hw, _ | _⟩
      · rfl
      · exact congrArg _ (hselect _ _ _ hw)
      · rfl

/-- The families depend on the names and the roles of what is recorded. -/
theorem families_foldl_record {ps ps' : List Pattern}
    (h : List.Forall₂ (fun p p' => p.name = p'.name ∧ p.role = p'.role) ps ps') :
    ∀ {d d' : Declarations}, d.families = d'.families → d.size = d'.size →
      (ps.foldl record d).families = (ps'.foldl record d').families := by
  induction h with
  | nil => exact fun hfamilies _ => hfamilies
  | @cons p p' ps ps' hp _ ih =>
    intro d d' hfamilies hsize
    refine ih ?_ ?_
    · rw [record, record, hp.1, hp.2, hfamilies, hsize]
    · rw [size_record, size_record, hsize]

end Declarations

namespace Registry

open Declarations (ofPatterns pattern?_ofPatterns)

/-- Overloads are recorded as they are. -/
theorem declarations_of_registerAll {ps : List Pattern} (hps : ∀ p ∈ ps, p.role = .overload) :
    ∀ {r r' : Registry}, r.registerAll ps = .ok r' →
      r'.declarations = ps.foldl Declarations.record r.declarations := by
  induction ps with
  | nil =>
    intro r r' h
    rw [← Except.ok.inj h, List.foldl_nil]
  | cons p ps ih =>
    obtain ⟨hp, hrest⟩ := List.forall_mem_cons.mp hps
    intro r r' h
    rw [registerAll] at h
    split at h
    · rename_i id r₁ hregister
      obtain ⟨accepted, -, haccept, -, rfl⟩ := register_inv hregister
      rcases Declarations.accept_inv haccept with rfl | ⟨-, of, ts, -, hrole, -⟩
      · exact ih hrest h
      · exact Role.noConfusion (hp.symm.trans hrole)
    · exact Except.noConfusion rfl rfl (heq_of_eq h)

/-- There is no class-like family where all patterns are overloads. -/
theorem Reachable.functionLike_of_overloads {r : Registry} (h : r.Reachable)
    (hoverloads : ∀ p ∈ r.declarations.patterns, p.role = .overload) {name : String} {f : Family}
    (hf : r.declarations.family? name = some f) : f.flavor = .functionLike := by
  cases hclass : f.flavor with
  | functionLike => rfl
  | classLike =>
    obtain ⟨p, hp, -, hprimary⟩ := h.linked.exists_primary hf hclass
    obtain ⟨id, -, hid⟩ := Option.bind_eq_some_iff.mp hp
    exact Role.noConfusion (hprimary.symm.trans (hoverloads p (List.mem_of_getElem? hid)))

section Extended

variable {model : TypeModel} {ps ps' : List Pattern}
  (hextended : List.Forall₂ (fun p p' => p' = p ∨ p.Extends p') ps ps')

include hextended

theorem role_of_extended (id : PatternId) : ((ofPatterns model ps).pattern? id).map (·.role) =
    ((ofPatterns model ps').pattern? id).map (·.role) := by
  have hrel := forall₂_getElem? hextended id
  rw [pattern?_ofPatterns, pattern?_ofPatterns]
  generalize ps[id]? = entry, ps'[id]? = entry' at hrel ⊢
  cases hrel with
  | none => rfl
  | some hpp' => exact congrArg some (Pattern.header_of_extended hpp').2

/-- What a query asks for is alike to it in both. -/
theorem alike_of_extended {q : Query}
    (hargs : ∀ e ∈ ps.zip ps', e.1.Extends e.2 → e.1.name = q.name →
      q.args.length ≤ e.1.slots.length) {id : PatternId} {p : Pattern}
    (hp : (ofPatterns model ps).pattern? id = some p) (hname : p.name = q.name) :
    Option.Rel (Pattern.AlikeFor model q.args) ((ofPatterns model ps).pattern? id)
      ((ofPatterns model ps').pattern? id) := by
  rw [pattern?_ofPatterns] at hp
  have hrel := forall₂_getElem? hextended id
  rw [pattern?_ofPatterns, pattern?_ofPatterns, hp]
  rw [hp] at hrel
  cases hp' : ps'[id]? with
  | none =>
    rw [hp'] at hrel
    cases hrel
  | some p' =>
    rw [hp'] at hrel
    cases hrel with
    | some hpp' =>
      have hzip : (p, p') ∈ ps.zip ps' :=
        List.mem_of_getElem? (List.getElem?_zip_eq_some.mpr ⟨hp, hp'⟩)
      rcases hpp' with rfl | hextends
      · exact .some (.refl model q.args p')
      · exact .some (hextends.alikeFor model (hargs _ hzip hextends hname))

end Extended

/-- **Arguments that are not supplied do not matter.**  Of two registries of overloads the second
declares the same as the first, except that some overloads without an expansion have more slots
with defaults behind their own.  If only supplied arguments are compared, a query resolves to the
same in both as long as it has no argument for such a slot. -/
theorem registerAll_resolve_extended {model : TypeModel} {ps ps' : List Pattern}
    (hps : ∀ p ∈ ps, p.role = .overload)
    (hextended : List.Forall₂ (fun p p' => p' = p ∨ p.Extends p') ps ps') {r r' : Registry}
    (hr : (empty model).registerAll ps = .ok r) (hr' : (empty model).registerAll ps' = .ok r')
    {rules : OrderingRules} (hsupplied : rules.suppliedArgumentsOnly = true) {q : Query}
    (hargs : ∀ e ∈ ps.zip ps', e.1.Extends e.2 → e.1.name = q.name →
      q.args.length ≤ e.1.slots.length) :
    r.declarations.resolve rules q = r'.declarations.resolve rules q := by
  have hps' : ∀ p' ∈ ps', p'.role = .overload := by
    intro p' hp'
    obtain ⟨p, hp, hpp'⟩ := (exists_mem_of_forall₂ hextended).2 p' hp'
    exact (Pattern.header_of_extended hpp').2 ▸ hps p hp
  have hd : r.declarations = ofPatterns model ps := declarations_of_registerAll hps hr
  have hd' : r'.declarations = ofPatterns model ps' := declarations_of_registerAll hps' hr'
  have hreachable : r.Reachable := .registerAll (.empty model) hr
  have hoverloads : ∀ p ∈ r.declarations.patterns, p.role = .overload := by
    rw [hd, Declarations.patterns_ofPatterns]
    exact hps
  have hfamilies : (ofPatterns model ps).families = (ofPatterns model ps').families :=
    Declarations.families_foldl_record
      (hextended.imp fun _ _ => Pattern.header_of_extended) rfl rfl
  have hfamily? : r.declarations.family? q.name = r'.declarations.family? q.name := by
    rw [hd, hd', Declarations.family?, Declarations.family?, hfamilies]
  have hmodel : r.declarations.model = r'.declarations.model := by
    rw [hd, hd', Declarations.model_ofPatterns, Declarations.model_ofPatterns]
  rw [Declarations.resolve, Declarations.resolve, ← hfamily?]
  cases hf : r.declarations.family? q.name with
  | none => rfl
  | some family =>
    have hflavor := hreachable.functionLike_of_overloads hoverloads hf
    have hroles : ∀ id, (r.declarations.pattern? id).map (·.role) =
        (r'.declarations.pattern? id).map (·.role) := by
      rw [hd, hd']
      exact role_of_extended hextended
    dsimp only
    rw [hflavor]
    refine Declarations.resolveAmong_congr hmodel hflavor hsupplied hroles fun id hid => ?_
    rw [hreachable.filed.contenders hf, Declarations.mem_idsWhere] at hid
    obtain ⟨p, hp, hcompetes⟩ := hid
    have hname : p.name = q.name := of_decide_eq_true ((Bool.and_eq_true _ _).mp hcompetes).1
    rw [hd] at hp
    rw [hd, hd', Declarations.model_ofPatterns]
    exact alike_of_extended hextended hargs hp hname

/-- Of `f(T)` and `f(T*)`, and of `f(T, int = 0)` and `f(T*, char = 0)`, a pointer alone goes to the
second; where all slots are compared, the latter two are not ordered. -/
theorem registerAll_resolve_extended_pointer :
    let parameters : List Parameter := [{ name := "T", kind := .type }]
    let overload (slots : List Slot) := Pattern.overload "f" parameters slots
    let int : Slot := ⟨.type "int", some (.value 0 "int")⟩
    let char : Slot := ⟨.type "char", some (.value 0 "char")⟩
    let byValue : Slot := ⟨.param 0, none⟩
    let byPointer : Slot := ⟨.pointer (.param 0), none⟩
    let ps := [overload [byValue], overload [byPointer]]
    let ps' := [overload [byValue, int], overload [byPointer, char]]
    let d := ps.foldl Declarations.record Registry.standard.declarations
    let d' := ps'.foldl Declarations.record Registry.standard.declarations
    let q : Query := { name := "f", args := [.pointer (.type "int")] }
    let σ := Substitution.empty.insert 0 (.single (.type "int"))
    let s : Selection := ⟨1, σ, .mostSpecialized, none⟩
    (∀ p ∈ ps, p.role = .overload) ∧ List.Forall₂ (fun p p' => p' = p ∨ p.Extends p') ps ps' ∧
      standard.registerAll ps = .ok { declarations := d } ∧
      standard.registerAll ps' = .ok { declarations := d' } ∧
      (∀ e ∈ ps.zip ps', e.1.Extends e.2 → e.1.name = q.name →
        q.args.length ≤ e.1.slots.length) ∧
      d.resolve {} q = .resolved s ∧ d'.resolve {} q = .resolved s ∧
      (d'.resolve { suppliedArgumentsOnly := false } q).selected = none := by
  intro parameters overload int char byValue byPointer ps ps' d d' q σ s
  have hps : ∀ p ∈ ps, p.role = .overload := by decide
  have hextends : ∀ first extra, first.isExpansion = false → extra.isExpansion = false →
      extra.default.isSome = true → (overload [first]).Extends (overload [first, extra]) := by
    intro first extra hfirst hexp hdefault
    refine ⟨by simp [overload, Pattern.overload, Pattern.isVariadic, hfirst], [extra],
      List.cons_ne_nil _ _, rfl, fun s hs => ?_⟩
    obtain rfl := List.mem_singleton.mp hs
    exact ⟨hexp, hdefault⟩
  have hextended : List.Forall₂ (fun p p' => p' = p ∨ p.Extends p') ps ps' :=
    .cons (.inr (hextends byValue int rfl rfl rfl))
      (.cons (.inr (hextends byPointer char rfl rfl rfl)) .nil)
  have hr : standard.registerAll ps = .ok { declarations := d } := rfl
  have hr' : standard.registerAll ps' = .ok { declarations := d' } := rfl
  have hargs : ∀ e ∈ ps.zip ps', e.1.Extends e.2 → e.1.name = q.name →
      q.args.length ≤ e.1.slots.length := by
    intro e he _ _
    have hslots : ∀ e ∈ ps.zip ps', q.args.length ≤ e.1.slots.length := by decide
    exact hslots e he
  have hresolve : d.resolve {} q = .resolved s := rfl
  have hsupplied : OrderingRules.suppliedArgumentsOnly {} = true := rfl
  refine ⟨hps, hextended, hr, hr', hargs, hresolve, ?_, rfl⟩
  rw [← registerAll_resolve_extended hps hextended hr hr' hsupplied hargs, hresolve]

end Registry

end TemplateResolution
