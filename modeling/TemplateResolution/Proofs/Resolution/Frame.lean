import TemplateResolution.Proofs.Registry.Coherence
import TemplateResolution.Proofs.Resolution.Dominance
import Mathlib.Data.List.Find

/-!
# Declarations that do not matter to a query

A declaration goes behind all others, so whatever the resolver looks up by number
stays what it was.  It can only matter to a query through the lists of the query's
own family: as a candidate, as the primary whose defaults complete the arguments,
or as an explicit specialization that replaces what was selected.

`Irrelevant` says when none of this happens, and `Reachable.resolve_frame` that the
query then resolves as before.  Where nothing takes the arguments, the report may
list one more pattern that does not.
-/

namespace TemplateResolution

/-- What a query selects before explicit specializations are considered: the pattern behind an
explicit specialization, or else the selected pattern itself. -/
def Resolution.base : Resolution → Option PatternId
  | resolved selection =>
    match selection.path with
    | .explicit => selection.specializes
    | .soleCandidate | .mostSpecialized => some selection.pattern
  | ambiguous _ | unmatched _ => none

namespace Declarations

/-- A pattern that a query has no use for. -/
inductive Irrelevant (d : Declarations) (rules : OrderingRules) (family : Family) (q : Query)
    (p : Pattern) : Prop
  /-- Another name is used. -/
  | elsewhere (hname : p.name ≠ q.name)
  /-- The pattern would compete, but it does not take the arguments. -/
  | rejected (hrole : p.role = .overload ∨ ∃ of, p.role = .partialOf of) (reason : Rejection)
      (hscreen : p.screen d.model family.flavor (d.siteArgs family q) q.explicitArgs =
        .error reason)
  /-- The pattern specializes an overload that is not the one selected. -/
  | otherOverload (of : PatternId) (templateArgs : List Term) (target : Pattern)
      (hrole : p.role = .explicitOf of templateArgs) (htarget : d.pattern? of = some target)
      (hoverload : target.role = .overload) (hother : (d.resolve rules q).base ≠ some of)

variable {d : Declarations} {rules : OrderingRules} {family family' : Family} {q : Query}
  {p : Pattern}

/-! ### What is looked up by number -/

theorem pattern?_record_of_lt {id : PatternId} (h : id < d.size) :
    (d.record p).pattern? id = d.pattern? id := by
  rw [pattern?_record, if_neg (Nat.ne_of_lt h)]

theorem withIds_record {ids : List PatternId} (h : ∀ id ∈ ids, id < d.size) :
    (d.record p).withIds ids = d.withIds ids := by
  refine List.filterMap_congr fun id hid => ?_
  rw [pattern?_record_of_lt (h id hid)]

theorem lt_size_of_mem_idsWhere {keep : Pattern → Bool} {id : PatternId}
    (h : id ∈ d.idsWhere keep) : id < d.size := by
  obtain ⟨p, hp, -⟩ := (d.mem_idsWhere keep).mp h
  exact lt_size_of_pattern? hp

theorem Filed.explicits_lt (h : d.Filed) (hf : d.family? q.name = some family) :
    ∀ id ∈ family.explicits, id < d.size := by
  intro id hid
  rw [(h.files hf).explicits] at hid
  exact lt_size_of_mem_idsWhere hid

theorem completeArgs_record {args : List Term} (hprimaries : family'.primaries = family.primaries)
    (hbound : ∀ id ∈ family.primaries, id < d.size) :
    (d.record p).completeArgs family' args = d.completeArgs family args := by
  have hprimary : family.primaries.head?.bind (d.record p).pattern? =
      family.primaries.head?.bind d.pattern? := by
    cases hhead : family.primaries.head? with
    | none => rfl
    | some id => exact pattern?_record_of_lt (hbound id (List.mem_of_head? hhead))
  rw [completeArgs, completeArgs, hprimaries, hprimary]
  rfl

/-- The target of an explicit specialization stands before it, so it is found as before. -/
theorem selectExplicit_record (h : d.Linked) {args : List Term} {id : PatternId}
    (hid : id < d.size) : (d.record p).selectExplicit args id = d.selectExplicit args id := by
  rw [selectExplicit, selectExplicit, pattern?_record_of_lt hid]
  cases hexplicit : d.pattern? id with
  | none => rfl
  | some explicit =>
    dsimp only
    cases hrole : explicit.role with
    | primary => rfl
    | overload => rfl
    | partialOf of => rfl
    | explicitOf of templateArgs =>
      obtain ⟨-, hof, -⟩ := h.explicits id of templateArgs explicit hexplicit hrole
      have hsubstitution : (d.record p).primarySubstitution of templateArgs =
          d.primarySubstitution of templateArgs := by
        rw [primarySubstitution, primarySubstitution,
          pattern?_record_of_lt (Nat.lt_trans hof hid)]
        rfl
      dsimp only
      rw [hsubstitution]
      rfl

theorem findSome?_selectExplicit_record (h : d.Linked) {args : List Term}
    (hexplicits : family'.explicits = family.explicits)
    (hbound : ∀ id ∈ family.explicits, id < d.size) :
    family'.explicits.findSome? ((d.record p).selectExplicit args) =
      family.explicits.findSome? (d.selectExplicit args) := by
  rw [hexplicits, ← List.head?_filterMap, ← List.head?_filterMap]
  refine congrArg List.head? (List.filterMap_congr fun id hid => ?_)
  exact selectExplicit_record h (hbound id hid)

/-- An explicit specialization of another pattern, or at other template arguments, is not found. -/
theorem explicitAt?_record {of : PatternId} {templateArgs : List Term} {new : List PatternId}
    (hexplicits : family'.explicits = family.explicits ++ new)
    (hbound : ∀ id ∈ family.explicits, id < d.size)
    (hnew : ∀ id ∈ new, id = d.size ∧ isExplicitAt d.model of templateArgs p = false) :
    (d.record p).explicitAt? family' of templateArgs = d.explicitAt? family of templateArgs := by
  have hnone : new.find? (fun id =>
      ((d.record p).pattern? id).any (isExplicitAt d.model of templateArgs)) = none := by
    refine List.find?_eq_none.mpr fun id hid => ?_
    obtain ⟨rfl, hother⟩ := hnew id hid
    rw [pattern?_record, if_pos rfl, Option.any_some, hother]
    exact Bool.false_ne_true
  have hold : family.explicits.find? (fun id =>
        ((d.record p).pattern? id).any (isExplicitAt d.model of templateArgs)) =
      family.explicits.find? fun id =>
        (d.pattern? id).any (isExplicitAt d.model of templateArgs) := by
    refine List.find?_congr fun id hid => ?_
    rw [pattern?_record_of_lt (hbound id hid)]
  show family'.explicits.find? (fun id =>
    ((d.record p).pattern? id).any (isExplicitAt d.model of templateArgs)) = _
  rw [hexplicits, List.find?_append, hnone, Option.or_none, hold]
  rfl

/-! ### Screening -/

/-- The patterns that compete, and behind them the new one if it does too. -/
theorem screening_record (h : d.Filed)
    (hf' : (d.record p).family? q.name = some family') (hflavor : family'.flavor = family.flavor)
    (hargs : (d.record p).siteArgs family' q = d.siteArgs family q) :
    (d.record p).screening family' q =
      Screening.ofPatterns d.model family.flavor (d.siteArgs family q) q.explicitArgs
        (d.withIds (d.idsWhere (Pattern.competes q)) ++
          if p.competes q then [(d.size, p)] else []) := by
  have hcontenders : (d.record p).withIds ((d.record p).idsWhere (Pattern.competes q)) =
      d.withIds (d.idsWhere (Pattern.competes q)) ++
        if p.competes q then [(d.size, p)] else [] := by
    rw [idsWhere_record, withIds, List.filterMap_append, ← withIds, ← withIds,
      withIds_record fun _ => lt_size_of_mem_idsWhere]
    cases p.competes q with
    | false => rfl
    | true => simp [withIds, pattern?_record]
  rw [(h.record p).screening hf', hcontenders, hargs, hflavor]
  rfl

/-- What does not take the arguments adds itself to the rejected, if it competes at all. -/
theorem screening_record_of_rejected (h : d.Filed) (hf : d.family? q.name = some family)
    (hf' : (d.record p).family? q.name = some family') (hflavor : family'.flavor = family.flavor)
    (hargs : (d.record p).siteArgs family' q = d.siteArgs family q)
    (hscreen : p.competes q = true → ∃ reason,
      p.screen d.model family.flavor (d.siteArgs family q) q.explicitArgs = .error reason) :
    (d.record p).viable family' q = d.viable family q ∧
      ∃ late, ((d.record p).screening family' q).rejected =
          (d.screening family q).rejected ++ late ∧
        (late = [] ∨ p.competes q = true ∧ ∃ reason, late = [(d.size, reason)] ∧
          p.screen d.model family.flavor (d.siteArgs family q) q.explicitArgs =
            .error reason) := by
  rw [viable, viable, screening_record h hf' hflavor hargs, h.screening hf,
    Screening.viable_ofPatterns, Screening.viable_ofPatterns, Screening.rejected_ofPatterns,
    Screening.rejected_ofPatterns, List.filterMap_append, List.filterMap_append]
  cases hcompetes : p.competes q with
  | false => exact ⟨List.append_nil _, [], rfl, .inl rfl⟩
  | true =>
    obtain ⟨reason, hreason⟩ := hscreen hcompetes
    refine ⟨?_, [(d.size, reason)], ?_, .inr ⟨rfl, reason, rfl, hreason⟩⟩
    · simp [hreason]
    · simp [hreason]

/-! ### Selection -/

theorem select_record (hflavor : family'.flavor = family.flavor) {w : Candidate}
    (hexplicit : family.flavor = .functionLike → ∀ templateArgs,
      (d.record p).explicitAt? family' w.id templateArgs = d.explicitAt? family w.id templateArgs)
    (primaryOnly : Bool) (path : SelectionPath) :
    (d.record p).select family' primaryOnly path w = d.select family primaryOnly path w := by
  rw [select, select, hflavor]
  cases hfamily : family.flavor with
  | classLike => rfl
  | functionLike =>
    rw [funext (hexplicit hfamily)]
    rfl

/-- Among the same candidates the same one is selected, whatever was recorded. -/
theorem resolveAmong_record (hflavor : family'.flavor = family.flavor)
    (hviable : (d.record p).viable family' q = d.viable family q)
    (hsome : d.viable family q ≠ [])
    (hselect : ∀ path, path ≠ .explicit → ∀ w ∈ d.viable family q,
      d.resolveAmong rules family q (d.siteArgs family q) =
          .resolved (d.select family q.primaryOnly path w) →
        (d.record p).select family' q.primaryOnly path w =
          d.select family q.primaryOnly path w) :
    (d.record p).resolveAmong rules family' q ((d.record p).siteArgs family' q) =
      d.resolveAmong rules family q (d.siteArgs family q) := by
  have hranking : (d.record p).ranking rules family' q = d.ranking rules family q := by
    rw [ranking, ranking, hviable, hflavor]
    rfl
  rcases hcandidates : d.viable family q with _ | ⟨u, _ | ⟨v, rest⟩⟩
  · exact absurd hcandidates hsome
  · have hsole : d.resolveAmong rules family q (d.siteArgs family q) = _ :=
      resolveAmong_singleton hcandidates
    rw [resolveAmong_singleton (hviable.trans hcandidates), hsole]
    have hu : u ∈ d.viable family q := by
      rw [hcandidates]
      exact List.mem_singleton_self u
    exact congrArg Resolution.resolved (hselect .soleCandidate SelectionPath.noConfusion u hu hsole)
  · have hmany : 2 ≤ (d.viable family q).length := by
      rw [hcandidates, List.length_cons, List.length_cons]
      omega
    have hresolve : d.resolveAmong rules family q (d.siteArgs family q) = _ :=
      resolveAmong_many hmany
    rw [resolveAmong_many (hviable ▸ hmany), hviable, hranking, hresolve]
    split
    · rename_i w hbest
      rw [hbest] at hresolve
      have hw : w ∈ d.viable family q :=
        List.mem_of_mem_filter (by rw [hbest]; exact List.mem_singleton_self w)
      exact congrArg Resolution.resolved
        (hselect .mostSpecialized SelectionPath.noConfusion w hw hresolve)
    · rfl

/-! ### The family of the query -/

/-- The explicit specialization that comes before all candidates, if there is one. -/
def explicitSelection (d : Declarations) (family : Family) (q : Query) : Option Selection :=
  match family.flavor with
  | .functionLike => none
  | .classLike =>
    if q.primaryOnly then none
    else family.explicits.findSome? (d.selectExplicit (d.siteArgs family q))

variable (rules) in
theorem resolve_eq_match (hf : d.family? q.name = some family) :
    d.resolve rules q =
      match d.explicitSelection family q with
      | some selection => .resolved selection
      | none => d.resolveAmong rules family q (d.siteArgs family q) := by
  rw [resolve, hf, explicitSelection, siteArgs]
  dsimp only
  cases family.flavor <;> rfl

section Record

variable (h : d.Linked) (hf : d.family? q.name = some family)
  (hf' : (d.record p).family? q.name = some family') (hflavor : family'.flavor = family.flavor)
  (hprimaries : family.flavor = .classLike → family'.primaries = family.primaries)
  (hexplicits : family.flavor = .classLike → family'.explicits = family.explicits)
include h hf hflavor hprimaries

theorem siteArgs_record : (d.record p).siteArgs family' q = d.siteArgs family q := by
  rw [siteArgs, siteArgs, hflavor]
  cases hfamily : family.flavor with
  | functionLike => rfl
  | classLike =>
    refine completeArgs_record (hprimaries hfamily) fun id hid => ?_
    rw [(h.filed.files hf).primaries] at hid
    exact lt_size_of_mem_idsWhere hid

include hexplicits in
theorem explicitSelection_record :
    (d.record p).explicitSelection family' q = d.explicitSelection family q := by
  have hargs := siteArgs_record (p := p) h hf hflavor hprimaries
  rw [explicitSelection, explicitSelection, hflavor, hargs]
  cases hfamily : family.flavor with
  | functionLike => rfl
  | classLike =>
    dsimp only
    rw [findSome?_selectExplicit_record h (hexplicits hfamily) (h.filed.explicits_lt hf)]

include hf' hexplicits in
/-- After a declaration that adds no candidate and does not touch the selection, a query resolves as
before, or as before nothing takes its arguments. -/
theorem resolve_record
    (hscreen : p.competes q = true → ∃ reason,
      p.screen d.model family.flavor (d.siteArgs family q) q.explicitArgs = .error reason)
    (hselect : ∀ path, path ≠ .explicit → ∀ w ∈ d.viable family q,
      d.resolve rules q = .resolved (d.select family q.primaryOnly path w) →
        (d.record p).select family' q.primaryOnly path w =
          d.select family q.primaryOnly path w) :
    (d.record p).resolve rules q = d.resolve rules q ∨
      p.competes q = true ∧ ∃ rejected reason, d.resolve rules q = .unmatched ⟨true, rejected⟩ ∧
        (d.record p).resolve rules q = .unmatched ⟨true, rejected ++ [(d.size, reason)]⟩ ∧
        p.screen d.model family.flavor (d.siteArgs family q) q.explicitArgs = .error reason := by
  have hargs := siteArgs_record (p := p) h hf hflavor hprimaries
  obtain ⟨hviable, late, hlate, hnew⟩ :=
    screening_record_of_rejected h.filed hf hf' hflavor hargs hscreen
  have hresolve := resolve_eq_match rules hf
  have hresolve' := resolve_eq_match rules hf'
  rw [explicitSelection_record h hf hflavor hprimaries hexplicits] at hresolve'
  cases hexplicit : d.explicitSelection family q with
  | some selection =>
    rw [hexplicit] at hresolve hresolve'
    exact .inl (hresolve'.trans hresolve.symm)
  | none =>
    rw [hexplicit] at hresolve hresolve'
    dsimp only at hresolve hresolve'
    by_cases hnone : d.viable family q = []
    · rw [resolveAmong_nil hnone] at hresolve
      rw [resolveAmong_nil (hviable.trans hnone), hlate] at hresolve'
      rcases hnew with rfl | ⟨hcompetes, reason, rfl, hreason⟩
      · rw [List.append_nil] at hresolve'
        exact .inl (hresolve'.trans hresolve.symm)
      · exact .inr ⟨hcompetes, _, reason, hresolve, hresolve', hreason⟩
    · refine .inl (hresolve'.trans (Eq.trans ?_ hresolve.symm))
      refine resolveAmong_record hflavor hviable hnone fun path hpath w hw hselected => ?_
      exact hselect path hpath w hw (hresolve.trans hselected)

end Record

/-- The selected overload is the base of the resolution. -/
theorem base_select {path : SelectionPath} {w : Candidate} (hpath : path ≠ .explicit)
    (primaryOnly : Bool) :
    (Resolution.resolved (d.select family primaryOnly path w)).base = some w.id := by
  rw [select]
  split
  · rfl
  · cases path with
    | explicit => exact absurd rfl hpath
    | soleCandidate => rfl
    | mostSpecialized => rfl

/-- A specialization of an overload is recorded in a family of overloads. -/
theorem flavor_of_overload (h : d.Linked) (hf : d.family? q.name = some family) {of : PatternId}
    {target : Pattern} (htarget : d.pattern? of = some target) (hname : target.name = q.name)
    (hoverload : target.role = .overload) : family.flavor = .functionLike := by
  have hbase : target.role.isBase = true := Role.isBase_iff.mpr (.inr hoverload)
  have hflavor := h.flavors family of target (hname ▸ hf) htarget hbase
  rw [hoverload] at hflavor
  exact hflavor.symm

/-- What is recorded for an irrelevant pattern is irrelevant. -/
theorem Irrelevant.accepted {p' : Pattern} (h : d.Irrelevant rules family q p')
    (haccept : d.accept p' = .ok p) : d.Irrelevant rules family q p := by
  rcases accept_inv haccept with rfl | ⟨hname, of, ts, ts', hrole, hrole'⟩
  · exact h
  · cases h with
    | elsewhere hother => exact .elsewhere (hname ▸ hother)
    | rejected hcompetes reason hscreen => simp [hrole] at hcompetes
    | otherOverload of' templateArgs target hrole'' htarget hoverload hother =>
      obtain ⟨rfl, -⟩ := Role.explicitOf.inj (hrole.symm.trans hrole'')
      exact .otherOverload of ts' target hrole' htarget hoverload hother

theorem Irrelevant.resolve_record (hirrelevant : d.Irrelevant rules family q p) (h : d.Linked)
    (hpassed : d.Passed p) (hf : d.family? q.name = some family) :
    (d.record p).resolve rules q = d.resolve rules q ∨
      p.competes q = true ∧ ∃ rejected reason, d.resolve rules q = .unmatched ⟨true, rejected⟩ ∧
        (d.record p).resolve rules q = .unmatched ⟨true, rejected ++ [(d.size, reason)]⟩ ∧
        p.screen d.model family.flavor (d.siteArgs family q) q.explicitArgs = .error reason := by
  have hbound := h.filed.explicits_lt hf
  by_cases hname : p.name = q.name
  · have hf' : (d.record p).family? q.name = some (family.add p.role d.size) := by
      rw [family?_record, if_pos hname, hname, hf]
      rfl
    have hflavor := family.flavor_add p.role d.size
    cases hirrelevant with
    | elsewhere hother => exact absurd hname hother
    | rejected hrole reason hscreen =>
      have hexplicits : (family.add p.role d.size).explicits = family.explicits := by
        rcases hrole with hrole | ⟨of, hrole⟩ <;> rw [hrole] <;> rfl
      have hprimaries : family.flavor = .classLike →
          (family.add p.role d.size).primaries = family.primaries := by
        intro hclass
        rcases hrole with hrole | ⟨of, hrole⟩
        · have hbase := (hpassed.base_inv (by rw [hrole]; rfl) (hname ▸ hf)).1
          rw [hclass, hrole] at hbase
          exact Flavor.noConfusion hbase
        · rw [hrole]
          rfl
      refine Declarations.resolve_record h hf hf' hflavor hprimaries (fun _ => hexplicits)
        (fun _ => ⟨reason, hscreen⟩) fun path _ w _ _ => ?_
      refine select_record hflavor (fun _ templateArgs => ?_) q.primaryOnly path
      exact explicitAt?_record (hexplicits.trans (List.append_nil _).symm) hbound
        fun _ hid => absurd hid List.not_mem_nil
    | otherOverload of templateArgs target hrole htarget hoverload hother =>
      obtain ⟨-, t, ht, htname, -⟩ := hpassed.explicit_inv hrole
      obtain rfl : t = target := Option.some.inj (ht.symm.trans htarget)
      have hfunction := flavor_of_overload h hf ht (htname.trans hname) hoverload
      have hclass : family.flavor ≠ .classLike := by
        rw [hfunction]
        exact Flavor.noConfusion
      have hcompetes : p.competes q = false := by
        simp [Pattern.competes, hrole, Role.isBase, Role.isPartial]
      have hexplicits : (family.add p.role d.size).explicits = family.explicits ++ [d.size] := by
        rw [hrole]
        rfl
      refine Declarations.resolve_record h hf hf' hflavor (fun h => absurd h hclass)
        (fun h => absurd h hclass) (fun h => absurd (hcompetes.symm.trans h) Bool.false_ne_true)
        fun path hpath w _ hselected => ?_
      have hne : of ≠ w.id := by
        rintro rfl
        rw [hselected, base_select hpath] at hother
        exact hother rfl
      refine select_record hflavor (fun _ templateArgs' => ?_) q.primaryOnly path
      refine explicitAt?_record hexplicits hbound fun id hid => ⟨List.mem_singleton.mp hid, ?_⟩
      simp [isExplicitAt, hrole, hne]
  · have hf' : (d.record p).family? q.name = some family := by
      rw [family?_record, if_neg hname, hf]
    have hcompetes : p.competes q = false := by
      rw [Pattern.competes, decide_eq_false hname, Bool.false_and]
    refine Declarations.resolve_record h hf hf' rfl (fun _ => rfl) (fun _ => rfl)
      (fun h => absurd (hcompetes.symm.trans h) Bool.false_ne_true) fun path _ w _ _ => ?_
    refine select_record rfl (fun _ templateArgs => ?_) q.primaryOnly path
    exact explicitAt?_record (List.append_nil _).symm hbound
      fun _ hid => absurd hid List.not_mem_nil

end Declarations

/-- **A declaration that a query has no use for does not change what the query resolves to.**  Only
if nothing takes the arguments may the report list one more pattern, behind all others. -/
theorem Registry.Reachable.resolve_frame {r r' : Registry} (hr : r.Reachable) {p : Pattern}
    {id : PatternId} (hp : r.register p = .ok (id, r')) (rules : OrderingRules) (q : Query)
    {family : Family} (hfamily : r.declarations.family? q.name = some family)
    (hirrelevant : r.declarations.Irrelevant rules family q p) :
    r'.declarations.resolve rules q = r.declarations.resolve rules q ∨
      ∃ rejected reason, r.declarations.resolve rules q = .unmatched ⟨true, rejected⟩ ∧
        r'.declarations.resolve rules q = .unmatched ⟨true, rejected ++ [(id, reason)]⟩ ∧
        p.screen r.declarations.model family.flavor (r.declarations.siteArgs family q)
          q.explicitArgs = .error reason := by
  obtain ⟨accepted, -, haccept, rfl, rfl⟩ := register_inv hp
  have hpassed := Declarations.accept_cases haccept
  rcases (hirrelevant.accepted haccept).resolve_record hr.linked hpassed hfamily with
    hsame | ⟨hcompetes, rejected, reason, hbefore, hafter, hscreen⟩
  · exact .inl hsame
  · rcases Declarations.accept_inv haccept with rfl | ⟨-, of, ts, ts', -, hrole⟩
    · exact .inr ⟨rejected, reason, hbefore, hafter, hscreen⟩
    · -- an explicit specialization does not compete
      simp [Pattern.competes, hrole, Role.isBase, Role.isPartial] at hcompetes

/-- Of `f(T)` and `f(T*)`, a pointer argument goes to the second, whether or not the first has an
explicit specialization for that pointer. -/
theorem Registry.Reachable.resolve_frame_sibling :
    let pointer : Term := .pointer (.type "int")
    let parameters : List Parameter := [{ name := "T", kind := .type }]
    let byValue := Pattern.overload "f" parameters [⟨.param 0, none⟩]
    let byPointer := Pattern.overload "f" parameters [⟨.pointer (.param 0), none⟩]
    let d := [byValue, byPointer].foldl Declarations.record Registry.standard.declarations
    let explicit := Pattern.explicitAt "f" 0 [pointer]
    let d' := d.record { explicit with slots := [⟨pointer, none⟩] }
    let family : Family := { name := "f", flavor := .functionLike, primaries := [0, 1] }
    let q : Query := { name := "f", args := [pointer] }
    let selection : Selection :=
      ⟨1, Substitution.empty.insert 0 (.single (.type "int")), .mostSpecialized, none⟩
    Registry.Reachable { declarations := d } ∧
      Registry.register { declarations := d } explicit = .ok (2, { declarations := d' }) ∧
      d.family? q.name = some family ∧ d.Irrelevant {} family q explicit ∧
      d.resolve {} q = .resolved selection ∧ d'.resolve {} q = .resolved selection := by
  intro pointer parameters byValue byPointer d explicit d' family q selection
  have haccepted : Registry.standard.registerAll [byValue, byPointer] =
      .ok { declarations := d } := rfl
  have hr : Registry.Reachable { declarations := d } :=
    Registry.Reachable.registerAll (.empty AliasTable.empty.model) haccepted
  have hregistered : Registry.register { declarations := d } explicit =
      .ok (2, { declarations := d' }) := rfl
  have hfamily : d.family? q.name = some family := rfl
  have hresolve : d.resolve {} q = .resolved selection := rfl
  have hother : (d.resolve {} q).base ≠ some 0 := by
    rw [hresolve]
    decide
  have hirrelevant : d.Irrelevant {} family q explicit :=
    .otherOverload 0 [pointer] byValue rfl rfl rfl hother
  refine ⟨hr, hregistered, hfamily, hirrelevant, hresolve, ?_⟩
  rcases hr.resolve_frame hregistered {} q hfamily hirrelevant with
    hsame | ⟨rejected, reason, hbefore, -⟩
  · exact hsame.trans hresolve
  · exact Resolution.noConfusion (hresolve.symm.trans hbefore)

end TemplateResolution
