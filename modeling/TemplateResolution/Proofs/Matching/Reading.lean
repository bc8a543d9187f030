import TemplateResolution.Matching.Slots
import TemplateResolution.Proofs.Term.Normal

/-!
# Reading a target

A match does two things at once: it takes the target apart along the pattern, and
it binds parameters on the way.  The first does not depend on the second, so the
two can be told apart.  `read` takes the target apart and lists what it finds: a
clue for each place of the pattern that says something about the substitution, and
for an expansion the clues to each element.  `follow` then binds, confirms and
defers as the clues say, in order.

A match is a reading that is followed (`unify_eq`, `run_eq`).  So what a match does
to its bindings can be shown clue by clue, and what depends on the shapes of the
two terms alone needs no bindings.
-/

namespace TemplateResolution

/-- What one place of a pattern says about the substitution. -/
inductive Clue where
  /-- The parameter stands for the target. -/
  | bind (id : ParamId) (target : Term)
  /-- The pattern becomes the target once everything is bound. -/
  | defer (pattern target : Term)
  /-- The argument gains qualifiers on its way to the parameter. -/
  | convert (c : Conversion)

inductive Finding where
  | clue (c : Clue)
  /-- One element of `pack` for each target, with the clues to that element. -/
  | elements (pack : ParamId) (found : List (Term × List Clue))

namespace Finding

/-- The clues of a reading that runs over no pack. -/
def clues? : List Finding → Option (List Clue)
  | [] => some []
  | clue c :: found => (clues? found).map (c :: ·)
  | elements _ _ :: _ => none

/-- Two readings, one after the other. -/
def join (first second : Option (List Finding)) : Option (List Finding) :=
  first.bind fun found => second.map (found ++ ·)

theorem clues?_eq_some {found : List Finding} {cs : List Clue} :
    clues? found = some cs ↔ found = cs.map clue := by
  induction found generalizing cs with
  | nil => cases cs <;> simp [clues?]
  | cons f found ih =>
    cases f with
    | clue c =>
      rw [clues?, Option.map_eq_some_iff]
      constructor
      · rintro ⟨cs', hcs', rfl⟩
        rw [ih.mp hcs', List.map_cons]
      · intro h
        cases cs with
        | nil => exact absurd h (List.cons_ne_nil _ _)
        | cons c' cs' =>
          obtain ⟨hc, hfound⟩ := List.cons.inj h
          exact ⟨cs', ih.mpr hfound, by rw [Finding.clue.inj hc]⟩
    | elements pack xs => cases cs <;> simp [clues?]

theorem join_eq_some {first second : Option (List Finding)} {found : List Finding} :
    join first second = some found ↔
      ∃ xs ys, first = some xs ∧ second = some ys ∧ found = xs ++ ys := by
  cases first <;> cases second <;> simp [join, eq_comm]

end Finding

/-! ### Following clues -/

namespace Deduction

variable (m : Matching)

def followClue : Clue → Deduction → Option Deduction
  | .bind id t, d => d.bindArgument m id t
  | .defer pattern t, d => some (d.defer pattern t)
  | .convert c, d => some { d with substitution := d.substitution.recordConversion c }

def followClues : List Clue → Deduction → Option Deduction
  | [], d => some d
  | c :: cs, d => (d.followClue m c).bind fun d' => followClues cs d'

/-- The elements that the clues for each target lead to. -/
def gather (pack : ParamId) : List (Term × List Clue) → Deduction → Option (List Term × Deduction)
  | [], d => some ([], d)
  | (target, cs) :: found, d =>
    match { d with element := some (pack, none) }.followClues m cs with
    | none => none
    | some d' =>
      match d'.element with
      | some (_, some t) =>
        match gather pack found { d' with element := none } with
        | none => none
        | some (ts, d'') => some (target.expandedLike t :: ts, d'')
      | _ => none

def followFinding : Finding → Deduction → Option Deduction
  | .clue c, d => d.followClue m c
  | .elements pack found, d =>
    match d.element with
    | none => (d.gather m pack found).bind fun (ts, d') => d'.bindPack m pack ts
    | some _ => none

def follow : List Finding → Deduction → Option Deduction
  | [], d => some d
  | f :: found, d => (d.followFinding m f).bind fun d' => follow found d'

variable {m}

@[simp] theorem follow_singleton (f : Finding) (d : Deduction) :
    d.follow m [f] = d.followFinding m f := by
  simp [follow]

theorem follow_append (xs ys : List Finding) (d : Deduction) :
    d.follow m (xs ++ ys) = (d.follow m xs).bind fun d' => d'.follow m ys := by
  induction xs generalizing d with
  | nil => rfl
  | cons f xs ih => simp [follow, ih, Option.bind_assoc]

theorem join_bind_follow (first second : Option (List Finding)) (d : Deduction) :
    ((Finding.join first second).bind fun found => d.follow m found) =
      (first.bind fun found => d.follow m found).bind fun d' =>
        second.bind fun found => d'.follow m found := by
  cases first with
  | none => rfl
  | some xs =>
    cases second with
    | none => simp [Finding.join]
    | some ys => simp [Finding.join, follow_append]

/-! ### The pack in progress -/

theorem element_bindSingle {id : ParamId} {t : Term} {d d' : Deduction}
    (h : d.bindSingle m id t = some d') : d'.element = d.element := by
  rw [bindSingle] at h
  split at h
  · exact absurd h (Option.some_ne_none d').symm
  · split at h
    · exact absurd h (Option.some_ne_none d').symm
    · split at h
      · split at h
        · rw [Option.some.inj h]
        · exact absurd h (Option.some_ne_none d').symm
      · exact absurd h (Option.some_ne_none d').symm
      · rw [← Option.some.inj h]

theorem isSome_element_followClue {c : Clue} {d d' : Deduction}
    (h : d.followClue m c = some d') : d'.element.isSome = d.element.isSome := by
  cases c with
  | defer pattern t => rw [← Option.some.inj h, defer]
  | convert c => rw [← Option.some.inj h]
  | bind id t =>
    rw [followClue, bindArgument] at h
    split at h
    · rw [bind] at h
      rcases helement : d.element with _ | ⟨pack, found⟩
      · rw [helement] at h
        rw [element_bindSingle h, helement]
      · rw [helement] at h
        dsimp only at h
        split at h
        · cases found with
          | none => rw [← Option.some.inj h]; rfl
          | some u =>
            rw [bindElement] at h
            split at h
            · rw [← Option.some.inj h, helement]
            · exact absurd h (Option.some_ne_none d').symm
        · rw [element_bindSingle h, helement]
    · exact absurd h (Option.some_ne_none d').symm

/-- While an element is being found, no other pack can be. -/
theorem follow_of_element {found : List Finding} {d : Deduction} (hd : d.element.isSome = true) :
    d.follow m found = (Finding.clues? found).bind fun cs => d.followClues m cs := by
  induction found generalizing d with
  | nil => rfl
  | cons f found ih =>
    cases f with
    | elements pack xs =>
      obtain ⟨element, helement⟩ := Option.isSome_iff_exists.mp hd
      simp [follow, followFinding, helement, Finding.clues?]
    | clue c =>
      rw [follow, followFinding, Finding.clues?]
      cases hc : d.followClue m c with
      | none => cases Finding.clues? found <;> simp [followClues, hc]
      | some d' =>
        have hd' : d'.element.isSome = true := (isSome_element_followClue hc).trans hd
        rw [Option.bind_some, ih hd']
        cases Finding.clues? found <;> simp [followClues, hc]

end Deduction

/-! ### Reading -/

namespace Matching

/-- The conversion, if one is needed, by which a target with the qualifiers `given` meets a
pattern that wants others. -/
def gain (m : Matching) (wanted given : Qualifiers) (position : Nat) : Option (List Finding) :=
  if given.includes wanted then some []
  else if m.mode = .call && m.model.mayQualify given wanted then
    some [.clue (.convert ⟨position, wanted.without given⟩)]
  else none

def readElements (f : Nat → Term → Option (List Finding)) :
    Nat → List Term → Option (List (Term × List Clue))
  | _, [] => some []
  | k, t :: ts =>
    match (f k t.expanded).bind Finding.clues? with
    | some cs => (readElements f (k + 1) ts).map ((t, cs) :: ·)
    | none => none

def readExpansion (m : Matching) (inner : Term) (f : Nat → Term → Option (List Finding))
    (targets : List Term) : Option (List Finding) :=
  match m.packOf inner with
  | some pack => (readElements f 0 targets).map fun found => [.elements pack found]
  | none => none

mutual

/-- What a pattern finds in a target, which belongs to the argument at `position`. -/
def read (m : Matching) : Term → Term → Nat → Option (List Finding)
  | .param id, target, _ => some [.clue (.bind id target)]
  | .offset base delta, target, _ => some [.clue (.defer (.offset base delta) target)]
  | .qualified quals inner, target, position =>
    Finding.join (m.gain quals target.quals position)
      (read m inner (target.withoutQuals quals) position)
  | .placeholder a, .placeholder b, _ => if a = b then some [] else none
  | .type a, .type b, _ => if m.model.sameLeaf a b then some [] else none
  | .template a, .template b, _ => if m.model.sameLeaf a b then some [] else none
  | .value a s, .value b t, _ => if a = b && m.model.sameLeaf s t then some [] else none
  | .pointer p, .pointer t, position => read m p t position
  | .reference k p, .reference l t, position => if k = l then read m p t position else none
  | .apply head args, .apply head' args', position =>
    Finding.join (read m head head' position) (readList m args args' position)
  | _, _, _ => none

def readList (m : Matching) : List Term → List Term → Nat → Option (List Finding)
  | [], [], _ => some []
  | [], _ :: _, _ => none
  | .expansion inner :: patterns, targets, position =>
    Finding.join (m.readExpansion inner (fun _ target => read m inner target position) targets)
      (readList m patterns [] position)
  | _ :: _, [], _ => none
  | pattern :: patterns, target :: targets, position =>
    Finding.join (read m pattern target position) (readList m patterns targets position)

end

theorem readList_cons (m : Matching) {pattern : Term} (h : pattern.isExpansion = false)
    (patterns : List Term) (target : Term) (targets : List Term) (k : Nat) :
    m.readList (pattern :: patterns) (target :: targets) k =
      Finding.join (m.read pattern target k) (m.readList patterns targets k) := by
  cases pattern with
  | expansion inner => exact Bool.noConfusion h
  | _ =>
    rw [readList]
    exact fun _ he => Term.noConfusion he

theorem readList_cons_nil (m : Matching) {pattern : Term} (h : pattern.isExpansion = false)
    (patterns : List Term) (k : Nat) : m.readList (pattern :: patterns) [] k = none := by
  cases pattern with
  | expansion inner => exact Bool.noConfusion h
  | _ => simp [readList]

/-! ### A match is a reading that is followed -/

variable {m : Matching}

theorem collect_eq {pack : ParamId} {step : Nat → Term → Deduction → Option Deduction}
    {f : Nat → Term → Option (List Finding)}
    (hstep : ∀ k t d, step k t d = (f k t).bind fun found => d.follow m found)
    (k : Nat) (targets : List Term) (d : Deduction) :
    Deduction.collect pack step k targets d =
      (readElements f k targets).bind fun found => d.gather m pack found := by
  induction targets generalizing k d with
  | nil => rfl
  | cons target targets ih =>
    have hfollow : ∀ found, { d with element := some (pack, none) }.follow m found =
        (Finding.clues? found).bind
          fun cs => { d with element := some (pack, none) }.followClues m cs :=
      fun found => Deduction.follow_of_element rfl
    rw [Deduction.collect, readElements, hstep]
    simp only [hfollow, ← Option.bind_assoc]
    cases (f k target.expanded).bind Finding.clues? with
    | none => rfl
    | some cs =>
      simp only [Option.bind_some, ih]
      cases hd : { d with element := some (pack, none) }.followClues m cs with
      | none =>
        cases readElements f (k + 1) targets with
        | none => rfl
        | some found => simp only [Option.map_some, Option.bind_some, Deduction.gather, hd]
      | some d' =>
        cases readElements f (k + 1) targets with
        | none =>
          dsimp only
          rcases d'.element with _ | ⟨_, _ | t⟩ <;> rfl
        | some found =>
          rewrite [Option.map_some, Option.bind_some, Deduction.gather, hd]
          rcases d'.element with _ | ⟨_, _ | t⟩ <;> rfl

theorem expand_eq (inner : Term) {step : Nat → Term → Deduction → Option Deduction}
    {f : Nat → Term → Option (List Finding)}
    (hstep : ∀ k t d, step k t d = (f k t).bind fun found => d.follow m found)
    (targets : List Term) (d : Deduction) :
    d.expand m inner step targets =
      (m.readExpansion inner f targets).bind fun found => d.follow m found := by
  rw [Deduction.expand, readExpansion]
  cases m.packOf inner with
  | none => rfl
  | some pack =>
    cases helement : d.element with
    | some element =>
      cases readElements f 0 targets with
      | none => rfl
      | some found => simp [Deduction.followFinding, helement]
    | none =>
      simp only [collect_eq hstep]
      cases readElements f 0 targets with
      | none => rfl
      | some found =>
        simp only [Option.map_some, Option.bind_some, Deduction.follow_singleton,
          Deduction.followFinding, helement]
        cases d.gather m pack found <;> rfl

theorem gain_bind_follow (wanted given : Qualifiers) (k : Nat) (d : Deduction) :
    ((m.gain wanted given k).bind fun found => d.follow m found) =
      d.admitQualifiers m wanted given k := by
  rw [gain, Deduction.admitQualifiers]
  split
  · rfl
  · split <;> rfl

mutual

theorem unify_eq : ∀ (p t : Term) (k : Nat) (d : Deduction),
    m.unify p t k d = (m.read p t k).bind fun found => d.follow m found
  | .param id, t, k, d => by
    rw [unify, read, Option.bind_some, Deduction.follow_singleton]
    rfl
  | .offset base delta, t, k, d => by
    rw [unify, read, Option.bind_some, Deduction.follow_singleton]
    rfl
  | .qualified quals inner, t, k, d => by
    rw [unify, read, Deduction.join_bind_follow, gain_bind_follow]
    cases d.admitQualifiers m quals t.quals k with
    | none => rfl
    | some d' => exact unify_eq inner (t.withoutQuals quals) k d'
  | .placeholder a, t, k, d => by
    cases t with
    | placeholder b => rw [unify, read]; split <;> rfl
    | _ => simp [unify, read]
  | .type a, t, k, d => by
    cases t with
    | type b => rw [unify, read]; split <;> rfl
    | _ => simp [unify, read]
  | .template a, t, k, d => by
    cases t with
    | template b => rw [unify, read]; split <;> rfl
    | _ => simp [unify, read]
  | .value a s, t, k, d => by
    cases t with
    | value b u => rw [unify, read]; split <;> rfl
    | _ => simp [unify, read]
  | .pointer p, t, k, d => by
    cases t with
    | pointer t => rw [unify, read, unify_eq p t k d]
    | _ => simp [unify, read]
  | .reference kind p, t, k, d => by
    cases t with
    | reference kind' t =>
      rw [unify, read]
      split
      · exact unify_eq p t k d
      · rfl
    | _ => simp [unify, read]
  | .expansion inner, t, k, d => by cases t <;> simp [unify, read]
  | .apply head args, t, k, d => by
    cases t with
    | apply head' args' =>
      rw [unify, read, Deduction.join_bind_follow, unify_eq head head' k d]
      cases (m.read head head' k).bind fun found => d.follow m found with
      | none => rfl
      | some d' => exact unifyList_eq args args' k d'
    | _ => simp [unify, read]

theorem unifyList_eq : ∀ (ps ts : List Term) (k : Nat) (d : Deduction),
    m.unifyList ps ts k d = (m.readList ps ts k).bind fun found => d.follow m found
  | [], ts, k, d => by cases ts <;> rfl
  | p :: ps, ts, k, d => by
    by_cases hexp : p.isExpansion = true
    · obtain ⟨inner, rfl⟩ := Term.exists_of_isExpansion hexp
      rw [unifyList, readList, Deduction.join_bind_follow,
        expand_eq inner (fun _ t d => unify_eq inner t k d) ts d]
      cases (m.readExpansion inner (fun _ t => m.read inner t k) ts).bind
          fun found => d.follow m found with
      | none => rfl
      | some d' => exact unifyList_eq ps [] k d'
    · rw [Bool.not_eq_true] at hexp
      cases ts with
      | nil => rw [unifyList_cons_nil m hexp, readList_cons_nil m hexp]; rfl
      | cons t ts =>
        rw [unifyList_cons m hexp, readList_cons m hexp, Deduction.join_bind_follow,
          unify_eq p t k d]
        cases (m.read p t k).bind fun found => d.follow m found with
        | none => rfl
        | some d' => exact unifyList_eq ps ts k d'

end

/-! ### Positions and slots -/

def readCall (m : Matching) (pattern arg : Term) (position : Nat) : Option (List Finding) :=
  match pattern with
  | .reference .rvalue inner =>
    match m.forwarded inner, arg.isLvalue with
    | some id, true => some [.clue (.bind id (arg.referee.refer .lvalue))]
    | none, true => none
    | _, false => m.read inner arg.referee position
  | .reference .lvalue inner =>
    if arg.isLvalue || inner.quals.isConst then m.read inner arg.referee position else none
  | byValue => m.read byValue.unqualified arg.undecorated position

def readPosition (m : Matching) (pattern target : Term) (position : Nat) : Option (List Finding) :=
  match m.mode with
  | .structural => m.read pattern target position
  | .ordering => m.read pattern.undecorated target.undecorated position
  | .call => m.readCall pattern target position

def readSlots (m : Matching) : List Slot → Nat → List Term → Option (List Finding)
  | [], _, [] => some []
  | [], _, _ :: _ => none
  | ⟨.expansion inner, _⟩ :: rest, k, targets =>
    Finding.join
      (m.readExpansion inner (fun i target => m.readPosition inner target (k + i)) targets)
      (m.readSlots rest (k + targets.length) [])
  | ⟨_, some _⟩ :: rest, k, [] => m.readSlots rest k []
  | ⟨_, none⟩ :: _, _, [] => none
  | ⟨term, _⟩ :: rest, k, target :: targets =>
    Finding.join (m.readPosition term target k) (m.readSlots rest (k + 1) targets)

theorem readSlots_cons (m : Matching) {slot : Slot} (h : slot.isExpansion = false)
    (rest : List Slot) (k : Nat) (target : Term) (targets : List Term) :
    m.readSlots (slot :: rest) k (target :: targets) =
      Finding.join (m.readPosition slot.term target k) (m.readSlots rest (k + 1) targets) := by
  obtain ⟨term, default⟩ := slot
  cases term with
  | expansion inner => exact Bool.noConfusion h
  | _ =>
    rw [readSlots]
    exact fun _ he => Term.noConfusion he

theorem readSlots_cons_nil (m : Matching) {slot : Slot} (h : slot.isExpansion = false)
    (rest : List Slot) (k : Nat) :
    m.readSlots (slot :: rest) k [] =
      if slot.default.isSome then m.readSlots rest k [] else none := by
  obtain ⟨term, default⟩ := slot
  cases term with
  | expansion inner => exact Bool.noConfusion h
  | _ => cases default <;> simp [readSlots]

/-- A forwarding reference binds an lvalue reference, which any type parameter accepts. -/
theorem bindArgument_of_forwarded {inner : Term} {id : ParamId} (h : m.forwarded inner = some id)
    (t : Term) (d : Deduction) :
    d.bindArgument m id (t.refer .lvalue) = d.bind m id (t.refer .lvalue) := by
  have hid : m.parameters[id]?.any (m.model.argumentKind · = .type) = true := by
    cases inner with
    | param j =>
      rw [forwarded] at h
      split at h
      · rename_i hguard
        rw [← Option.some.inj h]
        exact ((Bool.and_eq_true _ _).mp hguard).1
      · exact absurd h (Option.some_ne_none id).symm
    | _ => exact absurd h (Option.some_ne_none id).symm
  obtain ⟨p, hp, hkind⟩ := (Option.any_eq_true _ _).mp hid
  have htype : (t.refer .lvalue).isTypeLike = true := by cases t <;> rfl
  have haccepts : m.parameters[id]?.any (m.model.accepts · (t.refer .lvalue)) = true := by
    simpa [hp, TypeModel.accepts, of_decide_eq_true hkind] using htype
  rw [Deduction.bindArgument, haccepts, if_pos rfl]

theorem callPosition_eq (pattern arg : Term) (k : Nat) (d : Deduction) :
    m.callPosition pattern arg k d =
      (m.readCall pattern arg k).bind fun found => d.follow m found := by
  cases pattern with
  | reference kind inner =>
    cases kind with
    | lvalue =>
      rw [callPosition, readCall]
      split
      · exact unify_eq inner arg.referee k d
      · rfl
    | rvalue =>
      rw [callPosition, readCall]
      cases hforwarded : m.forwarded inner with
      | none =>
        cases arg.isLvalue with
        | true => rfl
        | false => exact unify_eq inner arg.referee k d
      | some id =>
        cases arg.isLvalue with
        | true =>
          rw [Option.bind_some, Deduction.follow_singleton]
          exact (bindArgument_of_forwarded hforwarded arg.referee d).symm
        | false => exact unify_eq inner arg.referee k d
  | _ => exact unify_eq _ arg.undecorated k d

theorem position_eq (pattern target : Term) (k : Nat) (d : Deduction) :
    m.position pattern target k d =
      (m.readPosition pattern target k).bind fun found => d.follow m found := by
  rw [position, readPosition]
  cases m.mode with
  | structural => exact unify_eq pattern target k d
  | ordering => exact unify_eq pattern.undecorated target.undecorated k d
  | call => exact callPosition_eq pattern target k d

theorem slots_eq (slots : List Slot) : ∀ (k : Nat) (targets : List Term) (d : Deduction),
    m.slots slots k targets d =
      (m.readSlots slots k targets).bind fun found => d.follow m found := by
  induction slots with
  | nil => intro k targets d; cases targets <;> rfl
  | cons slot rest ih =>
    intro k targets d
    by_cases hexp : slot.isExpansion = true
    · obtain ⟨term, default⟩ := slot
      obtain ⟨inner, rfl⟩ := Term.exists_of_isExpansion hexp
      rw [slots, readSlots, Deduction.join_bind_follow,
        expand_eq inner (fun i t d => position_eq inner t (k + i) d) targets d]
      cases (m.readExpansion inner (fun i t => m.readPosition inner t (k + i)) targets).bind
          fun found => d.follow m found with
      | none => rfl
      | some d' => exact ih (k + targets.length) [] d'
    · rw [Bool.not_eq_true] at hexp
      cases targets with
      | nil =>
        rw [slots_cons_nil m hexp, readSlots_cons_nil m hexp]
        split
        · exact ih k [] d
        · rfl
      | cons t targets =>
        rw [slots_cons m hexp, readSlots_cons m hexp, Deduction.join_bind_follow, position_eq]
        cases (m.readPosition slot.term t k).bind fun found => d.follow m found with
        | none => rfl
        | some d' => exact ih (k + 1) targets d'

/-- **A match reads all targets, follows what it found, and compares what it deferred.** -/
theorem run_eq (model : TypeModel) (mode : MatchMode) (parameters : List Parameter)
    (slots : List Slot) (seed : Substitution) (targets : List Term) :
    let m : Matching := ⟨model, mode, parameters, seed.ids⟩
    run model mode parameters slots seed targets =
      ((m.readSlots slots 0 targets).bind fun found =>
        (Deduction.start seed).follow m found).bind (Deduction.finish m) := by
  intro m
  rw [run, ← slots_eq]

theorem run_eq_some {model : TypeModel} {mode : MatchMode} {parameters : List Parameter}
    {slots : List Slot} {seed σ : Substitution} {targets : List Term} :
    let m : Matching := ⟨model, mode, parameters, seed.ids⟩
    run model mode parameters slots seed targets = some σ ↔
      ∃ xs d, m.readSlots slots 0 targets = some xs ∧ (Deduction.start seed).follow m xs = some d ∧
        (∀ pt ∈ d.deferred, model.sameTerm (pt.1.subst d.substitution) pt.2 = true) ∧
        d.substitution = σ := by
  intro m
  rw [run_eq]
  constructor
  · intro h
    obtain ⟨d, hd, hfinish⟩ := Option.bind_eq_some_iff.mp h
    obtain ⟨xs, hxs, hfollow⟩ := Option.bind_eq_some_iff.mp hd
    rw [Deduction.finish] at hfinish
    split at hfinish
    · rename_i hdeferred
      exact ⟨xs, d, hxs, hfollow, List.all_eq_true.mp hdeferred, Option.some.inj hfinish⟩
    · exact absurd hfinish (Option.some_ne_none σ).symm
  · rintro ⟨xs, d, hxs, hfollow, hdeferred, rfl⟩
    rw [hxs, Option.bind_some, hfollow, Option.bind_some, Deduction.finish,
      if_pos (List.all_eq_true.mpr hdeferred)]

end Matching

end TemplateResolution
