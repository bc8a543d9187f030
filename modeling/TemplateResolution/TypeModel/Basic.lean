import TemplateResolution.Parameter

/-!
# Type models

The engine does not interpret names.  A type model tells it which leaf names
mean the same, which qualifiers an argument may gain on its way to a parameter,
and which parameters are packs of what kind.
-/

namespace TemplateResolution

structure TypeModel where
  sameLeaf : String → String → Bool
  /-- Whether an argument with the first qualifiers binds to a parameter with the second. -/
  mayQualify : Qualifiers → Qualifiers → Bool
  isPack : Parameter → Bool
  /-- What each argument of a pack stands for. -/
  packKind : Parameter → ParamKind

namespace TypeModel

/-- What one argument for `p` stands for. -/
def argumentKind (m : TypeModel) (p : Parameter) : ParamKind :=
  if m.isPack p then m.packKind p else p.kind

def sameTerm (m : TypeModel) : Term → Term → Bool := Term.same m.sameLeaf

def sameTerms (m : TypeModel) : List Term → List Term → Bool := Term.sameList m.sameLeaf

/-- Whether `t` can be an argument for `p` at all. -/
def accepts (m : TypeModel) (p : Parameter) (t : Term) : Bool :=
  match m.argumentKind p with
  | .type => t.isTypeLike
  | .value =>
    match t with
    | .value _ type => p.valueType.all fun declared => m.sameLeaf declared type
    | .placeholder token => token.kind = .value
    | .offset _ _ => true
    | _ => false
  | .nested =>
    match t with
    | .template _ => true
    | .placeholder token => token.kind = .nested
    | _ => false

end TypeModel

end TemplateResolution
