import TemplateResolution.Pattern.Basic
import TemplateResolution.Specificity.Basic
import TemplateResolution.Term.Decoration

/-!
# Verdicts

Once two patterns reproduce each other, the decorations of their positions may
still tell them apart.  Each position gives a verdict, and the verdicts of all
positions merge: they have to favour the same side, or there is a conflict.
-/

namespace TemplateResolution

inductive Verdict where
  | neutral
  | decisive (specificity : Specificity) (basis : OrderingBasis)
  | conflict
deriving DecidableEq

namespace Verdict

/-- Both verdicts together; of two that agree, a reference kind names the reason. -/
def merge : Verdict → Verdict → Verdict
  | conflict, _ => conflict
  | _, conflict => conflict
  | neutral, v => v
  | v, neutral => v
  | decisive s basis, decisive s' basis' =>
    if s = s' then decisive s (if basis' = .referenceKind then basis' else basis) else conflict

def mergeAll (verdicts : List Verdict) : Verdict := verdicts.foldl merge neutral

/-- Compares two reference parameters: an lvalue reference beats an rvalue reference, and of two
references of one kind the more qualified one wins. -/
def ofTerms (a b : Term) : Verdict :=
  match a, b with
  | .reference k x, .reference l y =>
    if k ≠ l then
      decisive (if k = .lvalue then .aMoreSpecific else .bMoreSpecific) .referenceKind
    else if x.quals = y.quals then neutral
    else if x.quals.includes y.quals then decisive .aMoreSpecific .qualification
    else if y.quals.includes x.quals then decisive .bMoreSpecific .qualification
    else conflict
  | _, _ => neutral

/-- The verdict on two argument lists, as far as both go. -/
def ofSlots (a b : List Slot) : Verdict :=
  mergeAll (List.zipWith (fun s t => ofTerms s.term.expanded t.term.expanded) a b)

end Verdict

end TemplateResolution
