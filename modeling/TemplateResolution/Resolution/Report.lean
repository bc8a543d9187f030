import TemplateResolution.Pattern.Signature
import TemplateResolution.Registry.Basic
import TemplateResolution.Resolution.Basic
import TemplateResolution.Substitution.Printer
import TemplateResolution.Text.Blank

/-!
# Reports

A report tells what a query resolved to, against the declarations it was
resolved in: a headline and below it the details, one per line.  Where a
selection is demanded, an ambiguous or unmatched query is an error that carries
those details.
-/

namespace TemplateResolution

def SelectionPath.text : SelectionPath → String
  | explicit => "explicit specialization"
  | soleCandidate => "only viable candidate"
  | mostSpecialized => "most specialized candidate"

def UnorderedPair.text (e : UnorderedPair) : String :=
  s!"{PatternId.text e.a} and {PatternId.text e.b}: {e.basis.text}"

def OrderedPair.text (e : OrderedPair) : String :=
  s!"{PatternId.text e.more} over {PatternId.text e.less}: {e.basis.text}"

/-- The candidates that are not maximal. -/
def Ambiguity.dominated (a : Ambiguity) : List PatternId :=
  a.considered.filter fun id => !a.maximal.contains id

namespace Declarations

def signatureOf (d : Declarations) (id : PatternId) : String :=
  match d.pattern? id with
  | some p => p.signature
  | none => "<unknown pattern>"

/-- A pattern's number and signature. -/
def label (d : Declarations) (id : PatternId) : String :=
  PatternId.text id ++ " " ++ d.signatureOf id

end Declarations

namespace Resolution

def headline (d : Declarations) (q : Query) : Resolution → String
  | resolved selection => s!"{q.text} resolves to {d.label selection.pattern}"
  | ambiguous ambiguity =>
    s!"{q.text} is ambiguous between {ambiguity.maximal.length} candidates"
  | unmatched u =>
    if u.knownName then s!"{q.text} matches no pattern" else s!"no pattern is named `{q.name}`"

/-- The bindings of a selection under the names of the parameters they are for. -/
def bindingLines (d : Declarations) (selection : Selection) : List String :=
  let named :=
    match selection.path with
    | .explicit => selection.specializes.getD selection.pattern
    | _ => selection.pattern
  match d.pattern? named with
  | some p =>
    if selection.substitution.bindings.isEmpty then []
    else ["  with " ++ selection.substitution.describe p.parameters]
  | none => []

def selectionLines (d : Declarations) (selection : Selection) : List String :=
  [s!"  selected as the {selection.path.text}"] ++
    (match selection.specializes with
      | some base => [s!"  specializes {d.label base}"]
      | none => []) ++
    bindingLines d selection ++
    selection.substitution.conversions.map fun c =>
      s!"  argument {c.position} gains `{c.added.text}`"

/-- A title and its lines; nothing if there are no lines. -/
def titled (title : String) (lines : List String) : List String :=
  if lines.isEmpty then [] else title :: lines.map ("  " ++ ·)

def ambiguityLines (d : Declarations) (a : Ambiguity) : List String :=
  a.maximal.map (fun id => "  " ++ d.label id) ++
    titled "unordered:" (a.unordered.map UnorderedPair.text) ++
    titled "cyclic ordering:" (a.cycle.map OrderedPair.text) ++
    if a.dominated.isEmpty then []
    else ["less specialized: " ++ ", ".intercalate (a.dominated.map PatternId.text)]

def detailLines (d : Declarations) : Resolution → List String
  | resolved selection => selectionLines d selection
  | ambiguous ambiguity => ambiguityLines d ambiguity
  | unmatched u => u.considered.map fun (id, reason) => s!"  {d.label id}: {reason.text}"

/-- Lines as a text, each with its end of line. -/
def unlines (lines : List String) : String := String.join (lines.map (· ++ "\n"))

def report (d : Declarations) (q : Query) (r : Resolution) : String :=
  unlines (r.headline d q :: r.detailLines d)

/-- What stands below the headline, without the end of the last line. -/
def details (d : Declarations) (r : Resolution) : String := Text.trimEnd (unlines (r.detailLines d))

end Resolution

/-! ### Demanding a selection -/

inductive ResolutionError where
  | unmatched (name query details : String)
  | ambiguous (name query : String) (count : Nat) (details : String)
deriving DecidableEq

namespace ResolutionError

def message : ResolutionError → String
  | unmatched _ query _ => s!"No pattern for `{query}`"
  | ambiguous _ query count _ => s!"Ambiguous use `{query}`: {count} patterns are equally good"

def code : ResolutionError → String
  | unmatched _ _ _ => "specres::resolution::unmatched"
  | ambiguous _ _ _ _ => "specres::resolution::ambiguous"

def advice : ResolutionError → String
  | unmatched _ _ details | ambiguous _ _ _ details => details

end ResolutionError

/-- The selection, or an error that tells why there is none. -/
def Resolution.demand (d : Declarations) (q : Query) (r : Resolution) :
    Except ResolutionError Selection :=
  match r with
  | resolved selection => .ok selection
  | ambiguous a => .error (.ambiguous q.name q.text a.maximal.length (r.details d))
  | unmatched _ => .error (.unmatched q.name q.text (r.details d))

end TemplateResolution
