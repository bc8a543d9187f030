/-!
# Specificity

The outcome of comparing two patterns: which of them is the more specialized, by
which rule, and what was seen on the way.  The two patterns are `a` and `b`
throughout; `reversed` exchanges their names.
-/

namespace TemplateResolution

inductive Specificity where
  | aMoreSpecific
  | bMoreSpecific
  | unordered
deriving DecidableEq

def Specificity.reversed : Specificity → Specificity
  | .aMoreSpecific => .bMoreSpecific
  | .bMoreSpecific => .aMoreSpecific
  | .unordered => .unordered

/-- The rule that decided a comparison, or the reason why none did. -/
inductive OrderingBasis where
  /-- One side only reproduces the other. -/
  | deduction
  /-- One side only binds without a qualification conversion. -/
  | conversionAvoidance
  /-- An lvalue reference stands against an rvalue reference. -/
  | referenceKind
  /-- One of two references has more qualifiers. -/
  | qualification
  /-- One side only has a pack expansion. -/
  | pack
  /-- Each side reproduces the other. -/
  | equallySpecialized
  /-- Neither side reproduces the other. -/
  | incomparable
  /-- Two positions favour different sides. -/
  | qualificationTie
  /-- Each side reproduces the other and has a pack expansion. -/
  | packTie
deriving DecidableEq

def OrderingBasis.text : OrderingBasis → String
  | deduction => "deduction succeeds in one direction only"
  | conversionAvoidance => "the other candidate needs a qualification-adding conversion"
  | referenceKind => "an lvalue reference beats an rvalue reference"
  | qualification => "the more qualified reference parameter wins"
  | pack => "the candidate without a pack expansion wins"
  | equallySpecialized => "each pattern can reproduce the other (equally specialized)"
  | incomparable => "neither pattern can reproduce the other (incomparable)"
  | qualificationTie =>
    "qualification tie: reference and qualification decorations favour different candidates"
  | packTie => "pack tie: both candidates carry a pack expansion"

structure Comparison where
  specificity : Specificity
  basis : OrderingBasis
  /-- `b` reproduces `a`. -/
  aFromB : Bool
  /-- `a` reproduces `b`. -/
  bFromA : Bool
deriving DecidableEq

namespace Comparison

def isOrdered (c : Comparison) : Bool := c.specificity != .unordered

def reversed (c : Comparison) : Comparison :=
  ⟨c.specificity.reversed, c.basis, c.bFromA, c.aFromB⟩

end Comparison

@[simp] theorem Specificity.reversed_reversed (s : Specificity) : s.reversed.reversed = s := by
  cases s <;> rfl

@[simp] theorem Comparison.reversed_reversed (c : Comparison) : c.reversed.reversed = c := by
  cases c; simp [reversed]

/-- The rules that apply after deduction.  With a rule off, the ties it breaks stay ties. -/
structure OrderingRules where
  packTieBreak : Bool := true
  qualificationTieBreak : Bool := true
  conversionAvoidance : Bool := true
  /-- At a use-site, compares only the positions that have an argument. -/
  suppliedArgumentsOnly : Bool := true
deriving DecidableEq

end TemplateResolution
