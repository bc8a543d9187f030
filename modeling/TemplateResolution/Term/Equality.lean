import TemplateResolution.Term.Basic

/-!
# Equality of terms

Two terms are the same when they have the same shape and their names agree leaf
by leaf.  Which names agree is the parameter `leaf`; with equality of names it
is equality of terms (`same_beq_iff`), which makes terms decidable.
-/

namespace TemplateResolution.Term

mutual

def same (leaf : String → String → Bool) : Term → Term → Bool
  | param a, param b => a == b
  | placeholder a, placeholder b => a == b
  | type a, type b => leaf a b
  | template a, template b => leaf a b
  | value m a, value n b => m == n && leaf a b
  | apply f as, apply g bs => same leaf f g && sameList leaf as bs
  | pointer a, pointer b => same leaf a b
  | expansion a, expansion b => same leaf a b
  | qualified q a, qualified r b => q == r && same leaf a b
  | reference k a, reference l b => k == l && same leaf a b
  | offset a m, offset b n => m == n && same leaf a b
  | _, _ => false

def sameList (leaf : String → String → Bool) : List Term → List Term → Bool
  | [], [] => true
  | a :: as, b :: bs => same leaf a b && sameList leaf as bs
  | _, _ => false

end

/-! ### Decidable equality -/

mutual

theorem same_beq_iff : ∀ a b : Term, same (· == ·) a b = true ↔ a = b
  | param _, b | placeholder _, b | type _, b | template _, b | value _ _, b => by
    cases b <;> simp [same]
  | apply f as, b => by
    cases b <;> simp [same, same_beq_iff f, sameList_beq_iff as]
  | pointer a, b | expansion a, b | qualified _ a, b | reference _ a, b => by
    cases b <;> simp [same, same_beq_iff a]
  | offset a _, b => by
    cases b <;> simp [same, same_beq_iff a, and_comm]

theorem sameList_beq_iff : ∀ as bs : List Term, sameList (· == ·) as bs = true ↔ as = bs
  | [], bs => by cases bs <;> simp [sameList]
  | a :: as, bs => by cases bs <;> simp [sameList, same_beq_iff a, sameList_beq_iff as]

end

instance : DecidableEq Term := fun a b => decidable_of_iff _ (same_beq_iff a b)

end TemplateResolution.Term
