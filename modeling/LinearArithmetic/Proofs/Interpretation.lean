import LinearArithmetic.Term.Validity
import Mathlib.Algebra.Order.Ring.Rat

/-!
# Interpretations of terms

An interpretation gives every variable a number and a truth value, and with them a number to every
arithmetic term and a truth value to every formula. What a term means in a place where its kind has
no meaning, such as the number of a comparison, is left to the interpretation.
-/

namespace LinearArithmetic

/-- The meaning of the variables, and of terms in places where their kind has no meaning. -/
structure Interpretation where
  /-- the number a term stands for -/
  number : Term → ℚ
  /-- the truth value a term stands for -/
  truth : Term → Bool

namespace Interpretation

variable (I : Interpretation)

mutual

/-- The number an arithmetic term stands for. -/
def value : Term → ℚ
  | .const q => q
  | .sum ts => total ts
  | .prod ts => product ts
  | .ite c a b => if holds c then value a else value b
  | t => I.number t

/-- The sum of the values of some terms. -/
def total : List Term → ℚ
  | [] => 0
  | t :: ts => value t + total ts

/-- The product of the values of some terms. -/
def product : List Term → ℚ
  | [] => 1
  | t :: ts => value t * product ts

/-- The formula is true. -/
def holds : Term → Bool
  | .bool b => b
  | .neg t => !holds t
  | .conj ts => holdsAll ts
  | .disj ts => holdsSome ts
  | .implies a b => !holds a || holds b
  | .rel r a b => r.holds (value a) (value b)
  | .ite c a b => if holds c then holds a else holds b
  | t => I.truth t

/-- All formulas are true. -/
def holdsAll : List Term → Bool
  | [] => true
  | t :: ts => holds t && holdsAll ts

/-- Some formula is true. -/
def holdsSome : List Term → Bool
  | [] => false
  | t :: ts => holds t || holdsSome ts

end

@[simp] theorem value_const (q : ℚ) : I.value (.const q) = q := by rw [value]

theorem value_ite (c a b : Term) :
    I.value (.ite c a b) = if I.holds c then I.value a else I.value b := by rw [value]

@[simp] theorem holds_bool (b : Bool) : I.holds (.bool b) = b := by rw [holds]

@[simp] theorem holds_neg (t : Term) : I.holds (.neg t) = !I.holds t := by rw [holds]

@[simp] theorem holds_implies (a b : Term) :
    I.holds (.implies a b) = (!I.holds a || I.holds b) := by rw [holds]

@[simp] theorem holds_rel (r : Relation) (a b : Term) :
    I.holds (.rel r a b) = r.holds (I.value a) (I.value b) := by rw [holds]

theorem holdsAll_eq_all (ts : List Term) : I.holdsAll ts = ts.all I.holds := by
  induction ts with
  | nil => rw [holdsAll, List.all_nil]
  | cons t ts ih => rw [holdsAll, List.all_cons, ih]

theorem holdsSome_eq_any (ts : List Term) : I.holdsSome ts = ts.any I.holds := by
  induction ts with
  | nil => rw [holdsSome, List.any_nil]
  | cons t ts ih => rw [holdsSome, List.any_cons, ih]

@[simp] theorem holds_conj (ts : List Term) : I.holds (.conj ts) = ts.all I.holds := by
  rw [holds, holdsAll_eq_all]

@[simp] theorem holds_disj (ts : List Term) : I.holds (.disj ts) = ts.any I.holds := by
  rw [holds, holdsSome_eq_any]

/-- The short forms for one disjunct and for none mean the same. -/
theorem holds_any (ts : List Term) : I.holds (.any ts) = ts.any I.holds := by
  match ts with
  | [] => simp [Term.any]
  | [t] => simp [Term.any]
  | t :: u :: ts => simp [Term.any]

end Interpretation

namespace Term

/-- The formula is true under every interpretation. -/
def Valid (t : Term) : Prop := ∀ I : Interpretation, I.holds t = true

/-- The second formula is true under every interpretation that makes the first one true. -/
def Entails (t u : Term) : Prop := ∀ I : Interpretation, I.holds t = true → I.holds u = true

theorem Valid.entailed {u : Term} (h : u.Valid) (t : Term) : t.Entails u := fun I _ => h I

mutual

/-- Under an interpretation, a formula has the value that its connectives give it. -/
theorem truth_holds (I : Interpretation) : ∀ t : Term, t.truth I.holds = I.holds t
  | bool _ => by rw [truth, I.holds_bool]
  | neg t => by rw [truth, I.holds_neg, truth_holds I t]
  | conj ts => by rw [truth, I.holds_conj, truthAll_holds I ts]
  | disj ts => by rw [truth, I.holds_disj, truthAny_holds I ts]
  | implies a b => by rw [truth, I.holds_implies, truth_holds I a, truth_holds I b]
  | var _ | const _ | sum _ | prod _ | rel _ _ _ | ite _ _ _ => by simp only [truth]

theorem truthAll_holds (I : Interpretation) :
    ∀ ts : List Term, truthAll I.holds ts = ts.all I.holds
  | [] => by rw [truthAll, List.all_nil]
  | t :: ts => by rw [truthAll, List.all_cons, truth_holds I t, truthAll_holds I ts]

theorem truthAny_holds (I : Interpretation) :
    ∀ ts : List Term, truthAny I.holds ts = ts.any I.holds
  | [] => by rw [truthAny, List.any_nil]
  | t :: ts => by rw [truthAny, List.any_cons, truth_holds I t, truthAny_holds I ts]

end

/-- A formula that is true whatever the truth values of its atoms is valid. -/
theorem valid_of_truth {t : Term} (h : ∀ value : Term → Bool, t.truth value = true) : t.Valid :=
  fun I => (truth_holds I t).symm.trans (h I.holds)

end Term

end LinearArithmetic
