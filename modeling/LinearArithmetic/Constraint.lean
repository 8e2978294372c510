import LinearArithmetic.DeltaRat.Basic
import LinearArithmetic.Var

/-!
# Constraints on one variable

A statement compares one variable with a number. Strict comparisons with a rational are the
non-strict ones with a number that is off by one infinitesimal, and with that bounds are closed
under negation: `¬ (x ≥ c)` is `x ≤ c - δ` and `¬ (x ≥ c + δ)` is `x ≤ c`.
-/

namespace LinearArithmetic

/-- The comparisons of a variable with a number. -/
inductive ConstraintKind where
  /-- at least the number -/
  | lower
  /-- at most the number -/
  | upper
  /-- equal to the number -/
  | equality
  /-- different from the number -/
  | disequality
  deriving DecidableEq, Inhabited

namespace ConstraintKind

/-- All kinds, in their fixed order. -/
def everyKind : List ConstraintKind := [lower, upper, equality, disequality]

/-- The sign of the comparison. -/
def symbol : ConstraintKind → String
  | lower => ">="
  | upper => "<="
  | equality => "=="
  | disequality => "!="

/-- The comparison bounds the variable from one side. -/
def isBound : ConstraintKind → Bool
  | lower | upper => true
  | equality | disequality => false

end ConstraintKind

/-- The number of a constraint in the database. -/
structure ConstraintId where
  index : Nat
  deriving DecidableEq, Inhabited

/-- A constraint is named `c` and its number. -/
def ConstraintId.text (c : ConstraintId) : String := "c" ++ toString c.index

/-- A comparison of a variable with a number. -/
structure Statement where
  var : Var
  kind : ConstraintKind
  value : DeltaRat
  deriving DecidableEq, Inhabited

namespace Statement

/-- The statement that holds exactly when the given one fails. A bound has one only if its number
is a rational or, for a strict bound, one infinitesimal inside it. -/
def negation? (s : Statement) : Option Statement :=
  match s.kind with
  | .equality => some { s with kind := .disequality }
  | .disequality => some { s with kind := .equality }
  | .lower =>
    if s.value.infinitesimal = 0 then some ⟨s.var, .upper, ⟨s.value.standard, -1⟩⟩
    else if s.value.infinitesimal = 1 then some ⟨s.var, .upper, ⟨s.value.standard, 0⟩⟩
    else none
  | .upper =>
    if s.value.infinitesimal = 0 then some ⟨s.var, .lower, ⟨s.value.standard, 1⟩⟩
    else if s.value.infinitesimal = -1 then some ⟨s.var, .lower, ⟨s.value.standard, 0⟩⟩
    else none

/-- The variable, the sign and the number. -/
def text (s : Statement) : String :=
  s.var.text ++ " " ++ s.kind.symbol ++ " " ++ s.value.text

/-- The statement at a number for the variable. -/
def Holds (s : Statement) (x : DeltaRat) : Prop :=
  match s.kind with
  | .lower => s.value ≤ x
  | .upper => x ≤ s.value
  | .equality => x = s.value
  | .disequality => x ≠ s.value

/-- Negating twice gives the statement back. -/
theorem negation?_negation? {s t : Statement} (h : s.negation? = some t) :
    t.negation? = some s := by
  obtain ⟨v, k, ⟨c, i⟩⟩ := s
  cases k <;> grind [negation?]

end Statement

end LinearArithmetic
