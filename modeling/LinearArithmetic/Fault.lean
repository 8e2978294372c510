import LinearArithmetic.Constraint
import LinearArithmetic.Term.Text

/-!
# Faults and refusals

An operation ends in a fault when its caller breaks a precondition; no state is left then. A
refusal is an ordinary answer to a term which the theory cannot work with.
-/

namespace LinearArithmetic

/-- Why a term is refused. Each reason names the offending term. -/
inductive Refusal where
  /-- not a comparison of arithmetic terms, nor the negation of one -/
  | notAnAtom (t : Term)
  /-- not an arithmetic term -/
  | notArithmetic (t : Term)
  /-- no constraint with a proof goes by this literal -/
  | unknownLiteral (t : Term)
  /-- the model gives no value to the term -/
  | noValue (t : Term)
  deriving DecidableEq

/-- The wording of a refusal. -/
def Refusal.message : Refusal → String
  | notAnAtom t => "`" ++ t.text ++ "` is not an arithmetic atom"
  | notArithmetic t => "`" ++ t.text ++ "` is not an arithmetic term"
  | unknownLiteral t => "the literal `" ++ t.text ++ "` is unknown to the constraint database"
  | noValue t => "`" ++ t.text ++ "` has no value in the current model"

/-- A broken precondition. -/
inductive Fault where
  /-- a rational was asked for with denominator zero -/
  | zeroDenominator
  /-- a number was divided by zero -/
  | divisionByZero
  /-- nothing is stored under the key -/
  | outOfRange (key : Nat)
  /-- a leaf was given children -/
  | leafWithChildren
  /-- an operator was given a wrong number of children -/
  | wrongArity
  /-- a row was given different numbers of coefficients and variables -/
  | lengthMismatch
  /-- the variable has no row -/
  | notBasic (v : Var)
  /-- a pivot needs a variable with a row and one without -/
  | pivotRoles (basic nonBasic : Var)
  /-- the variable that would enter the basis is not in the row -/
  | notInRow (basic nonBasic : Var)
  /-- the variable has a row already -/
  | hasRow (v : Var)
  /-- the row of the variable is set aside -/
  | hasEjectedRow (v : Var)
  /-- some row mentions the variable -/
  | usedInRow (v : Var)
  /-- the row of the variable would mention the variable -/
  | selfDefined (v : Var)
  /-- no row of the variable is set aside -/
  | noEjectedRow (v : Var)
  /-- only variables without a row can be moved directly -/
  | moveOfBasic (v : Var)
  /-- assignment changes are still uncommitted -/
  | uncommitted
  /-- more scopes are left than are open -/
  | noSuchScope
  /-- no positive value is left for the infinitesimal -/
  | noPositiveDelta
  /-- a search used up its steps -/
  | stepsExhausted
  /-- the bound has no negation among the bounds -/
  | noNegation (kind : ConstraintKind) (value : DeltaRat)
  /-- a statement is stored whose negation is not -/
  | loneConstraint
  /-- the literal is known already -/
  | literalKnown (t : Term)
  /-- the literal does not name the constraint -/
  | notALiteralOf (c : ConstraintId) (t : Term)
  /-- the constraint or its negation is known to hold already -/
  | alreadyDecided (c : ConstraintId)
  /-- a constraint without literal was to hold without antecedents -/
  | nothingToExplainWith (c : ConstraintId)
  /-- a constraint without proof was to be explained -/
  | noProof (c : ConstraintId)
  /-- a constraint that explains itself has no literal -/
  | noLiteral (c : ConstraintId)
  /-- a constraint other than an equality or disequality was to be split -/
  | notAnEquality (c : ConstraintId)
  /-- an equality without literal was to be split -/
  | splitWithoutLiteral (c : ConstraintId)
  /-- the literal of an equality is not an equation -/
  | literalNotAnEquation (c : ConstraintId)
  /-- the constraint or its negation is preregistered already -/
  | alreadyPreregistered (c : ConstraintId)
  /-- a variable that constraints mention was to be eliminated -/
  | constrained (v : Var)
  /-- a fact was accepted and is refused later -/
  | factRefused (fact : Term) (why : Refusal)
  /-- a counter has reached its limit -/
  | counterOverflow
  /-- a counter was to fall below zero -/
  | counterUnderflow
  /-- a constraint was to follow from one that is not known to hold -/
  | unprovenAntecedent (c : ConstraintId)
  /-- the rows, the index or the counters of the tableau are wrong -/
  | inconsistentTableau
  /-- a repair without conflict left a row or a bound unsatisfied -/
  | inconsistentSimplex
  deriving DecidableEq

/-- The wording of a fault, for those that have one. -/
def Fault.message? : Fault → Option String
  | zeroDenominator => some "a rational cannot have a zero denominator"
  | leafWithChildren => some "leaves have no children"
  | notBasic v => some (v.text ++ " is not basic")
  | notInRow b n =>
    some ("cannot pivot " ++ b.text ++ " with " ++ n.text ++ ", which is not in its row")
  | hasRow v => some (v.text ++ " already has a row")
  | hasEjectedRow v => some (v.text ++ " has an ejected row")
  | usedInRow v => some (v.text ++ " is used in a row")
  | selfDefined v => some (v.text ++ " is defined in terms of itself")
  | noEjectedRow v => some (v.text ++ " has no ejected row")
  | noNegation k x =>
    some ("the bound " ++ k.symbol ++ " " ++ x.text ++ " has no representable negation")
  | loneConstraint => some "a constraint exists without its negation"
  | nothingToExplainWith _ => some "a constraint without a literal cannot explain itself"
  | noProof c => some (c.text ++ " is explained but has no proof")
  | noLiteral c => some (c.text ++ " explains itself without a literal")
  | splitWithoutLiteral c => some ("cannot split " ++ c.text ++ " without a literal")
  | factRefused f w =>
    some ("internal error: entered unreachable code: " ++ f.text ++
      " was accepted when it was asserted: " ++ w.message)
  | _ => none

/-- The outcome of an operation with preconditions. -/
abbrev Checked := Except Fault

end LinearArithmetic
