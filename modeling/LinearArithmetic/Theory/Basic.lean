import LinearArithmetic.Database.Basic
import LinearArithmetic.LinearSum
import LinearArithmetic.Simplex.Basic

/-!
# The theory of linear arithmetic: state

The theory turns literals over terms into constraints on single variables and keeps the simplex
procedure up to date with them. Every leaf gets a variable. A comparison of a sum of several
leaves compares a slack variable, which stands for the sum; its row enters the tableau once a
literal over it is asserted. Variables that no constraint mentions can be eliminated; their rows
are kept aside to compute their values.
-/

namespace LinearArithmetic

/-- The settings of the theory. -/
structure Options where
  pivotRule : PivotRule := .standard
  blandThreshold : Nat := 1000
  /-- the number of restarts before the first reset of the tableau -/
  initialResetPeriod : Nat := 10
  /-- how much longer the time between resets gets after each -/
  resetPeriodIncrement : Nat := 5
  /-- how many times denser than after the last reset the tableau must be for another one -/
  resetDensityFactor : Float := 2.0
  /-- literals implied by an asserted bound on the same variable are propagated -/
  propagateBounds : Bool := true
  /-- presolving eliminates the variables that no constraint mentions -/
  eliminateUnconstrained : Bool := true
  /-- the value for the infinitesimal, unless a smaller one is needed -/
  defaultDelta : Rat := 1
  /-- the checks of builds for debugging are made, of the tableau, of antecedents and of the outcome
  of repairs -/
  debugChecks : Bool := false

/-- What the theory keeps for a variable. -/
structure VarInfo where
  /-- the leaf, or the sum that a slack variable stands for -/
  term : Term
  /-- the combination that a slack variable is equal to -/
  definition : Option Row := none
  /-- the row of the slack variable has been added to the tableau -/
  materialized : Bool := false
  deriving DecidableEq

/-- An asserted literal with the scope level it was asserted at. -/
structure Fact where
  literal : Term
  level : Nat
  deriving DecidableEq

/-- The limit of the counters of restarts, which have 32 bits. -/
def counterLimit : Nat := 4294967296

/-- When the tableau is reset. -/
structure ResetSchedule where
  restarts : Nat := 0
  sinceReset : Nat := 0
  /-- the number of restarts from one reset to the next -/
  period : Nat
  densityAfterReset : Option Float := none

/-- The state of the theory. -/
structure Theory where
  options : Options := {}
  infos : Arena VarInfo := {}
  leaves : List (Term × Var) := []
  /-- slack variables by the combination they are equal to -/
  slacks : List (Row × Var) := []
  /-- comparisons without unknowns, with their truth values -/
  constantAtoms : List (Term × Bool) := []
  database : Database := {}
  simplex : Simplex
  /-- asserted literals that wait for a check, oldest first -/
  pending : List Fact := []
  processed : Trail Fact := {}
  disequalities : Trail ConstraintId := {}
  /-- implied literals that wait to be sent, oldest first -/
  propagations : List Term := []
  /-- eliminated variables with their rows, the last one eliminated first -/
  eliminated : List (Var × Row) := []
  schedule : ResetSchedule

namespace Theory

/-- The theory at the start. -/
def start (o : Options) : Theory where
  options := o
  database := { debugChecks := o.debugChecks }
  simplex :=
    { tableau := { debugChecks := o.debugChecks }
      rule := o.pivotRule
      blandThreshold := o.blandThreshold }
  schedule := { period := o.initialResetPeriod }

/-- The number of open scopes. -/
def level (s : Theory) : Nat := s.processed.level

/-- All variables, in order. -/
def vars (s : Theory) : List Var := s.infos.keys.map Var.mk

/-- The variable of a leaf. -/
def varOf? (s : Theory) (leaf : Term) : Option Var := s.leaves.lookup leaf

/-- What is kept for a variable. -/
def info (s : Theory) (v : Var) : Checked VarInfo := s.infos.get v.id

/-- The term a variable stands for. -/
def termOf (s : Theory) (v : Var) : Checked Term := return (← s.info v).term

/-- The combination that the variable is equal to, if it is a slack variable. -/
def definition? (s : Theory) (v : Var) : Option Row := do (← s.infos.get? v.id).definition

/-- The variable is a slack variable. -/
def isSlack (s : Theory) (v : Var) : Bool := (s.definition? v).isSome

/-- The variable is eliminated. -/
def isEliminated (s : Theory) (v : Var) : Bool := (s.eliminated.lookup v).isSome

/-- The theory with what is kept for a variable changed. -/
def updateInfo (v : Var) (f : VarInfo → VarInfo) (s : Theory) : Theory :=
  { s with infos := s.infos.modify v.id f }

/-- The theory with a new variable. -/
def addVar (info : VarInfo) (s : Theory) : Theory × Var :=
  let v : Var := ⟨s.infos.nextKey⟩
  ({ s with infos := s.infos.push info, simplex := s.simplex.ensure v }, v)

/-- The values of variables when eliminated ones get the values of their rows. A row mentions no
variable that was eliminated before its own, so the last one eliminated comes first. -/
def extendValues (value : Var → Checked DeltaRat) : List (Var × Row) → Var → Checked DeltaRat
  | [] => value
  | (v, r) :: older =>
    let x := r.valueUnder value
    extendValues (fun u => if u = v then x else value u) older

/-- The value of a variable; an eliminated one has the value of its row. -/
def value (s : Theory) : Var → Checked DeltaRat := extendValues s.simplex.model.value s.eliminated

end Theory

end LinearArithmetic
