import LinearArithmetic.Model.Basic
import LinearArithmetic.Tableau.Pivot

/-!
# The simplex procedure: state

The procedure keeps a tableau and a model together. A variable that is not basic moves at once,
and the basic variables of its column move along; a basic variable that may violate a bound is
only marked, and repaired later by pivoting.
-/

namespace LinearArithmetic

/-- Which violated basic variable is repaired first. -/
inductive PivotRule where
  | minimumIndex
  | maximumIndex
  /-- the one with the shortest row; of several, the smallest -/
  | shortestRow
  deriving DecidableEq, Inhabited

/-- The name of a pivot rule. -/
def PivotRule.text : PivotRule → String
  | minimumIndex => "minimum-index"
  | maximumIndex => "maximum-index"
  | shortestRow => "shortest-row"

/-- The rule in force unless another one is chosen. -/
def PivotRule.standard : PivotRule := shortestRow

/-- Constraints that cannot hold together, each named once. -/
structure Conflict where
  constraints : List ConstraintId
  deriving DecidableEq

/-- The conflict of some constraints: of equal ones the first is kept. -/
def Conflict.of (cs : List ConstraintId) : Conflict := ⟨cs.eraseDups⟩

/-- What the procedure counts. -/
structure Statistics where
  pivots : Nat := 0
  conflicts : Nat := 0
  blandFallbacks : Nat := 0
  deriving DecidableEq

/-- The value of a row, where `value` gives the values of its variables. -/
def Row.valueUnder (value : Var → Checked DeltaRat) (r : Row) : Checked DeltaRat :=
  r.entries.foldlM (fun sum e => return sum + (← value e.1).scale e.2) 0

/-- The state of the simplex procedure. -/
structure Simplex where
  tableau : Tableau := {}
  model : Model := {}
  /-- basic variables that may violate a bound -/
  suspects : SortedSet Var := ∅
  rule : PivotRule := .standard
  /-- the number of pivots in one repair after which Bland's rule is used -/
  blandThreshold : Nat
  /-- formulas waiting to be sent, oldest first -/
  lemmas : List Term := []
  statistics : Statistics := {}

namespace Simplex

/-- The state with a new variable. -/
def ensure (v : Var) (s : Simplex) : Simplex :=
  { s with tableau := s.tableau.ensure v, model := s.model.ensure v }

/-- The state with a basic variable marked for the next repair. -/
def mark (v : Var) (s : Simplex) : Simplex := { s with suspects := s.suspects.insert v () }

/-- The value of the row of a basic variable under the current values. -/
def currentRowValue (basic : Var) (s : Simplex) : Checked DeltaRat :=
  do (← s.tableau.row basic).valueUnder s.model.value

/-- The value of the row of a basic variable under the values of the last commit. -/
def safeRowValue (basic : Var) (s : Simplex) : Checked DeltaRat :=
  do (← s.tableau.row basic).valueUnder s.model.safeValue

/-- The state after adding a multiple of a move to every basic variable of a column; these
variables are marked. -/
def shiftColumn (v : Var) (move : DeltaRat) (basics : List Var) (s : Simplex) : Checked Simplex :=
  basics.foldlM (fun s basic => do
    match ← s.tableau.coefficient? basic v with
    | none => return s
    | some c =>
      let x ← s.model.value basic
      let model ← s.model.setValue basic (x + move.scale c)
      return { s with model }.mark basic) s

/-- The state with a variable that is not basic moved to a value, and the basic variables of its
column moved along. -/
def move (v : Var) (x : DeltaRat) (s : Simplex) : Checked Simplex := do
  if s.tableau.isBasic v then throw (.moveOfBasic v)
  let difference := x - (← s.model.value v)
  let s ← s.shiftColumn v difference (s.tableau.column v)
  return { s with model := ← s.model.setValue v x }

/-- The state on the way to a value for a variable: a basic variable is marked, any other is
moved. -/
def bring (v : Var) (x : DeltaRat) (s : Simplex) : Checked Simplex :=
  if s.tableau.isBasic v then return s.mark v else s.move v x

/-! ## Lemmas waiting to be sent -/

/-- The state with a formula added at the end of the queue. -/
def pushLemma (t : Term) (s : Simplex) : Simplex := { s with lemmas := s.lemmas ++ [t] }

/-- The first formula of the queue, and the state without it. -/
def popLemma (s : Simplex) : Simplex × Option Term :=
  ({ s with lemmas := s.lemmas.tail }, s.lemmas.head?)

end Simplex

end LinearArithmetic
