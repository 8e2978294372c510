import LinearArithmetic.Simplex.Basic

/-!
# Repairing violated bounds

The repair takes a violated basic variable to the bound it violates by moving one variable of its
row that is free to move that way, and exchanges the roles of the two. It ends when no basic
variable is violated, or when a row is found in which no variable can move: then the violated
bound and the bounds that block the row are a conflict.

After a number of pivots the repair goes over to Bland's rule: the smallest violated variable and
the smallest variable that can move. Under that rule the repair does not cycle: it does not come
back to a basis with the values that it had there.
-/

namespace LinearArithmetic.Simplex

/-- The side on which a variable with this coefficient must have room for the sum to move away
from the violated side. -/
def moveSide (violated : Side) (coefficient : Rat) : Side :=
  if 0 < coefficient then violated.opposite else violated

/-- The bound that keeps a variable of the row from moving, if there is one. -/
def blocking? (violated : Side) (e : ModelEntry) (coefficient : Rat) : Option Bound :=
  let side := moveSide violated coefficient
  (e.bound side).filter fun b => !side.opposite.beyond b.value e.value

/-- The first variable that is free to move. -/
def firstFree? (m : Model) (violated : Side) : List (Var × Rat) → Checked (Option Var)
  | [] => return none
  | (v, c) :: rest => do
    if (blocking? violated (← m.entry v) c).isNone then return some v
    else firstFree? m violated rest

/-- All variables that are free to move. -/
def allFree (m : Model) (violated : Side) (entries : List (Var × Rat)) : Checked (List Var) :=
  entries.filterMapM fun (v, c) => do
    return if (blocking? violated (← m.entry v) c).isNone then some v else none

/-- The variable that enters the basis: under Bland's rule the smallest one that is free to move,
otherwise the one with the shortest column, and of several the smallest. -/
def entering? (s : Simplex) (violated : Side) (r : Row) (bland : Bool) : Checked (Option Var) :=
  if bland then firstFree? s.model violated r.entries
  else do
    match (← allFree s.model violated r.entries).map fun v => (s.tableau.columnSize v, v) with
    | [] => return none
    | c :: cs => return some (cs.foldl Tableau.shorter c).2

/-- The violated bound and the bounds that block the row. -/
def rowConflict (m : Model) (violated : Side) (bound : Bound) (r : Row) : Checked Conflict := do
  let blocking ← r.entries.filterMapM fun (v, c) => do
    return blocking? violated (← m.entry v) c
  return .of (bound.reason :: blocking.map Bound.reason)

/-- The marked variables that are basic and violate a bound. -/
def violatedSuspects (s : Simplex) : Checked (SortedSet Var) := do
  let violated ← s.suspects.keys.filterM fun v => do
    if s.tableau.isBasic v then return (← s.model.violation? v).isSome else return false
  return s.suspects.filter fun v _ => violated.contains v

/-- The violated basic variable that is repaired next. -/
def leaving? (s : Simplex) (bland : Bool) : Checked (Option Var) :=
  if bland then return s.suspects.keys.head?
  else match s.rule with
    | .minimumIndex => return s.suspects.keys.head?
    | .maximumIndex => return s.suspects.keys.getLast?
    | .shortestRow => s.tableau.shortest s.suspects.keys

/-- The state after taking a basic variable to a value by moving `entering`, and exchanging their
roles. -/
def pivotTo (basic entering : Var) (c : Rat) (x : DeltaRat) (s : Simplex) : Checked Simplex := do
  let step := (x - (← s.model.value basic)).scale (1 / c)
  let model ← s.model.setValue basic x
  let model ← model.setValue entering ((← model.value entering) + step)
  let others := (s.tableau.column entering).filter (· ≠ basic)
  let s ← { s with model }.shiftColumn entering step others
  let tableau ← s.tableau.pivot basic entering
  let s := { s with tableau }.mark entering
  return { s with statistics := { s.statistics with pivots := s.statistics.pivots + 1 } }

/-- What one step of the repair found. -/
inductive RepairStep where
  /-- no bound is violated -/
  | repaired
  /-- no variable of the row of a violated variable can move -/
  | stuck (conflict : Conflict)
  /-- one pivot was made -/
  | pivoted

/-- The state with the fallback to Bland's rule counted. -/
def countFallback (s : Simplex) : Simplex :=
  { s with
    statistics := { s.statistics with blandFallbacks := s.statistics.blandFallbacks + 1 } }

/-- The state after a conflict: values go back to the last commit. -/
def giveUp (s : Simplex) : Simplex :=
  { s with
    model := s.model.revert
    statistics := { s.statistics with conflicts := s.statistics.conflicts + 1 } }

/-- The variable that is repaired next, with the bound it violates. -/
def target? (s : Simplex) (bland : Bool) : Checked (Option (Var × Side × Bound)) := do
  match ← s.leaving? bland with
  | none => return none
  | some basic => return (← s.model.violation? basic).map (basic, ·)

/-- One step of the repair, after the given number of pivots. -/
def repairStep (pivots : Nat) (s : Simplex) : Checked (Simplex × RepairStep) := do
  let bland : Bool := s.blandThreshold ≤ pivots
  let s := { s with suspects := ← s.violatedSuspects }
  match ← s.target? bland with
  | none => return ({ s with model := s.model.commit }, .repaired)
  | some (basic, side, bound) =>
    let s := if pivots = s.blandThreshold then s.countFallback else s
    let r ← s.tableau.row basic
    match ← s.entering? side r bland with
    | some entering =>
      let s ← s.pivotTo basic entering (r.coefficient entering) bound.value
      return (s, .pivoted)
    | none => return (s.giveUp, .stuck (← rowConflict s.model side bound r))

/-- The repair with at most the given number of steps left. -/
def repairWithin : Nat → (pivots : Nat) → Simplex → Checked (Simplex × Option Conflict)
  | 0, _, _ => .error .stepsExhausted
  | n + 1, pivots, s => do
    match ← s.repairStep pivots with
    | (s, .repaired) => return (s, none)
    | (s, .stuck c) => return (s, some c)
    | (s, .pivoted) => repairWithin n (pivots + 1) s

/-- A number of steps that no repair exceeds. Before Bland's rule there are as many pivots as the
threshold says, and under it fewer than `3 ^ n` for `n` variables. -/
def stepLimit (s : Simplex) : Nat := s.blandThreshold + Nat.pow 4 (s.tableau.numVariables + 1)

/-- The tableau is consistent, every basic variable has the value of its row, and every variable is
within its bounds. -/
def isConsistent (s : Simplex) : Checked Bool := do
  if !s.tableau.isConsistent then return false
  let vars := s.model.byVar.keys.map Var.mk
  if !(← s.tableau.basicVars.allM fun b =>
      return (← s.model.value b) = (← s.currentRowValue b)) then
    return false
  vars.allM fun v => return (← s.model.violation? v).isNone

/-- The state, if it is consistent or not to be checked. -/
def verified (s : Simplex) : Checked Simplex := do
  if s.tableau.debugChecks then
    if !(← s.isConsistent) then throw .inconsistentSimplex
  return s

/-- Pivots until every bound holds, and commits the values; or until a row shows that the bounds
cannot hold together, and reverts them. -/
def repair (s : Simplex) : Checked (Simplex × Option Conflict) := do
  match ← s.repairWithin s.stepLimit 0 with
  | (s, none) => return (← s.verified, none)
  | (s, some c) => return (s, some c)

end LinearArithmetic.Simplex
