import LinearArithmetic.Database.Scope
import LinearArithmetic.Theory.Elimination

/-!
# Resetting the tableau

A reset rebuilds the tableau from the definitions of the slack variables. Those with bounds or
asserted disequalities get their rows back; the rows of the others that had one are set aside.
The rebuilt tableau depends on the asserted facts alone. Values stay, and variables that were
eliminated are eliminated again where a row mentions them.
-/

namespace LinearArithmetic.Theory

/-- The variables with asserted disequalities. -/
def excludedVars (s : Theory) : Checked (List Var) :=
  s.disequalities.toList.mapM fun d => return (← s.database.get d).statement.var

/-- The slack variables whose rows belong into the tableau: those with bounds or asserted
disequalities. -/
def neededSlacks (s : Theory) : Checked (List Var) := do
  let excluded ← s.excludedVars
  (s.vars.filter s.isSlack).filterM fun v => do
    return (← s.simplex.model.hasBounds v) || excluded.contains v

/-- The slack variables whose rows are in the tableau or set aside. -/
def slacksWithRow (s : Theory) : Checked (List Var) :=
  (s.vars.filter s.isSlack).filterM fun v => do
    return (← s.info v).materialized || s.simplex.tableau.isEjected v

/-- The theory with the values of variables assigned in turn; each value is computed from the
theory at that point. -/
def assignAll (value : Theory → Var → Checked DeltaRat) (vs : List Var) (s : Theory) :
    Checked Theory :=
  vs.foldlM (fun s v => do
    let x ← value s v
    return s.setModel (← s.simplex.model.setValue v x)) s

/-- The theory with the row of a slack variable rebuilt from its definition, in the tableau if it
is needed and set aside otherwise. -/
def rebuildRow (needed : List Var) (s : Theory) (v : Var) : Checked Theory := do
  match s.definition? v with
  | none => return s
  | some r =>
    let tableau ← s.simplex.tableau.addRow v r.entries
    if needed.contains v then
      return (s.setTableau tableau).updateInfo v fun i => { i with materialized := true }
    else return s.setTableau (← tableau.eject v)

/-- The theory with a variable that is neither basic nor eliminated moved onto a bound that it
violates. -/
def repairNonBasic (s : Theory) (v : Var) : Checked Theory := do
  if s.simplex.tableau.isBasic v || s.isEliminated v then return s
  match ← s.simplex.model.violation? v with
  | none => return s
  | some (_, b) => return { s with simplex := ← s.simplex.move v b.value }

/-- The theory with every basic variable marked as possibly violating a bound. -/
def markBasics (s : Theory) : Theory :=
  { s with simplex := s.simplex.tableau.basicVars.foldl (fun x v => x.mark v) s.simplex }

/-- Rebuilds the tableau. All changes of values must have been committed. -/
def resetTableau (s : Theory) : Checked Theory := do
  if s.simplex.model.hasUncommitted then throw .uncommitted
  let needed ← s.neededSlacks
  let eliminated := s.vars.filter s.isEliminated
  let s ← s.assignAll value eliminated
  let s := { s with eliminated := [] }
  let hadRow ← s.slacksWithRow
  let slacks := s.vars.filter fun v => needed.contains v || hadRow.contains v
  let s := s.setTableau s.simplex.tableau.clear
  let s := { s with infos := s.infos.map fun i => { i with materialized := false } }
  let s ← slacks.foldlM (rebuildRow needed) s
  let s ← s.assignAll (fun s v => s.simplex.currentRowValue v) s.simplex.tableau.basicVars
  let (s, _) ← s.eliminateAll eliminated
  let s := (← s.vars.foldlM repairNonBasic s).markBasics
  let s := s.setModel s.simplex.model.commit
  let s := { s with
    schedule := { s.schedule with densityAfterReset := some s.simplex.tableau.density } }
  let (database, _) ← s.database.collect
  return { s with database }

/-- The tableau has become so much denser since the last reset that another one is due. -/
def isBloated (s : Theory) : Bool :=
  match s.schedule.densityAfterReset with
  | none => true
  | some previous => s.simplex.tableau.density ≥ previous * s.options.resetDensityFactor

/-- Counts a restart of the search. At the end of each period the next one gets longer, and the
tableau is reset if it is due. -/
def restart (s : Theory) : Checked Theory := do
  let since := s.schedule.sinceReset + 1
  let s := { s with schedule := { s.schedule with restarts := s.schedule.restarts + 1 } }
  if since < s.schedule.period then
    return { s with schedule := { s.schedule with sinceReset := since } }
  let period := s.schedule.period + s.options.resetPeriodIncrement
  if counterLimit ≤ period then throw .counterOverflow
  let s := { s with schedule := { s.schedule with sinceReset := 0, period } }
  if s.isBloated then s.resetTableau else return s

end LinearArithmetic.Theory
