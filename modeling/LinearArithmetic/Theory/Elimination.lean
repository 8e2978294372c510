import LinearArithmetic.Theory.Basic

/-!
# Rows that come and go

The row of a slack variable is added to the tableau when it is first needed. A variable that no
constraint mentions can be eliminated: it is made basic, and its row is taken out of the tableau.
An eliminated variable that is needed again is reinstated as a basic variable, after the
eliminated variables of its row.
-/

namespace LinearArithmetic.Theory

/-- The theory with another tableau. -/
def setTableau (s : Theory) (t : Tableau) : Theory :=
  { s with simplex := { s.simplex with tableau := t } }

/-- The theory with another model. -/
def setModel (s : Theory) (m : Model) : Theory :=
  { s with simplex := { s.simplex with model := m } }

/-- Gives a basic variable whose row was just added the value of its row. -/
def valueNewBasic (v : Var) (s : Theory) : Checked Theory := do
  let current ← s.simplex.currentRowValue v
  let safe ← s.simplex.safeRowValue v
  let s := s.setModel (← s.simplex.model.introduce v current safe)
  return { s with simplex := s.simplex.mark v }

/-- Adds the row of a variable to the tableau and gives the variable the value of its row. -/
def addRow (v : Var) (r : Row) (s : Theory) : Checked Theory := do
  (s.setTableau (← s.simplex.tableau.addRow v r.entries)).valueNewBasic v

/-- Reinstates a variable, where at most the given number of variables is eliminated. -/
def reinstateWithin : Nat → Var → Theory → Checked Theory
  | 0, _, s => .ok s
  | n + 1, v, s =>
    match s.eliminated.lookup v with
    | none => .ok s
    | some r => do
      let s := { s with eliminated := s.eliminated.filter fun e => e.1 ≠ v }
      let s ← r.vars.foldlM (fun s u => reinstateWithin n u s) s
      s.addRow v r

/-- Puts an eliminated variable back into the tableau as a basic variable. -/
def reinstate (v : Var) (s : Theory) : Checked Theory :=
  s.reinstateWithin s.eliminated.length v

/-- Makes sure that an eliminated variable is back and the row of a slack variable in the
tableau. -/
def materialize (v : Var) (s : Theory) : Checked Theory := do
  let s ← s.reinstate v
  if (← s.info v).materialized then return s
  match s.definition? v with
  | none => return s
  | some r =>
    let s ← r.vars.foldlM (fun s u => s.reinstate u) s
    let s ←
      if s.simplex.tableau.isEjected v then do
        (s.setTableau (← s.simplex.tableau.reinject v)).valueNewBasic v
      else s.addRow v r
    return s.updateInfo v fun i => { i with materialized := true }

/-- Eliminates a variable that no constraint mentions, and tells whether it is eliminated. A
variable that is not basic is first exchanged with the basic variable of the shortest row
mentioning it; if no row does, it stays. -/
def eliminate (v : Var) (s : Theory) : Checked (Theory × Bool) := do
  if s.database.hasConstraints v then throw (.constrained v)
  if s.isEliminated v then return (s, true)
  let tableau := s.simplex.tableau
  let basic? : Option Tableau ←
    if tableau.isBasic v then pure (some tableau)
    else do
      match ← tableau.shortestRowContaining v with
      | none => pure none
      | some b => pure (some (← tableau.pivot b v))
  match basic? with
  | none => return (s, false)
  | some tableau =>
    let (tableau, r) ← tableau.removeRow v
    let s := s.setTableau tableau
    return ({ s with eliminated := (v, r) :: s.eliminated }, true)

/-- Eliminates the variables of a list, and counts those that are. -/
def eliminateAll (vs : List Var) (s : Theory) : Checked (Theory × Nat) :=
  vs.foldlM (fun (s, n) v => do
    let (s, done) ← s.eliminate v
    return (s, if done then n + 1 else n)) (s, 0)

/-- Adds the rows of the slack variables that constraints mention, eliminates the leaves that no
constraint mentions, and counts the eliminated ones. -/
def presolve (s : Theory) : Checked (Theory × Nat) := do
  if !s.options.eliminateUnconstrained then return (s, 0)
  let constrained := s.vars.filter fun v => s.isSlack v && s.database.hasConstraints v
  let s ← constrained.foldlM (fun s v => s.materialize v) s
  let s := s.setModel s.simplex.model.commit
  let free := s.vars.filter fun v =>
    !s.isSlack v && !s.database.hasConstraints v && !s.isEliminated v
  s.eliminateAll free

end LinearArithmetic.Theory
