import LinearArithmetic.Tableau.Basic

/-!
# Pivoting

A pivot exchanges the roles of a basic variable and a variable of its row: the row is solved for
that variable, and the solution replaces the variable in every other row.
-/

namespace LinearArithmetic.Tableau

/-- `factor` times an entry of a definition added to the row of `basic`. The index and the count of
the entries follow what that does to the entry of the variable; the row itself is kept apart from
the tableau. -/
def substituteEntry (basic : Var) (factor : Rat) (s : Tableau × Row) (e : Var × Rat) :
    Checked (Tableau × Row) := do
  let (t, r) := s
  let row := r.add e.1 (factor * e.2)
  match r.change e.1 (factor * e.2) with
  | .created =>
    return ({ t.recordUse e.1 basic true with numEntries := t.numEntries + 1 }, row)
  | .cancelled =>
    let numEntries ← lowered t.numEntries 1
    return ({ t.recordUse e.1 basic false with numEntries }, row)
  | .updated | .unchanged => return (t, row)

/-- The tableau with `v` replaced by its definition in the row of `basic`. -/
def substitute (v : Var) (definition : Row) (t : Tableau) (basic : Var) : Checked Tableau := do
  let r ← t.row basic
  match r.coefficient? v with
  | none => return t
  | some factor =>
    let numEntries ← lowered t.numEntries 1
    let t := { t.recordUse v basic false with numEntries }
    let (t, r) ← definition.entries.foldlM (substituteEntry basic factor) (t, r.erase v)
    return t.setRow basic (some r)

/-- The tableau in which `entering` is basic instead of `basic`, whose row must mention it. -/
def pivot (basic entering : Var) (t : Tableau) : Checked Tableau := do
  if !t.isBasic basic || t.isBasic entering then throw (.pivotRoles basic entering)
  let (t, r) ← t.uninstall basic
  match r.coefficient? entering with
  | none => throw (.notInRow basic entering)
  | some c =>
    let solved := r.solveFor basic entering c
    let t ← (t.column entering).foldlM (substitute entering solved) t
    (t.install entering solved).verified

end LinearArithmetic.Tableau
