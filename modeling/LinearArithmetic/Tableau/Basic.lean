import LinearArithmetic.Collection.Arena
import LinearArithmetic.Tableau.Row

/-!
# The tableau

A tableau is a system of equations `basic = row`. Every basic variable owns one row, and rows
mention only variables that are not basic. For every variable the tableau keeps the basic
variables whose rows mention it, so that a change of a variable visits the affected rows alone.
Rows can be set aside (ejected) and put back later.
-/

namespace LinearArithmetic

/-- What the tableau keeps for one variable. -/
structure TableauEntry where
  /-- the row, if the variable is basic -/
  row : Option Row := none
  /-- the basic variables whose rows mention the variable -/
  column : SortedSet Var := ∅
  deriving DecidableEq

instance : Inhabited TableauEntry := ⟨{}⟩

/-- A system of rows with an index by column. -/
structure Tableau where
  byVar : Arena TableauEntry := {}
  /-- rows set aside, by the variable they define -/
  ejected : SortedMap Var Row := ∅
  numRows : Nat := 0
  numEntries : Nat := 0
  /-- a new row and a pivot are followed by a check of the whole tableau, as in builds for
  debugging -/
  debugChecks : Bool := false
  deriving DecidableEq

namespace Tableau

instance : Inhabited Tableau := ⟨{}⟩

/-- The number of variables that there is room for. -/
def numVariables (t : Tableau) : Nat := t.byVar.size

/-- The row of a variable, if it is basic. -/
def row? (t : Tableau) (v : Var) : Option Row := do (← t.byVar.get? v.id).row

/-- The variable is basic. -/
def isBasic (t : Tableau) (v : Var) : Bool := (t.row? v).isSome

/-- The row of the variable is set aside. -/
def isEjected (t : Tableau) (v : Var) : Bool := t.ejected.contains v

/-- The basic variables, in increasing order. -/
def basicVars (t : Tableau) : List Var :=
  (t.byVar.keys.map Var.mk).filter t.isBasic

/-- The row of a basic variable. -/
def row (t : Tableau) (v : Var) : Checked Row := do
  match (← t.byVar.get v.id).row with
  | some r => .ok r
  | none => .error (.notBasic v)

/-- The coefficient of a variable in the row of a basic variable, if the row mentions it. -/
def coefficient? (t : Tableau) (basic v : Var) : Checked (Option Rat) := do
  return (← t.row basic).coefficient? v

/-- The set of basic variables whose rows mention the variable. -/
def columnSet (t : Tableau) (v : Var) : SortedSet Var :=
  ((t.byVar.get? v.id).map TableauEntry.column).getD ∅

/-- The basic variables whose rows mention the variable, in increasing order. -/
def column (t : Tableau) (v : Var) : List Var := (t.columnSet v).keys

/-- The number of rows that mention the variable. -/
def columnSize (t : Tableau) (v : Var) : Nat := (t.columnSet v).size

/-- The number of entries per place: entries over rows times variables, zero if there are no
places. -/
def density (t : Tableau) : Float :=
  if t.numRows = 0 ∨ t.numVariables = 0 then 0.0
  else Float.ofNat t.numEntries / Float.ofNat (t.numRows * t.numVariables)

/-- The rows, by increasing basic variable. -/
def rows (t : Tableau) : List Row := t.basicVars.filterMap t.row?

/-- Rows mention only variables that are not basic, the index lists exactly the rows that mention a
variable, and the counters are right. -/
def isConsistent (t : Tableau) : Bool :=
  (t.basicVars.all fun b => (t.row? b).all fun r => r.vars.all fun v =>
    !t.isBasic v && (t.columnSet v).contains b) &&
  ((t.byVar.keys.map Var.mk).all fun v => (t.column v).all fun b =>
    (t.row? b).any fun r => r.contains v) &&
  decide (t.numRows = t.rows.length ∧ t.numEntries = (t.rows.map Row.size).foldl (· + ·) 0)

/-- The tableau, if it is consistent or not to be checked. -/
def verified (t : Tableau) : Checked Tableau :=
  if t.debugChecks && !t.isConsistent then .error .inconsistentTableau else .ok t

/-- The tableau with room for a variable, which is not basic at first. -/
def ensure (v : Var) (t : Tableau) : Tableau :=
  { t with byVar := t.byVar.ensure v.id {} }

/-- The tableau with a basic variable put into or taken out of the column of `v`. -/
def recordUse (v basic : Var) (used : Bool) (t : Tableau) : Tableau :=
  { t with
    byVar := t.byVar.modify v.id fun e =>
      { e with column := SortedSet.setMember basic used e.column } }

/-- The tableau with the row of a variable replaced; the index and the counters stay. -/
def setRow (v : Var) (r : Option Row) (t : Tableau) : Tableau :=
  { t with byVar := t.byVar.modify v.id fun e => { e with row := r } }

/-- The tableau with a row put in for a variable that has none. -/
def install (basic : Var) (r : Row) (t : Tableau) : Tableau :=
  let t := r.vars.foldl (fun t v => t.recordUse v basic true) t
  { t.setRow basic (some r) with
    numRows := t.numRows + 1, numEntries := t.numEntries + r.size }

/-- A counter with an amount taken off, which must not exceed it. -/
def lowered (counter amount : Nat) : Checked Nat :=
  if amount ≤ counter then .ok (counter - amount) else .error .counterUnderflow

/-- The tableau without the row of a basic variable, and that row. -/
def uninstall (basic : Var) (t : Tableau) : Checked (Tableau × Row) := do
  let r ← t.row basic
  let t := r.vars.foldl (fun t v => t.recordUse v basic false) t
  let numEntries ← lowered t.numEntries r.size
  let numRows ← lowered t.numRows 1
  return ({ t.setRow basic none with numRows, numEntries }, r)

/-- The row a definition stands for over the variables that are not basic: basic variables of
the definition are replaced by their rows. -/
def expand (definition : List (Var × Rat)) (t : Tableau) : Row :=
  definition.foldl (fun row e =>
    match t.row? e.1 with
    | some r => row.addScaled e.2 r
    | none => row.add e.1 e.2) ∅

/-- The tableau with the row `basic = Σ coefficient·variable`. The variable must have no row,
neither in the tableau nor set aside, and no row may mention it. -/
def addRow (basic : Var) (definition : List (Var × Rat)) (t : Tableau) : Checked Tableau := do
  let t := t.ensure basic
  if t.isBasic basic then throw (.hasRow basic)
  if t.isEjected basic then throw (.hasEjectedRow basic)
  if t.columnSize basic ≠ 0 then throw (.usedInRow basic)
  let t := definition.foldl (fun t e => t.ensure e.1) t
  let r := t.expand definition
  if r.contains basic then throw (.selfDefined basic)
  (t.install basic r).verified

/-- The tableau with the row `basic = Σ coefficients[i]·vars[i]`. -/
def addRowOf (basic : Var) (coefficients : List Rat) (vars : List Var) (t : Tableau) :
    Checked Tableau :=
  if coefficients.length = vars.length then t.addRow basic (vars.zip coefficients)
  else .error .lengthMismatch

/-- The tableau without the row of a variable, which is set aside. -/
def eject (basic : Var) (t : Tableau) : Checked Tableau := do
  let (t, r) ← t.uninstall basic
  return { t with ejected := t.ejected.insert basic r }

/-- The tableau with a row that was set aside put back, over the variables that are not basic
now. -/
def reinject (basic : Var) (t : Tableau) : Checked Tableau :=
  match t.ejected.get? basic with
  | some r => { t with ejected := t.ejected.erase basic }.addRow basic r.entries
  | none => .error (.noEjectedRow basic)

/-- The tableau with every row that was set aside put back, by increasing variable. -/
def reinjectAll (t : Tableau) : Checked Tableau :=
  t.ejected.keys.foldlM (fun t v => t.reinject v) t

/-- The tableau without the row of a variable, and that row. -/
def removeRow (basic : Var) (t : Tableau) : Checked (Tableau × Row) := t.uninstall basic

/-- The tableau without any row; the room for variables stays. -/
def clear (t : Tableau) : Tableau :=
  { byVar := t.byVar.map fun _ => {}, debugChecks := t.debugChecks }

/-- Of two basic variables with their row sizes, the one with the shorter row; the smaller
variable if the rows are equally long. -/
def shorter (a b : Nat × Var) : Nat × Var :=
  if b.1 < a.1 ∨ (b.1 = a.1 ∧ b.2 < a.2) then b else a

/-- Of some basic variables, the one with the shortest row; of several, the smallest. -/
def shortest (t : Tableau) (candidates : List Var) : Checked (Option Var) := do
  let sized ← candidates.mapM fun v => do return ((← t.row v).size, v)
  match sized with
  | [] => return none
  | c :: cs => return some (cs.foldl shorter c).2

/-- Of the rows that mention a variable, the one with the fewest entries; of several, the one of
the smallest basic variable. -/
def shortestRowContaining (t : Tableau) (v : Var) : Checked (Option Var) :=
  t.shortest (t.column v)

end Tableau

end LinearArithmetic
