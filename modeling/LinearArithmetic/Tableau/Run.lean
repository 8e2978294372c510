import LinearArithmetic.Tableau.Pivot

/-!
# Runs of a tableau

A tableau by itself can be asked for any sequence of its operations. Every operation asserts its
preconditions; outside them it has no result.
-/

namespace LinearArithmetic.Tableau

/-- The operations that change a tableau. -/
inductive Operation where
  | ensure (v : Var)
  | addRow (basic : Var) (coefficients : List Rat) (vars : List Var)
  | pivot (basic entering : Var)
  | eject (basic : Var)
  | reinject (basic : Var)
  | removeRow (basic : Var)
  | clear
  deriving DecidableEq

/-- The tableau after an operation. -/
def step (t : Tableau) : Operation → Checked Tableau
  | .ensure v => return t.ensure v
  | .addRow basic coefficients vars => t.addRowOf basic coefficients vars
  | .pivot basic entering => t.pivot basic entering
  | .eject basic => t.eject basic
  | .reinject basic => t.reinject basic
  | .removeRow basic => return (← t.removeRow basic).1
  | .clear => return t.clear

/-- The tableau after a sequence of operations. -/
def run (t : Tableau) (ops : List Operation) : Checked Tableau := ops.foldlM step t

/-- A row can be put in for the variable: it has none, neither in the tableau nor set aside, it
stands in none, and its definition does not come down to itself. -/
def canDefine (t : Tableau) (basic : Var) (definition : List (Var × Rat)) : Bool :=
  !t.isBasic basic && !t.isEjected basic && t.columnSize basic == 0 &&
    !(t.expand definition).contains basic

/-- The preconditions that an operation asserts. -/
def allows (t : Tableau) : Operation → Bool
  | .ensure _ => true
  | .addRow basic coefficients vars =>
    coefficients.length == vars.length && t.canDefine basic (vars.zip coefficients)
  | .pivot basic entering =>
    !t.isBasic entering && (t.row? basic).any fun r => r.contains entering
  | .eject basic => t.isBasic basic
  | .reinject basic =>
    (t.ejected.get? basic).any fun r =>
      { t with ejected := t.ejected.erase basic }.canDefine basic r.entries
  | .removeRow basic => t.isBasic basic
  | .clear => true

/-- Every operation of a sequence is met with its preconditions. -/
def allowsAll (t : Tableau) : List Operation → Bool
  | [] => true
  | op :: ops => t.allows op &&
    match t.step op with
    | .ok t => t.allowsAll ops
    | .error _ => true

end LinearArithmetic.Tableau
