import LinearArithmetic.Theory.Elimination

/-!
# Following the rows of eliminated variables

The value of an eliminated variable is that of its row, in which other eliminated variables may
occur, and so on; an eliminated variable comes back after those of its row. Followed literally,
from a variable to those of its row, such a recursion has no measure to see. Here it has a limit on
its depth, and exceeding the limit is a fault.
-/

namespace LinearArithmetic

/-- The value of a row, where `value` gives rational values to its variables. -/
def Row.rationalUnder (value : Var → Checked Rat) (r : Row) : Checked Rat :=
  r.entries.foldlM (fun sum e => return sum + e.2 * (← value e.1)) 0

namespace Theory

/-- The row of an eliminated variable mentions another eliminated variable. -/
def RestsOn (s : Theory) (v u : Var) : Prop :=
  ∃ r, s.eliminated.lookup v = some r ∧ r.contains u = true ∧ s.isEliminated u = true

/-- What a variable has itself, or what its row makes of what the variables of the row have. -/
def unwind {α : Type} (own : Var → Checked α) (ofRow : (Var → Checked α) → Row → Checked α)
    (rows : List (Var × Row)) : Nat → Var → Checked α
  | 0, _ => .error .stepsExhausted
  | n + 1, v =>
    match rows.lookup v with
    | none => own v
    | some r => ofRow (unwind own ofRow rows n) r

/-- The value of a variable. -/
def valueToDepth (s : Theory) : Nat → Var → Checked DeltaRat :=
  unwind s.simplex.model.value Row.valueUnder s.eliminated

/-- The value of a variable with a number substituted for the infinitesimal, which is done where the
recursion ends. -/
def rationalToDepth (s : Theory) (d : Rat) : Nat → Var → Checked Rat :=
  unwind (fun v => return (← s.simplex.model.value v).substitute d) Row.rationalUnder s.eliminated

/-- Puts an eliminated variable back into the tableau, after those of its row. -/
def reinstateToDepth : Nat → Var → Theory → Checked Theory
  | 0, _, _ => .error .stepsExhausted
  | n + 1, v, s =>
    match s.eliminated.lookup v with
    | none => .ok s
    | some r => do
      let s := { s with eliminated := s.eliminated.filter fun e => e.1 ≠ v }
      let s ← r.vars.foldlM (fun s u => reinstateToDepth n u s) s
      s.addRow v r

end Theory

end LinearArithmetic
