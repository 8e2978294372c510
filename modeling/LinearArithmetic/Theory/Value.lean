import LinearArithmetic.Evaluation
import LinearArithmetic.Model.ConcreteDelta
import LinearArithmetic.Theory.Classify

/-!
# Values of terms

The values of the variables become rationals when a concrete number is substituted for the
infinitesimal, one that keeps all bounds and asserted disequalities satisfied. With them every
leaf that has a variable gets a value, and through these the terms do.
-/

namespace LinearArithmetic.Theory

/-- The asserted disequalities, as variables with excluded numbers. -/
def excluded (s : Theory) : Checked (List (Var × DeltaRat)) :=
  s.disequalities.toList.mapM fun d => do
    let st := (← s.database.get d).statement
    return (st.var, st.value)

/-- The number that stands for the infinitesimal in values. -/
def concreteDelta (s : Theory) : Checked Rat := do
  s.simplex.model.concreteDelta s.options.defaultDelta (← s.excluded)

/-- The leaves that have a variable, with their values. -/
def leafValues (s : Theory) : Checked (List (Term × Rat)) := do
  let delta ← s.concreteDelta
  s.leaves.mapM fun (leaf, v) => return (leaf, (← s.value v).substitute delta)

/-- The value of an arithmetic term. -/
def rationalValue (t : Term) (s : Theory) : Except Failure Rat := do
  let values ← s.leafValues.mapError .fault
  (t.rationalValue fun u => values.lookup u).mapError .refusal

/-- The value of an arithmetic term or a formula. -/
def evaluate (t : Term) (s : Theory) : Except Failure ModelValue := do
  let values ← s.leafValues.mapError .fault
  (t.evaluate fun u => values.lookup u).mapError .refusal

end LinearArithmetic.Theory
