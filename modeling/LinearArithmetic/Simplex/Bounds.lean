import LinearArithmetic.Simplex.Basic

/-!
# Asserting bounds

A new bound is in conflict with the bound on the other side if they cross; it is ignored if the
variable is bounded at least as tightly already; otherwise it is recorded, and the variable is
brought to it if its value is beyond it. A conflict leaves the state as it was.
-/

namespace LinearArithmetic.Simplex

/-- The conflict of a bound with the bound on the other side, if the two cross. -/
def crossing? (e : ModelEntry) (side : Side) (x : DeltaRat) (reason : ConstraintId) :
    Option Conflict :=
  (e.bound side.opposite).bind fun b =>
    if side.opposite.beyond b.value x then some (.of [reason, b.reason]) else none

/-- Asserts a bound on one side. -/
def assertBound (side : Side) (v : Var) (x : DeltaRat) (reason : ConstraintId) (s : Simplex) :
    Checked (Simplex × Option Conflict) := do
  let e ← s.model.entry v
  match crossing? e side x reason with
  | some c => return (s, some c)
  | none =>
    if (e.bound side).any fun b => !side.beyond x b.value then return (s, none)
    let s := { s with model := ← s.model.setBound side v ⟨x, reason⟩ }
    if side.beyond x e.value then return (← s.bring v x, none) else return (s, none)

/-- Asserts `v ≥ x`. -/
def assertLower : Var → DeltaRat → ConstraintId → Simplex → Checked (Simplex × Option Conflict) :=
  assertBound .lower

/-- Asserts `v ≤ x`. -/
def assertUpper : Var → DeltaRat → ConstraintId → Simplex → Checked (Simplex × Option Conflict) :=
  assertBound .upper

/-- The model with the bound of a variable on one side put at a number, unless it is there. -/
def pinBound (side : Side) (v : Var) (x : DeltaRat) (reason : ConstraintId) (m : Model) :
    Checked Model := do
  if (← m.bound side v).any fun b => b.value = x then return m
  else m.setBound side v ⟨x, reason⟩

/-- Asserts `v = x`: a lower and an upper bound for the same reason. -/
def assertEqual (v : Var) (x : DeltaRat) (reason : ConstraintId) (s : Simplex) :
    Checked (Simplex × Option Conflict) := do
  let e ← s.model.entry v
  match (crossing? e .upper x reason).or (crossing? e .lower x reason) with
  | some c => return (s, some c)
  | none =>
    let model ← pinBound .lower v x reason s.model
    let model ← pinBound .upper v x reason model
    let s := { s with model }
    if e.value ≠ x then return (← s.bring v x, none) else return (s, none)

end LinearArithmetic.Simplex
