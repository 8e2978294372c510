import LinearArithmetic.Database.Implied
import LinearArithmetic.Database.Proof
import LinearArithmetic.Simplex.Bounds
import LinearArithmetic.Theory.Classify

/-!
# Asserting facts

An asserted literal marks its constraint as holding and becomes a bound of the simplex procedure
or an asserted disequality. It is in conflict if its negation is known to hold, if the bounds of
the variable cross, or if the bounds pin the variable to an excluded number.
-/

namespace LinearArithmetic.Theory

/-- The conjunction of the asserted literals behind a conflict. -/
def conflictTerm (s : Theory) (c : Conflict) : Checked Term :=
  return .all (← s.database.explanationLiterals c.constraints)

/-- The conflict of a non-strict bound at an excluded number with the bound on the other side at
the same number. -/
def pinnedConflict? (side : Side) (c : ConstraintId) (v : Var) (x : DeltaRat) (s : Theory) :
    Checked (Option Conflict) := do
  if x.infinitesimal ≠ 0 then return none
  match s.database.find? ⟨v, .disequality, x⟩ with
  | none => return none
  | some d =>
    if !(← s.database.hasProof d) then return none
    match ← s.simplex.model.bound side.opposite v with
    | some b => return if b.value = x then some (.of [d, c, b.reason]) else none
    | none => return none

/-- Asserts a bound on one side, unless it pins its variable to an excluded number. -/
def assertSide (side : Side) (c : ConstraintId) (v : Var) (x : DeltaRat) (s : Theory) :
    Checked (Theory × Option Conflict) := do
  match ← s.pinnedConflict? side c v x with
  | some conflict => return (s, some conflict)
  | none =>
    let (simplex, conflict) ← s.simplex.assertBound side v x c
    return ({ s with simplex }, conflict)

/-- Asserts that a variable differs from a number. It is a conflict if both bounds are there. -/
def assertDifferent (c : ConstraintId) (v : Var) (x : DeltaRat) (s : Theory) :
    Checked (Theory × Option Conflict) := do
  let s := { s with disequalities := s.disequalities.push c }
  match ← s.simplex.model.bound .lower v, ← s.simplex.model.bound .upper v with
  | some l, some u =>
    return (s, if l.value = x ∧ u.value = x then some (.of [c, l.reason, u.reason]) else none)
  | _, _ => return (s, none)

/-- Asserts what a constraint states. -/
def assertStatement (c : ConstraintId) (st : Statement) (s : Theory) :
    Checked (Theory × Option Conflict) :=
  match st.kind with
  | .lower => s.assertSide .lower c st.var st.value
  | .upper => s.assertSide .upper c st.var st.value
  | .equality => do
    let (simplex, conflict) ← s.simplex.assertEqual st.var st.value c
    return ({ s with simplex }, conflict)
  | .disequality => s.assertDifferent c st.var st.value

/-- Marks the constraints with literals that a constraint implies, and queues the literals. -/
def propagateImplied (c : ConstraintId) (s : Theory) : Checked Theory := do
  (← s.database.impliedBy c).foldlM (fun (s : Theory) implied => do
    match (← s.database.get implied).literal with
    | none => return s
    | some literal =>
      let database ← s.database.mark implied [c]
      return { s with database, propagations := s.propagations ++ [literal] }) s

/-- Asserts a constraint of which nothing is known yet, under one of its literals; a conflict is
given as a conjunction of asserted literals. -/
def assertConstraint (c : ConstraintId) (fact : Term) (s : Theory) :
    Checked (Theory × Option Term) := do
  let s := { s with database := ← s.database.markAsserted c fact }
  let st := (← s.database.get c).statement
  let s ← s.materialize st.var
  match ← s.assertStatement c st with
  | (s, some conflict) => return (s, some (← s.conflictTerm conflict))
  | (s, none) =>
    if s.options.propagateBounds && st.kind ≠ .disequality then
      return (← s.propagateImplied c, none)
    else return (s, none)

/-- Processes an asserted literal; a conflict is given as a conjunction of asserted literals. -/
def assertFact (fact : Term) (s : Theory) : Checked (Theory × Option Term) :=
  match s.registerLiteral fact with
  | .error (.fault f) => .error f
  | .error (.refusal why) => .error (.factRefused fact why)
  | .ok (s, none) =>
    .ok (s, if s.constantTruth? fact = some true then none else some fact)
  | .ok (s, some c) => do
    if ← s.database.negationHasProof c then
      let negation := (← s.database.get c).negation
      let literals ← s.database.explanationLiterals [negation]
      return (s, some (.all (fact :: literals).eraseDups))
    if ← s.database.hasProof c then return (s, none)
    s.assertConstraint c fact

end LinearArithmetic.Theory
