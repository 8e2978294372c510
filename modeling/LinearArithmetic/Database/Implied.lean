import LinearArithmetic.Database.Basic

/-!
# Constraints implied by a bound

A constraint with a known bound decides the constraints on its variable that lie beyond its
number. They are found by walking the numbers away from it. The walk ends at the first number
with a bound on the same side that is known already: what lies beyond was implied by that one.
-/

namespace LinearArithmetic.Database

/-- The list with a constraint added, if nothing is known of it and it is not there. -/
def addUnknown (db : Database) (implied : List ConstraintId) (c : ConstraintId) :
    Checked (List ConstraintId) := do
  if (← db.isUnknown c) && !implied.contains c then return implied ++ [c] else return implied

/-- What a bound on the inner side of a number implies about a constraint at the number: the
constraint itself for a bound of the same side and a disequality, its negation otherwise. -/
def consequence (side : ConstraintKind) (id : ConstraintId) (c : Constraint) : ConstraintId :=
  if c.statement.kind = side ∨ c.statement.kind = .disequality then id else c.negation

/-- The implied constraints at one number, and whether a known bound on the same side is there. -/
def visit (db : Database) (side : ConstraintKind) (ids : List ConstraintId)
    (implied : List ConstraintId) : Checked (List ConstraintId × Bool) :=
  ids.foldlM (fun (implied, stop) id => do
    let c ← db.get id
    if c.statement.kind = side && c.hasProof then return (implied, true)
    else return (← db.addUnknown implied (consequence side id c), stop)) (implied, false)

/-- The implied constraints along a walk over numbers. -/
def sweep (db : Database) (side : ConstraintKind) :
    List ValueSlots → List ConstraintId → Checked (List ConstraintId)
  | [], implied => .ok implied
  | slots :: rest, implied => do
    match ← db.visit side slots.toList implied with
    | (implied, true) => return implied
    | (implied, false) => sweep db side rest implied

/-- The constraints on a variable with smaller numbers, from the largest down. -/
def slotsBelow (db : Database) (v : Var) (x : DeltaRat) : List ValueSlots :=
  ((db.onVar v).filter fun y _ => y < x).values.reverse

/-- The constraints on a variable with larger numbers, from the smallest up. -/
def slotsAbove (db : Database) (v : Var) (x : DeltaRat) : List ValueSlots :=
  ((db.onVar v).filter fun y _ => x < y).values

/-- The bounds on a variable at exactly the given number. -/
def boundsAt (db : Database) (v : Var) (x : DeltaRat) : List ConstraintId :=
  [.lower, .upper].filterMap fun k => db.find? ⟨v, k, x⟩

/-- The constraints that a constraint implies and of which nothing is known, in the order they
are met. -/
def impliedBy (db : Database) (c : ConstraintId) : Checked (List ConstraintId) := do
  let ⟨v, kind, x⟩ := (← db.get c).statement
  let implied ← match kind with
    | .lower => db.sweep .lower (db.slotsBelow v x) []
    | .upper => db.sweep .upper (db.slotsAbove v x) []
    | .equality => do
      let implied ← (db.boundsAt v x).foldlM db.addUnknown []
      let implied ← db.sweep .lower (db.slotsBelow v x) implied
      db.sweep .upper (db.slotsAbove v x) implied
    | .disequality => pure []
  return implied.filter (· ≠ c)

end LinearArithmetic.Database
