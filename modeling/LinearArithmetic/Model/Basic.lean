import LinearArithmetic.Collection.Arena
import LinearArithmetic.Collection.Trail

/-!
# Models under construction

A model gives every variable a value and keeps the bounds that the value has to respect.

Changes of values are transactional: the first change of a variable since the last commit saves
its old value, a revert puts the saved values back, and a commit forgets them. Bounds follow the
scopes of the search instead: each change is recorded on a trail and undone when its scope is
left.
-/

namespace LinearArithmetic

/-- A bound with the constraint that it comes from. -/
structure Bound where
  value : DeltaRat
  reason : ConstraintId
  deriving DecidableEq, Inhabited

/-- The two sides on which a variable can be bounded. -/
inductive Side where
  | lower | upper
  deriving DecidableEq

namespace Side

/-- The other side. -/
def opposite : Side → Side
  | lower => upper
  | upper => lower

/-- A number is on the wrong side of a limit: below a lower or above an upper one. -/
def beyond : Side → (limit x : DeltaRat) → Bool
  | lower, limit, x => x < limit
  | upper, limit, x => limit < x

end Side

/-- What the model keeps for one variable. -/
structure ModelEntry where
  value : DeltaRat := 0
  /-- the value at the last commit, if the value has changed since -/
  saved : Option DeltaRat := none
  lower : Option Bound := none
  upper : Option Bound := none
  deriving DecidableEq

namespace ModelEntry

instance : Inhabited ModelEntry := ⟨{}⟩

/-- The value at the last commit. -/
def safeValue (e : ModelEntry) : DeltaRat := e.saved.getD e.value

/-- The bound on one side. -/
def bound (e : ModelEntry) : Side → Option Bound
  | .lower => e.lower
  | .upper => e.upper

/-- The entry with the bound on one side replaced. -/
def setBound (side : Side) (b : Option Bound) (e : ModelEntry) : ModelEntry :=
  match side with
  | .lower => { e with lower := b }
  | .upper => { e with upper := b }

/-- The entry with a new value; the first change since the last commit saves the old one. -/
def setValue (x : DeltaRat) (e : ModelEntry) : ModelEntry :=
  { e with value := x, saved := some e.safeValue }

/-- The number is beyond the bound on a side. -/
def outside (e : ModelEntry) (side : Side) (x : DeltaRat) : Bool :=
  (e.bound side).any fun b => side.beyond b.value x

/-- The side on which the value is beyond its bound, and that bound. -/
def violation? (e : ModelEntry) : Option (Side × Bound) :=
  (e.lower.filter fun b => Side.lower.beyond b.value e.value).map (Side.lower, ·)
    |>.or ((e.upper.filter fun b => Side.upper.beyond b.value e.value).map (Side.upper, ·))

/-- The entry with the value of the last commit. -/
def revert (e : ModelEntry) : ModelEntry := { e with value := e.safeValue, saved := none }

/-- The entry with its value committed. -/
def commit (e : ModelEntry) : ModelEntry := { e with saved := none }

end ModelEntry

/-- A change of a bound: whose bound it is, on which side, and what was there before. -/
structure BoundChange where
  side : Side
  var : Var
  previous : Option Bound
  deriving DecidableEq

/-- The values of the variables, their bounds, and the trail of bound changes. -/
structure Model where
  byVar : Arena ModelEntry := {}
  trail : Trail BoundChange := {}
  deriving DecidableEq

namespace Model

instance : Inhabited Model := ⟨{}⟩

/-- The number of variables. -/
def numVariables (m : Model) : Nat := m.byVar.size

/-- The model with a variable: it starts at zero and without bounds. -/
def ensure (v : Var) (m : Model) : Model := { m with byVar := m.byVar.ensure v.id {} }

/-- What is kept for a variable of the model. -/
def entry (m : Model) (v : Var) : Checked ModelEntry := m.byVar.get v.id

/-- The model with what is kept for a variable changed. -/
def update (v : Var) (f : ModelEntry → ModelEntry) (m : Model) : Model :=
  { m with byVar := m.byVar.modify v.id f }

/-! ## Values -/

/-- The value of a variable. -/
def value (m : Model) (v : Var) : Checked DeltaRat := return (← m.entry v).value

/-- The value of a variable at the last commit. -/
def safeValue (m : Model) (v : Var) : Checked DeltaRat := return (← m.entry v).safeValue

/-- The model with a new value for a variable. -/
def setValue (v : Var) (x : DeltaRat) (m : Model) : Checked Model := do
  let _ ← m.entry v
  return m.update v (·.setValue x)

/-- The model with both the value and the last committed value of a variable set. The variable
must not have changed since the last commit. -/
def introduce (v : Var) (current safe : DeltaRat) (m : Model) : Checked Model := do
  if (← m.entry v).saved.isSome then throw .uncommitted
  let m := m.update v fun e => { e with value := safe }
  if current ≠ safe then m.setValue v current else return m

/-- Some value has changed since the last commit. -/
def hasUncommitted (m : Model) : Bool := m.byVar.items.any fun e => e.saved.isSome

/-- The model with the values of the last commit. -/
def revert (m : Model) : Model := { m with byVar := m.byVar.map ModelEntry.revert }

/-- The model with the current values committed. -/
def commit (m : Model) : Model := { m with byVar := m.byVar.map ModelEntry.commit }

/-! ## Bounds -/

/-- The bound of a variable on one side. -/
def bound (m : Model) (side : Side) (v : Var) : Checked (Option Bound) :=
  return (← m.entry v).bound side

/-- The variable is bounded on some side. -/
def hasBounds (m : Model) (v : Var) : Checked Bool := do
  let e ← m.entry v
  return e.lower.isSome || e.upper.isSome

/-- The model with a bound replaced; the change is recorded in the innermost scope. -/
def setBound (side : Side) (v : Var) (b : Bound) (m : Model) : Checked Model := do
  let e ← m.entry v
  let m := m.update v (·.setBound side (some b))
  return { m with trail := m.trail.push ⟨side, v, e.bound side⟩ }

/-- A number is beyond the bound of a variable on a side. -/
def outside (m : Model) (side : Side) (v : Var) (x : DeltaRat) : Checked Bool :=
  return (← m.entry v).outside side x

/-- The bound that the value of a variable violates, and its side. -/
def violation? (m : Model) (v : Var) : Checked (Option (Side × Bound)) :=
  return (← m.entry v).violation?

/-- The model in a new scope. -/
def openScope (m : Model) : Model := { m with trail := m.trail.openScope }

/-- The model with one bound change undone. -/
def undo (m : Model) (c : BoundChange) : Model := m.update c.var (·.setBound c.side c.previous)

/-- The model with the bounds it had when `level` scopes were open. -/
def backtrack (level : Nat) (m : Model) : Checked Model := do
  let (trail, undone) ← m.trail.backtrack level
  return undone.foldl undo { m with trail }

end Model

end LinearArithmetic
