import LinearArithmetic.Collection.FlatTrail
import LinearArithmetic.Model.Run

/-!
# Models with a list of changed variables

The variables whose values have changed since the last commit can be kept in a list, so that a
commit and a revert only touch these. A variable joins the list with its first change. The changes
of bounds stand in one list as well, next to the positions at which scopes start.
-/

namespace LinearArithmetic.Model

/-- A model that lists the variables which have changed since the last commit. -/
structure Listed where
  byVar : Arena ModelEntry := {}
  changed : List Var := []
  trail : FlatTrail BoundChange := {}
  deriving DecidableEq

namespace Listed

/-- The model with what is kept for a variable changed. -/
def update (v : Var) (f : ModelEntry → ModelEntry) (l : Listed) : Listed :=
  { l with byVar := l.byVar.modify v.id f }

/-- The model with a new value for a variable, which is listed if this is its first change. -/
def setValue (v : Var) (x : DeltaRat) (l : Listed) : Checked Listed := do
  let e ← l.byVar.get v.id
  let changed := if e.saved.isNone then l.changed ++ [v] else l.changed
  return { l.update v (·.setValue x) with changed }

/-- The model with both the value and the last committed value of a variable set. -/
def introduce (v : Var) (current safe : DeltaRat) (l : Listed) : Checked Listed := do
  if (← l.byVar.get v.id).saved.isSome then throw .uncommitted
  let l := l.update v fun e => { e with value := safe }
  if current ≠ safe then l.setValue v current else return l

/-- Some variable is listed. -/
def hasUncommitted (l : Listed) : Bool := !l.changed.isEmpty

/-- The model with what is kept for the listed variables changed, and no variable listed. -/
def settle (f : ModelEntry → ModelEntry) (l : Listed) : Listed :=
  { l.changed.foldl (fun l v => l.update v f) l with changed := [] }

/-- The model with the bound change recorded. -/
def setBound (side : Side) (v : Var) (b : Bound) (l : Listed) : Checked Listed := do
  let e ← l.byVar.get v.id
  let l := l.update v (·.setBound side (some b))
  return { l with trail := l.trail.push ⟨side, v, e.bound side⟩ }

/-- The model with the bounds it had when `level` scopes were open. -/
def backtrack (level : Nat) (l : Listed) : Checked Listed := do
  let (trail, undone) ← l.trail.backtrack level
  return undone.foldl (fun l c => l.update c.var (·.setBound c.side c.previous)) { l with trail }

/-- The model after an operation. -/
def step (l : Listed) : Operation → Checked Listed
  | .ensure v => return { l with byVar := l.byVar.ensure v.id {} }
  | .setValue v x => l.setValue v x
  | .introduce v current safe => l.introduce v current safe
  | .commit => return l.settle ModelEntry.commit
  | .revert => return l.settle ModelEntry.revert
  | .setBound side v b => l.setBound side v b
  | .openScope => return { l with trail := l.trail.openScope }
  | .backtrack level => l.backtrack level

/-- The model after a sequence of operations. -/
def run (l : Listed) (ops : List Operation) : Checked Listed := ops.foldlM step l

end Listed

end LinearArithmetic.Model
