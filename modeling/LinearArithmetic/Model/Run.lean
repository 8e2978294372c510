import LinearArithmetic.Model.Basic

/-!
# Runs of a model

A model by itself can be asked for any sequence of its operations. An operation outside its
preconditions has no result.
-/

namespace LinearArithmetic.Model

/-- The operations that change a model. -/
inductive Operation where
  | ensure (v : Var)
  | setValue (v : Var) (x : DeltaRat)
  | introduce (v : Var) (current safe : DeltaRat)
  | commit
  | revert
  | setBound (side : Side) (v : Var) (b : Bound)
  | openScope
  | backtrack (level : Nat)
  deriving DecidableEq

/-- The model after an operation. -/
def step (m : Model) : Operation → Checked Model
  | .ensure v => return m.ensure v
  | .setValue v x => m.setValue v x
  | .introduce v current safe => m.introduce v current safe
  | .commit => return m.commit
  | .revert => return m.revert
  | .setBound side v b => m.setBound side v b
  | .openScope => return m.openScope
  | .backtrack level => m.backtrack level

/-- The model after a sequence of operations. -/
def run (m : Model) (ops : List Operation) : Checked Model := ops.foldlM step m

/-- The preconditions of an operation: its variable is one of the model, a variable is introduced
while no change of its value is uncommitted, and scopes that are left are open. -/
def allows (m : Model) : Operation → Bool
  | .setValue v _ | .setBound _ v _ => v.id < m.numVariables
  | .introduce v _ _ => (m.byVar.get? v.id).any fun e => e.saved.isNone
  | .backtrack level => level ≤ m.trail.level
  | _ => true

/-- Every operation of a sequence is met with its preconditions. -/
def allowsAll (m : Model) : List Operation → Bool
  | [] => true
  | op :: ops => m.allows op &&
    match m.step op with
    | .ok m => m.allowsAll ops
    | .error _ => true

end LinearArithmetic.Model
