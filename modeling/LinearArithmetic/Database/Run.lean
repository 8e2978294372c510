import LinearArithmetic.Database.Proof
import LinearArithmetic.Database.Scope

/-!
# Runs of the constraint database

The database by itself can be asked for any sequence of its operations. An operation outside its
preconditions has no result.
-/

namespace LinearArithmetic.Database

/-- The operations that change a database. -/
inductive Operation where
  | obtain (s : Statement)
  /-- a literal, and what its atom is classified as -/
  | addLiteral (literal : Term) (classified : Except Refusal Statement)
  | addAtom (atom : Term) (s : Statement)
  | mark (c : ConstraintId) (antecedents : List ConstraintId)
  | markAsserted (c : ConstraintId) (literal : Term)
  | split (c : ConstraintId)
  | preregister (c : ConstraintId)
  | collect
  | openScope
  | backtrack (level : Nat)

/-- The database after an operation. -/
def step (db : Database) : Operation → Checked Database
  | .obtain s => return (← db.obtain s).1
  | .addLiteral literal classified => do
    match ← db.addLiteral literal fun _ => classified with
    | .ok (db, _) => return db
    | .error _ => return db
  | .addAtom atom s => return (← db.addAtom atom s).1
  | .mark c antecedents => db.mark c antecedents
  | .markAsserted c literal => db.markAsserted c literal
  | .split c => return (← db.split c).1
  | .preregister c => db.preregister c
  | .collect => return (← db.collect).1
  | .openScope => return db.openScope
  | .backtrack level => db.backtrack level

/-- The database after a sequence of operations. -/
def run (db : Database) (ops : List Operation) : Checked Database := ops.foldlM step db

/-- The antecedents that an operation gives are known to hold. -/
def admits (db : Database) : Operation → Bool
  | .mark _ antecedents => antecedents.all fun a => (db.hasProof a matches .ok true)
  | _ => true

/-- Every antecedent that a sequence of operations gives is known to hold at that time. -/
def admitsAll (db : Database) : List Operation → Bool
  | [] => true
  | op :: ops => db.admits op &&
    match db.step op with
    | .ok db => db.admitsAll ops
    | .error _ => true

end LinearArithmetic.Database
