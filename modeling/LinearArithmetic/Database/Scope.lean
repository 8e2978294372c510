import LinearArithmetic.Database.Basic

/-!
# Marks, scopes and garbage collection

Preregistered and split constraints are marked as such, both halves of a pair alike, until the
scope is left. Pairs without any mark and without proofs can be removed.
-/

namespace LinearArithmetic

/-- The two sides of an equation that a value is to be decided for. -/
structure Trichotomy where
  lhs : Term
  rhs : Term

namespace Trichotomy

/-- The sides are equal. -/
def equation (t : Trichotomy) : Term := .rel .eq t.lhs t.rhs

/-- The left side is less. -/
def less (t : Trichotomy) : Term := .rel .lt t.lhs t.rhs

/-- The left side is greater. -/
def greater (t : Trichotomy) : Term := .rel .gt t.lhs t.rhs

/-- The sides are equal, or one is less than the other. -/
def clause (t : Trichotomy) : Term := .any [t.equation, t.less, t.greater]

end Trichotomy

namespace Database

/-- Marks a constraint as split, unless it is. -/
def setSplit (c : ConstraintId) (db : Database) : Checked Database := do
  if (← db.get c).split then return db
  let db := db.update c fun k => { k with split := true }
  return { db with changes := db.changes.push (.split c) }

/-- Marks an equality or disequality and its negation as split, and gives the two sides of the
equation. -/
def split (c : ConstraintId) (db : Database) : Checked (Database × Trichotomy) := do
  let k ← db.get c
  if k.statement.kind.isBound then throw (.notAnEquality c)
  let equality := if k.statement.kind = .equality then c else k.negation
  match (← db.get equality).literal with
  | none => throw (.splitWithoutLiteral c)
  | some (.rel .eq lhs rhs) => return (← (← db.setSplit c).setSplit k.negation, ⟨lhs, rhs⟩)
  | some _ => throw (.literalNotAnEquation c)

/-- Marks a constraint as preregistered. -/
def setPreregistered (c : ConstraintId) (db : Database) : Database :=
  let db := db.update c fun k => { k with preregistered := true }
  { db with changes := db.changes.push (.preregistered c) }

/-- Marks a constraint and its negation, which are not marked yet, as preregistered. -/
def preregister (c : ConstraintId) (db : Database) : Checked Database := do
  let k ← db.get c
  if k.preregistered || (← db.get k.negation).preregistered then throw (.alreadyPreregistered c)
  return (db.setPreregistered c).setPreregistered k.negation

/-! ## Garbage collection -/

/-- The constraints that can be removed, one of each pair. -/
def collectable (db : Database) : Checked (List ConstraintId) :=
  (db.constraints.keys.map ConstraintId.mk).filterM fun c => do
    let k ← db.get c
    if k.live && c.index < k.negation.index && k.isCollectable then
      return (← db.get k.negation).isCollectable
    else return false

/-- The database without a constraint; its number stays in use. -/
def remove (db : Database) (c : ConstraintId) : Checked Database := do
  let k ← db.get c
  let db := db.update c fun k => { k with live := false, literal := none }
  return db.setIndex k.statement none

/-- The database without the pairs that can be removed, and the number of constraints removed. -/
def collect (db : Database) : Checked (Database × Nat) := do
  let cs ← db.collectable
  let db ← cs.foldlM (fun db c => do
    let negation := (← db.get c).negation
    (← db.remove c).remove negation) db
  let literals ← db.literals.filterM fun (_, c) => return (← db.get c).live
  return ({ db with literals }, 2 * cs.length)

/-! ## Scopes -/

/-- The database in a new scope. -/
def openScope (db : Database) : Database := { db with changes := db.changes.openScope }

/-- The database with one change undone. -/
def undo (db : Database) : ConstraintChange → Database
  | .proof c => db.update c fun k => { k with proof := none, asserted := none }
  | .preregistered c => db.update c fun k => { k with preregistered := false }
  | .split c => db.update c fun k => { k with split := false }

/-- The database with what was known when `level` scopes were open. -/
def backtrack (level : Nat) (db : Database) : Checked Database := do
  let (changes, undone) ← db.changes.backtrack level
  return undone.foldl undo { db with changes }

end Database

end LinearArithmetic
