import LinearArithmetic.Collection.Arena
import LinearArithmetic.Collection.SortedMap
import LinearArithmetic.Collection.Trail

/-!
# The constraint database

Every statement about a variable is stored at most once, and always together with its negation.
Both halves of a pair may carry a literal, the term they stand for, and several literals may
lead to one constraint. Whether a constraint is known to hold, and why, is undone with the scope
it was found out in.
-/

namespace LinearArithmetic

/-- A stored statement. -/
structure Constraint where
  statement : Statement
  /-- the constraint of the negated statement -/
  negation : ConstraintId
  /-- the term the constraint stands for -/
  literal : Option Term := none
  /-- the literal it was asserted as, where that is another one -/
  asserted : Option Term := none
  /-- the constraints it is known to follow from; without any, it explains itself -/
  proof : Option (List ConstraintId) := none
  preregistered : Bool := false
  split : Bool := false
  /-- not removed by garbage collection -/
  live : Bool := true
  deriving DecidableEq

namespace Constraint

/-- The constraint is known to hold. -/
def hasProof (c : Constraint) : Bool := c.proof.isSome

/-- Nothing refers to the constraint, so it can be removed together with its negation. -/
def isCollectable (c : Constraint) : Bool := !c.split && !c.preregistered && !c.hasProof

/-- The literal that explanations use. -/
def explainingLiteral? (c : Constraint) : Option Term := c.asserted.or c.literal

end Constraint

/-- The constraints on one variable that share a number, one place for each kind. -/
structure ValueSlots where
  lower : Option ConstraintId := none
  upper : Option ConstraintId := none
  equality : Option ConstraintId := none
  disequality : Option ConstraintId := none
  deriving DecidableEq

namespace ValueSlots

/-- The constraint of a kind. -/
def get (s : ValueSlots) : ConstraintKind → Option ConstraintId
  | .lower => s.lower
  | .upper => s.upper
  | .equality => s.equality
  | .disequality => s.disequality

/-- The places with the constraint of a kind replaced. -/
def set (k : ConstraintKind) (c : Option ConstraintId) (s : ValueSlots) : ValueSlots :=
  match k with
  | .lower => { s with lower := c }
  | .upper => { s with upper := c }
  | .equality => { s with equality := c }
  | .disequality => { s with disequality := c }

/-- The constraints, in the order of the kinds. -/
def toList (s : ValueSlots) : List ConstraintId := ConstraintKind.everyKind.filterMap s.get

/-- All places are free. -/
def isEmpty (s : ValueSlots) : Bool := s.toList.isEmpty

end ValueSlots

/-- What was changed about a constraint in a scope. -/
inductive ConstraintChange where
  | proof (c : ConstraintId)
  | preregistered (c : ConstraintId)
  | split (c : ConstraintId)
  deriving DecidableEq

/-- The stored constraints, with an index by variable and number and one by literal. -/
structure Database where
  constraints : Arena Constraint := {}
  index : SortedMap Var (SortedMap DeltaRat ValueSlots) := ∅
  literals : List (Term × ConstraintId) := []
  changes : Trail ConstraintChange := {}
  /-- the antecedents of a constraint are checked, as in builds for debugging -/
  debugChecks : Bool := false

namespace Database

instance : Inhabited Database := ⟨{}⟩

/-- A stored constraint. -/
def get (db : Database) (c : ConstraintId) : Checked Constraint := db.constraints.get c.index

/-- The database with a constraint changed. -/
def update (c : ConstraintId) (f : Constraint → Constraint) (db : Database) : Database :=
  { db with constraints := db.constraints.modify c.index f }

/-- The number of constraints that have not been removed. -/
def numConstraints (db : Database) : Nat := db.constraints.items.countP Constraint.live

/-- The constraints on a variable by number. -/
def onVar (db : Database) (v : Var) : SortedMap DeltaRat ValueSlots :=
  (db.index.get? v).getD ∅

/-- Some constraint mentions the variable. -/
def hasConstraints (db : Database) (v : Var) : Bool := !(db.onVar v).isEmpty

/-- The constraint that makes a statement. -/
def find? (db : Database) (s : Statement) : Option ConstraintId := do
  (← (db.onVar s.var).get? s.value).get s.kind

/-- The database with the index entry of a statement replaced. -/
def setIndex (s : Statement) (c : Option ConstraintId) (db : Database) : Database :=
  let slots := ((db.onVar s.var).get? s.value |>.getD {}).set s.kind c
  let onVar := (db.onVar s.var).alter s.value fun _ => if slots.isEmpty then none else some slots
  { db with index := db.index.insert s.var onVar }

/-- The database with a statement stored under the next number. -/
def store (s : Statement) (negation : ConstraintId) (db : Database) : Database :=
  { db.setIndex s (some ⟨db.constraints.nextKey⟩) with
    constraints := db.constraints.push { statement := s, negation } }

/-- The constraint that makes a statement; if there is none, it is stored together with its
negation. -/
def obtain (s : Statement) (db : Database) : Checked (Database × ConstraintId) :=
  match db.find? s with
  | some c => .ok (db, c)
  | none =>
    match s.negation? with
    | none => .error (.noNegation s.kind s.value)
    | some t =>
      if (db.find? t).isSome then .error .loneConstraint
      else
        let n := db.constraints.nextKey
        .ok ((db.store s ⟨n + 1⟩).store t ⟨n⟩, ⟨n⟩)

/-! ## Literals -/

/-- The constraint a literal stands for. -/
def lookup (db : Database) (literal : Term) : Option ConstraintId := db.literals.lookup literal

/-- The literal is known. -/
def hasLiteral (db : Database) (literal : Term) : Bool := (db.lookup literal).isSome

/-- The database with a literal for a constraint. A constraint keeps the first literal it got,
and a literal the first constraint. -/
def attach (c : ConstraintId) (literal : Term) (db : Database) : Database :=
  let db := db.update c fun k => { k with literal := k.literal.or (some literal) }
  if db.hasLiteral literal then db
  else { db with literals := db.literals ++ [(literal, c)] }

/-- The constraint that makes the statement of an atom. The atom becomes a literal of it, and the
negated atom one of its negation. -/
def addAtom (atom : Term) (s : Statement) (db : Database) : Checked (Database × ConstraintId) := do
  let (db, c) ← db.obtain s
  let negation := (← db.get c).negation
  return ((db.attach c atom).attach negation (.neg atom), c)

/-- The constraint of a literal that is not known yet. The atom under an outer negation is
classified, and its statement stored; a refused atom changes nothing. -/
def addLiteral {ε : Type} (literal : Term) (classify : Term → Except ε Statement)
    (db : Database) : Checked (Except ε (Database × ConstraintId)) := do
  if db.hasLiteral literal then throw (.literalKnown literal)
  match classify literal.atom with
  | .error e => return .error e
  | .ok s =>
    let (db, c) ← db.addAtom literal.atom s
    if literal.isNegated then return .ok (db, (← db.get c).negation) else return .ok (db, c)

/-! ## What is known -/

/-- The constraint is known to hold. -/
def hasProof (db : Database) (c : ConstraintId) : Checked Bool := return (← db.get c).hasProof

/-- The negation of the constraint is known to hold. -/
def negationHasProof (db : Database) (c : ConstraintId) : Checked Bool := do
  db.hasProof (← db.get c).negation

/-- Neither the constraint nor its negation is known to hold. -/
def isUnknown (db : Database) (c : ConstraintId) : Checked Bool := do
  if ← db.hasProof c then return false else return !(← db.negationHasProof c)

end Database

end LinearArithmetic
