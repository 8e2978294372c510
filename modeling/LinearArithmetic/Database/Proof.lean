import LinearArithmetic.Database.Basic

/-!
# Proofs and explanations

A constraint is marked as holding together with the constraints it follows from. One without
antecedents explains itself. Following antecedents from any constraint with a proof leads to the
self-explaining constraints that entail it, and their literals are its explanation.
-/

namespace LinearArithmetic.Database

/-- Nothing, if the constraints are known to hold or not to be checked. -/
def verifyProven (cs : List ConstraintId) (db : Database) : Checked Unit :=
  if db.debugChecks then
    cs.forM fun c => do if !(← db.hasProof c) then throw (.unprovenAntecedent c)
  else return ()

/-- Marks a constraint, of which nothing is known yet, as following from others, which are known to
hold. Without antecedents it must have a literal. -/
def mark (c : ConstraintId) (antecedents : List ConstraintId) (db : Database) :
    Checked Database := do
  if !(← db.isUnknown c) then throw (.alreadyDecided c)
  if antecedents.isEmpty && (← db.get c).literal.isNone then throw (.nothingToExplainWith c)
  db.verifyProven antecedents
  let db := db.update c fun k => { k with proof := some antecedents }
  return { db with changes := db.changes.push (.proof c) }

/-- Marks a constraint as asserted under one of its literals, which explanations then use. -/
def markAsserted (c : ConstraintId) (literal : Term) (db : Database) : Checked Database := do
  if db.lookup literal ≠ some c then throw (.notALiteralOf c literal)
  let named := (← db.get c).literal = some literal
  (if named then db else db.update c fun k => { k with asserted := some literal }).mark c []

/-- The antecedents of all proofs together. -/
def numAntecedents (db : Database) : Nat :=
  (db.constraints.items.flatMap fun k => k.proof.getD []).length

/-- Walks from the constraints of a list through antecedents, depth first. Constraints met before
are skipped; self-explaining ones are collected in the order they are met. -/
def walk (db : Database) : Nat → (todo visited leaves : List ConstraintId) →
    Checked (List ConstraintId)
  | _, [], _, leaves => .ok leaves
  | 0, _ :: _, _, _ => .error .stepsExhausted
  | n + 1, c :: todo, visited, leaves =>
    if visited.contains c then walk db n todo visited leaves
    else do
      match (← db.get c).proof with
      | none => throw (.noProof c)
      | some [] => walk db n todo (c :: visited) (leaves ++ [c])
      | some (a :: as) => walk db n (a :: as ++ todo) (c :: visited) leaves

/-- The self-explaining constraints that together entail every constraint of a list, each once.
The walk meets each antecedent of each constraint at most once, which bounds its steps. -/
def explanation (db : Database) (cs : List ConstraintId) : Checked (List ConstraintId) :=
  db.walk (cs.length + db.numAntecedents) cs [] []

/-- The literals of the constraints that explain a list. -/
def explanationLiterals (db : Database) (cs : List ConstraintId) : Checked (List Term) := do
  (← db.explanation cs).mapM fun c => do
    match (← db.get c).explainingLiteral? with
    | some t => return t
    | none => throw (.noLiteral c)

/-- The conjunction of the literals that explain a constraint. -/
def explain (db : Database) (c : ConstraintId) : Checked Term :=
  return .all (← db.explanationLiterals [c])

end LinearArithmetic.Database
