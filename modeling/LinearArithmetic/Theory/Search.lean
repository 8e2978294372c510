import LinearArithmetic.Report
import LinearArithmetic.Simplex.Repair
import LinearArithmetic.Theory.Assertion
import LinearArithmetic.Theory.Reset

/-!
# The dialogue with the search

The search registers terms, asserts literals one by one, asks for checks and opens and leaves
scopes. Asserted literals wait in a queue until the next check. Literals that were processed in a
scope that is left, but asserted outside of it, go back to the front of the queue.
-/

namespace LinearArithmetic.Theory

/-- Tells the theory about a term before literals over it are asserted. A literal gets its
constraint, which is protected from garbage collection; any other term gets variables for its
leaves. -/
def register (t : Term) (s : Theory) : Except Failure Theory := do
  if t.isLiteral then
    let (s, c?) ← s.registerLiteral t
    match c? with
    | none => return s
    | some c =>
      let k ← (s.database.get c).mapError .fault
      let negation ← (s.database.get k.negation).mapError .fault
      if k.preregistered || negation.preregistered then return s
      return { s with database := ← (s.database.preregister c).mapError .fault }
  else
    let sum ← t.linearSum.mapError .refusal
    let (s, _) ← (s.requestVars sum.leaves).mapError .fault
    return s

/-- Queues a literal that the search has made true. -/
def assertLiteral (t : Term) (s : Theory) : Except Failure Theory := do
  if !t.isLiteral then throw (.refusal (.notAnAtom t))
  let (s, _) ← s.registerLiteral t
  return { s with pending := s.pending ++ [⟨t, s.level⟩] }

/-! ## Checks -/

/-- Processes queued facts in order, up to the first conflict. -/
def processAll : List Fact → Theory → Checked (Theory × Option Term)
  | [], s => .ok ({ s with pending := [] }, none)
  | fact :: rest, s => do
    let s := { s with pending := rest, processed := s.processed.push fact }
    match ← s.assertFact fact.literal with
    | (s, some conflict) => return (s, some conflict)
    | (s, none) => processAll rest s

/-- Processes the queued facts and repairs the violated bounds, up to the first conflict. -/
def findConflict (s : Theory) : Checked (Theory × Option Term) := do
  match ← processAll s.pending s with
  | (s, some conflict) => return (s, some conflict)
  | (s, none) =>
    let (simplex, conflict) ← s.simplex.repair
    let s := { s with simplex }
    match conflict with
    | none => return (s, none)
    | some c => return (s, some (← s.conflictTerm c))

/-- The asserted disequalities that are not split and whose variable has the excluded value. -/
def violatedDisequalities (s : Theory) : Checked (List ConstraintId) :=
  s.disequalities.toList.filterM fun d => do
    let k ← s.database.get d
    return !k.split && (← s.simplex.model.value k.statement.var) = k.statement.value

/-- The formulas that decide a disequality: one of the three relations holds, and no two do. -/
def splitLemmas (t : Trichotomy) : List Term :=
  [t.clause, .implies t.less t.equation.negate, .implies t.greater t.equation.negate,
    .implies t.less t.greater.negate]

/-- Queues the formulas that decide the violated disequalities. -/
def splitDisequalities (s : Theory) : Checked Theory := do
  (← s.violatedDisequalities).foldlM (fun (s : Theory) d => do
    let (database, t) ← s.database.split d
    return { s with
      database
      simplex := (splitLemmas t).foldl (fun x f => x.pushLemma f) s.simplex }) s

/-- Sends the waiting formulas. -/
def sendLemmas (s : Theory) (r : Report) : Theory × Report :=
  ({ s with simplex := { s.simplex with lemmas := [] } }, r.addLemmas s.simplex.lemmas)

/-- Checks the asserted literals. A conflict is reported, and the values go back to the last
commit; a full check without a conflict decides violated disequalities. -/
def check (effort : Effort) (s : Theory) : Checked (Theory × Report) := do
  match ← s.findConflict with
  | (s, some conflict) =>
    return (s.setModel s.simplex.model.revert, Report.addConflict conflict {})
  | (s, none) =>
    if effort = .full then return (← s.splitDisequalities).sendLemmas {}
    else return (s, {})

/-- Sends the implied literals found since the last time, and the waiting formulas. -/
def propagate (s : Theory) : Theory × Report :=
  { s with propagations := [] }.sendLemmas (Report.addPropagations s.propagations {})

/-- The conjunction of asserted literals behind a literal that is known to hold. -/
def explain (t : Term) (s : Theory) : Except Failure Term := do
  match s.database.lookup t with
  | none => throw (.refusal (.unknownLiteral t))
  | some c =>
    if ← (s.database.hasProof c).mapError .fault then (s.database.explain c).mapError .fault
    else throw (.refusal (.unknownLiteral t))

/-! ## Scopes -/

/-- Opens a scope. -/
def push (s : Theory) : Theory :=
  { s with
    database := s.database.openScope
    simplex := { s.simplex with model := s.simplex.model.openScope }
    processed := s.processed.openScope
    disequalities := s.disequalities.openScope }

/-- Leaves the given number of scopes. -/
def pop (levels : Nat) (s : Theory) : Checked Theory := do
  if s.level < levels then throw .noSuchScope
  let level := s.level - levels
  let database ← s.database.backtrack level
  let s := s.setModel (← s.simplex.model.backtrack level)
  let (disequalities, _) ← s.disequalities.backtrack level
  let (processed, undone) ← s.processed.backtrack level
  let asserted (fs : List Fact) : List Fact := fs.filter fun f => f.level ≤ level
  return { s with
    database, disequalities, processed
    pending := (asserted undone).reverse ++ asserted s.pending
    propagations := [] }

end LinearArithmetic.Theory
