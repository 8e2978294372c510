import LinearArithmetic.Theory.Elimination

/-!
# From literals to constraints

A comparison is brought to the form `Σ coefficient·leaf ⋈ bound` with the leaves in the order of
their variables and the first coefficient one. With one leaf it is a constraint on the variable
of the leaf, with several on the slack variable of the combination, and without any it is a
truth value.
-/

namespace LinearArithmetic

/-- Why an operation of the theory did not succeed. -/
inductive Failure where
  /-- a precondition was broken -/
  | fault (why : Fault)
  /-- the theory cannot work with the term -/
  | refusal (why : Refusal)
  deriving DecidableEq

/-- What a comparison comes down to. -/
inductive Classified where
  /-- a truth value, whatever the unknowns are -/
  | constant (holds : Bool)
  /-- a constraint on one variable -/
  | constraint (s : Statement)

namespace Theory

/-- The variable of a leaf. A new leaf gets the next variable, and an eliminated one is
reinstated. -/
def requestVar (leaf : Term) (s : Theory) : Checked (Theory × Var) :=
  match s.varOf? leaf with
  | some v => return (← s.reinstate v, v)
  | none =>
    let (s, v) := s.addVar { term := leaf }
    .ok ({ s with leaves := s.leaves ++ [(leaf, v)] }, v)

/-- The variables of the leaves of a combination, with their coefficients. -/
def requestVars : List (Term × Rat) → Theory → Checked (Theory × List (Var × Rat))
  | [], s => .ok (s, [])
  | (leaf, c) :: rest, s => do
    let (s, v) ← s.requestVar leaf
    let (s, vs) ← requestVars rest s
    return (s, (v, c) :: vs)

/-- The sum a combination stands for; a coefficient of one is not written. -/
def sumTerm (s : Theory) (r : Row) : Checked Term := do
  return .sum (← r.entries.mapM fun (v, c) => do
    let leaf ← s.termOf v
    return if c = 1 then leaf else .prod [.const c, leaf])

/-- The slack variable of a combination, a new one if there is none. -/
def slackFor (r : Row) (s : Theory) : Checked (Theory × Var) :=
  match s.slacks.lookup r with
  | some v => .ok (s, v)
  | none => do
    let (s, v) := s.addVar { term := ← s.sumTerm r, definition := some r }
    return ({ s with slacks := s.slacks ++ [(r, v)] }, v)

/-- The constraint a comparison of a linear combination comes down to. -/
def classify (a : LinearAtom) (s : Theory) : Checked (Theory × Classified) := do
  let (s, combination) ← s.requestVars a.leaves
  let row := Row.ofList combination
  match row.entries with
  | [] => return (s, .constant (a.relation.holds 0 a.bound))
  | (v, lead) :: rest =>
    let relation := if lead < 0 then a.relation.flip else a.relation
    let (s, v) ← if rest.isEmpty then pure (s, v) else s.slackFor (row.scale (1 / lead))
    return (s, .constraint ⟨v, relation.constraintKind, relation.boundValue (a.bound / lead)⟩)

/-- The constraint of a literal, which is registered if it is new. A literal whose comparison has
no unknowns has none. -/
def registerLiteral (literal : Term) (s : Theory) :
    Except Failure (Theory × Option ConstraintId) := do
  match s.database.lookup literal with
  | some c => return (s, some c)
  | none =>
    let atom := literal.atom
    if !atom.isRelational then throw (.refusal (.notAnAtom literal))
    if (s.constantAtoms.lookup atom).isSome then return (s, none)
    let linear ← atom.linearAtom.mapError .refusal
    match ← (s.classify linear).mapError .fault with
    | (s, .constant b) => return ({ s with constantAtoms := s.constantAtoms ++ [(atom, b)] }, none)
    | (s, .constraint st) =>
      match ← (s.database.addLiteral literal fun _ => .ok st).mapError .fault with
      | .ok (database, c) => return ({ s with database }, some c)
      | .error why => throw (.refusal why)

/-- The truth value of a literal whose comparison has no unknowns. -/
def constantTruth? (literal : Term) (s : Theory) : Option Bool :=
  (s.constantAtoms.lookup literal.atom).map fun b => if literal.isNegated then !b else b

/-- The entries with one put in its place, after those of the same variable. -/
def insertByVar (e : Var × Rat) : List (Var × Rat) → List (Var × Rat)
  | [] => [e]
  | d :: rest => if d.1 ≤ e.1 then d :: insertByVar e rest else e :: d :: rest

/-- The entries in the order of their variables; those of one variable keep their order. -/
def sortByVar (entries : List (Var × Rat)) : List (Var × Rat) :=
  entries.foldl (fun sorted e => insertByVar e sorted) []

/-- The slack variable that stands for a combination of leaves or a multiple of it, if every leaf
has a variable and such a slack variable has been introduced. -/
def slackOf? (combination : List (Term × Rat)) (s : Theory) : Checked (Option Var) :=
  match combination.mapM fun (leaf, c) => (s.varOf? leaf).map (·, c) with
  | none => .ok none
  | some entries =>
    match sortByVar entries with
    | [] => .ok none
    | (v, lead) :: rest =>
      if lead = 0 then .error .divisionByZero
      else
        let key := ((v, lead) :: rest).map fun e => (e.1, e.2 / lead)
        .ok ((s.slacks.find? fun (r, _) => r.entries = key).map Prod.snd)

end Theory

end LinearArithmetic
