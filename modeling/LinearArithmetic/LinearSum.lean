import LinearArithmetic.Constraint
import LinearArithmetic.Fault

/-!
# Linear sums

An arithmetic term is flattened into `Σ coefficient·leaf + constant`. Leaves are the terms that
the theory treats as unknowns: variables, `ite` terms, and products of more than one factor that
is not a constant. They are kept in the order in which they were first met.
-/

namespace LinearArithmetic

/-- A linear combination of leaves and a constant. -/
structure LinearSum where
  /-- every leaf met, also those whose coefficients have cancelled -/
  terms : List (Term × Rat) := []
  constant : Rat := 0
  deriving DecidableEq

namespace LinearSum

/-- The entries with a multiple of a leaf added: to its entry if it has one, else at the end. -/
def addEntry (leaf : Term) (c : Rat) : List (Term × Rat) → List (Term × Rat)
  | [] => [(leaf, c)]
  | (t, d) :: rest =>
    if t = leaf then (t, d + c) :: rest else (t, d) :: addEntry leaf c rest

/-- The sum plus a multiple of a leaf. -/
def addLeaf (leaf : Term) (c : Rat) (s : LinearSum) : LinearSum :=
  { s with terms := addEntry leaf c s.terms }

/-- The sum plus a constant. -/
def addConstant (q : Rat) (s : LinearSum) : LinearSum := { s with constant := s.constant + q }

/-- The leaves whose coefficients have not cancelled. -/
def leaves (s : LinearSum) : List (Term × Rat) := s.terms.filter fun e => e.2 ≠ 0

end LinearSum

namespace Term

/-- The term can stand under a sum or a product. -/
def isArithmetic : Term → Bool
  | var _ | const _ | sum _ | prod _ | ite _ _ _ => true
  | _ => false

/-- The product of the constant factors, and the other factors; a factor that is not arithmetic
is refused. -/
def splitFactors : List Term → Except Refusal (Rat × List Term)
  | [] => .ok (1, [])
  | const q :: ts => do
    let (c, rest) ← splitFactors ts
    return (q * c, rest)
  | t :: ts => do
    if !t.isArithmetic then throw (.notArithmetic t)
    let (c, rest) ← splitFactors ts
    return (c, t :: rest)

mutual

/-- Adds `k` times a term to a linear sum. A product with one factor that is not a constant is a
multiple of that factor; with more of them it is a leaf. -/
def addTo : Term → (k : Rat) → LinearSum → Except Refusal LinearSum
  | const q, k, s => .ok (s.addConstant (k * q))
  | sum ts, k, s => addAllTo ts k s
  | prod ts, k, s => do
    match ← splitFactors ts with
    | (c, []) => return s.addConstant (k * c)
    | (c, [_]) => addFactorTo ts (k * c) s
    | (c, factors) => return s.addLeaf (prod factors) (k * c)
  | var name, k, s => .ok (s.addLeaf (var name) k)
  | ite c a b, k, s => .ok (s.addLeaf (ite c a b) k)
  | t, _, _ => .error (.notArithmetic t)

/-- Adds `k` times every term of a list. -/
def addAllTo : List Term → (k : Rat) → LinearSum → Except Refusal LinearSum
  | [], _, s => .ok s
  | t :: ts, k, s => do addAllTo ts k (← addTo t k s)

/-- Adds `k` times the first term of a list that is not a constant. -/
def addFactorTo : List Term → (k : Rat) → LinearSum → Except Refusal LinearSum
  | [], k, s => .ok (s.addConstant k)
  | const _ :: ts, k, s => addFactorTo ts k s
  | t :: _, k, s => addTo t k s

end

/-- The linear sum of a term. -/
def linearSum (t : Term) : Except Refusal LinearSum := t.addTo 1 {}

end Term

/-- A comparison `Σ coefficient·leaf ⋈ bound`. -/
structure LinearAtom where
  relation : Relation
  leaves : List (Term × Rat)
  bound : Rat

/-- A comparison of two terms with all leaves on the left and the constants on the right. -/
def Term.linearAtom (t : Term) : Except Refusal LinearAtom :=
  match t with
  | .rel r lhs rhs => do
    let sum ← rhs.addTo (-1) (← lhs.addTo 1 {})
    return ⟨r, sum.leaves, -sum.constant⟩
  | t => .error (.notAnAtom t)

/-- The kind of constraint a comparison states. -/
def Relation.constraintKind : Relation → ConstraintKind
  | lt | le => .upper
  | eq => .equality
  | ge | gt => .lower

/-- The number that turns a comparison with a rational into a non-strict one: a strict bound is
off by one infinitesimal. -/
def Relation.boundValue (r : Relation) (q : Rat) : DeltaRat :=
  match r with
  | lt => ⟨q, -1⟩
  | gt => ⟨q, 1⟩
  | _ => ⟨q, 0⟩

end LinearArithmetic
