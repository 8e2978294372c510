import LinearArithmetic.LinearSum

/-!
# Evaluating terms in a model

A model gives rational values to some terms, its owned leaves. Other arithmetic terms are
evaluated through their linear sums, so that leaves which cancel need no value. A product without
a value of its own is the product of its factors, and an `ite` the branch that its condition
chooses. Connectives are evaluated from left to right and stop as soon as the value is decided.
-/

namespace LinearArithmetic

/-- The value of a term. -/
inductive ModelValue where
  | rational (q : Rat)
  | truth (b : Bool)
  deriving DecidableEq

namespace Term

variable (owned : Term → Option Rat)

mutual

/-- The value of an arithmetic term, for terms of limited size. -/
def rationalWithin : Nat → Term → Except Refusal Rat
  | 0, t => .error (.noValue t)
  | n + 1, t =>
    match owned t with
    | some q => .ok q
    | none =>
      match t with
      | const q => .ok q
      | sum _ | prod _ => do
        let s ← t.linearSum
        s.leaves.foldlM (fun x e => return x + e.2 * (← leafWithin n e.1)) s.constant
      | ite _ _ _ => leafWithin n t
      | var _ => .error (.noValue t)
      | _ => .error (.notArithmetic t)

/-- The value of a leaf of a linear sum, for terms of limited size. -/
def leafWithin : Nat → Term → Except Refusal Rat
  | 0, t => .error (.noValue t)
  | n + 1, t =>
    match owned t with
    | some q => .ok q
    | none =>
      match t with
      | prod ts => ts.foldlM (fun x u => return x * (← rationalWithin n u)) 1
      | ite c a b => do if ← truthWithin n c then rationalWithin n a else rationalWithin n b
      | _ => .error (.noValue t)

/-- The value of a formula, for terms of limited size. -/
def truthWithin : Nat → Term → Except Refusal Bool
  | 0, t => .error (.noValue t)
  | n + 1, t =>
    match t with
    | bool b => .ok b
    | neg u => return !(← truthWithin n u)
    | conj ts => ts.allM (truthWithin n)
    | disj ts => ts.anyM (truthWithin n)
    | implies a b => do if ← truthWithin n a then truthWithin n b else return true
    | ite c a b => do if ← truthWithin n c then truthWithin n a else truthWithin n b
    | rel r a b => return r.holds (← rationalWithin n a) (← rationalWithin n b)
    | var _ => .error (.noValue t)
    | const _ | sum _ | prod _ => .error (.notArithmetic t)

end

/-- The value of an arithmetic term. An evaluation goes at most twice from a term to itself or a
part of it of the same size before it comes to a smaller one, which bounds its depth. -/
def rationalValue (t : Term) : Except Refusal Rat := rationalWithin owned (2 * t.size) t

/-- The value of a formula. -/
def truthValue (t : Term) : Except Refusal Bool := truthWithin owned (2 * t.size) t

/-- The first branch of an `ite` shows that it is a formula: the branch is neither of an arithmetic
shape nor an owned leaf. -/
def isFormulaBranch : Term → Bool
  | var _ | const _ | sum _ | prod _ => false
  | t => (owned t).isNone

/-- The value of an arithmetic term or a formula. -/
def evaluate (t : Term) : Except Refusal ModelValue :=
  let asFormula := match t with
    | bool _ | neg _ | conj _ | disj _ | implies _ _ | rel _ _ _ => true
    | ite _ a _ => (owned t).isNone && isFormulaBranch owned a
    | _ => false
  if asFormula then ModelValue.truth <$> truthValue owned t
  else ModelValue.rational <$> rationalValue owned t

end Term

end LinearArithmetic
