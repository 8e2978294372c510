import LinearArithmetic.Fault

/-!
# Terms from their parts

Every term is its kind together with its children. A kind fixes how many children a term may
have: leaves none, operators their number, and sums, products, conjunctions and disjunctions at
least one.
-/

namespace LinearArithmetic.Term

/-- What a term is, apart from its children. -/
inductive Kind where
  | var (name : String)
  | const (value : Rat)
  | bool (value : Bool)
  | sum
  | prod
  | rel (relation : Relation)
  | neg
  | conj
  | disj
  | implies
  | ite
  deriving DecidableEq

/-- The kind of a term. -/
def kind : Term → Kind
  | var name => .var name
  | const q => .const q
  | bool b => .bool b
  | sum _ => .sum
  | prod _ => .prod
  | rel r _ _ => .rel r
  | neg _ => .neg
  | conj _ => .conj
  | disj _ => .disj
  | implies _ _ => .implies
  | ite _ _ _ => .ite

/-- The sign of an operator, or the sort of a leaf. -/
def Kind.word : Kind → String
  | var _ => "variable"
  | const _ => "constant"
  | bool _ => "boolean"
  | sum => "+"
  | prod => "*"
  | rel r => r.symbol
  | neg => "not"
  | conj => "and"
  | disj => "or"
  | implies => "=>"
  | ite => "ite"

/-- The term of a kind with the given children, if their number fits. -/
def ofKind : Kind → List Term → Checked Term
  | .var name, [] => .ok (var name)
  | .const q, [] => .ok (const q)
  | .bool b, [] => .ok (bool b)
  | .var _, _ :: _ | .const _, _ :: _ | .bool _, _ :: _ => .error .leafWithChildren
  | .sum, t :: ts => .ok (sum (t :: ts))
  | .prod, t :: ts => .ok (prod (t :: ts))
  | .conj, t :: ts => .ok (conj (t :: ts))
  | .disj, t :: ts => .ok (disj (t :: ts))
  | .rel r, [a, b] => .ok (rel r a b)
  | .neg, [t] => .ok (neg t)
  | .implies, [a, b] => .ok (implies a b)
  | .ite, [c, a, b] => .ok (ite c a b)
  | _, _ => .error .wrongArity

end LinearArithmetic.Term
