/-!
# Terms

Terms of linear arithmetic with boolean structure: leaves (named variables, rational constants,
truth values), sums and products, comparisons, connectives and `ite`. Equality of terms is
structural, so two terms built from equal pieces are the same key.
-/

namespace LinearArithmetic

/-- The comparisons of two arithmetic terms. -/
inductive Relation where
  | lt | le | eq | ge | gt
  deriving DecidableEq

namespace Relation

/-- The comparison sign. -/
def symbol : Relation → String
  | lt => "<"
  | le => "<="
  | eq => "="
  | ge => ">="
  | gt => ">"

/-- The comparison of two rationals. -/
def holds : Relation → Rat → Rat → Bool
  | lt, a, b => a < b
  | le, a, b => a ≤ b
  | eq, a, b => a = b
  | ge, a, b => b ≤ a
  | gt, a, b => b < a

/-- The comparison that holds after multiplying both sides with a negative number. -/
def flip : Relation → Relation
  | lt => gt
  | le => ge
  | eq => eq
  | ge => le
  | gt => lt

end Relation

/-- A term. -/
inductive Term where
  | var (name : String)
  | const (value : Rat)
  | bool (value : Bool)
  | sum (summands : List Term)
  | prod (factors : List Term)
  | rel (relation : Relation) (lhs rhs : Term)
  | neg (body : Term)
  | conj (conjuncts : List Term)
  | disj (disjuncts : List Term)
  | implies (antecedent consequent : Term)
  | ite (condition thenBranch elseBranch : Term)
  deriving Inhabited

namespace Term

/-! ## Structural equality -/

mutual

/-- The terms are built in the same way from the same leaves. -/
def same : Term → Term → Bool
  | var a, var b => a = b
  | const a, const b => a = b
  | bool a, bool b => a = b
  | sum as, sum bs => sameAll as bs
  | prod as, prod bs => sameAll as bs
  | rel r a a', rel s b b' => r = s && same a b && same a' b'
  | neg a, neg b => same a b
  | conj as, conj bs => sameAll as bs
  | disj as, disj bs => sameAll as bs
  | implies a a', implies b b' => same a b && same a' b'
  | ite a a' a'', ite b b' b'' => same a b && same a' b' && same a'' b''
  | _, _ => false

/-- The lists have the same length and the same terms in the same places. -/
def sameAll : List Term → List Term → Bool
  | [], [] => true
  | a :: as, b :: bs => same a b && sameAll as bs
  | _, _ => false

end

mutual

theorem same_iff : ∀ a b : Term, same a b = true ↔ a = b
  | var _, b => by cases b <;> simp [same]
  | const _, b => by cases b <;> simp [same]
  | bool _, b => by cases b <;> simp [same]
  | sum as, b => by cases b <;> simp [same, sameAll_iff as]
  | prod as, b => by cases b <;> simp [same, sameAll_iff as]
  | rel _ a a', b => by cases b <;> simp [same, same_iff a, same_iff a', and_assoc]
  | neg a, b => by cases b <;> simp [same, same_iff a]
  | conj as, b => by cases b <;> simp [same, sameAll_iff as]
  | disj as, b => by cases b <;> simp [same, sameAll_iff as]
  | implies a a', b => by cases b <;> simp [same, same_iff a, same_iff a']
  | ite a a' a'', b => by
    cases b <;> simp [same, same_iff a, same_iff a', same_iff a'', and_assoc]

theorem sameAll_iff : ∀ as bs : List Term, sameAll as bs = true ↔ as = bs
  | [], bs => by cases bs <;> simp [sameAll]
  | a :: as, bs => by cases bs <;> simp [sameAll, same_iff a, sameAll_iff as]

end

instance : DecidableEq Term := fun a b => decidable_of_iff _ (same_iff a b)

/-! ## Shape -/

/-- The constant a term is, if it is one. -/
def constant? : Term → Option Rat
  | const q => some q
  | _ => none

/-- The comparison a term is, if it is one. -/
def relation? : Term → Option Relation
  | rel r _ _ => some r
  | _ => none

/-- The term is a comparison. -/
def isRelational (t : Term) : Bool := t.relation?.isSome

/-- The term without its outer negation, if it has one. -/
def atom : Term → Term
  | neg t => t
  | t => t

/-- The term has an outer negation. -/
def isNegated : Term → Bool
  | neg _ => true
  | _ => false

/-- The term is a comparison or the negation of one. -/
def isLiteral (t : Term) : Bool := t.atom.isRelational

/-- The term without its outer negation, or with one if it has none. -/
def negate : Term → Term
  | neg t => t
  | t => neg t

/-- The conjunction of a list; the empty one is `true` and a single conjunct stands alone. -/
def all : List Term → Term
  | [] => bool true
  | [t] => t
  | ts => conj ts

/-- The disjunction of a list; the empty one is `false` and a single disjunct stands alone. -/
def any : List Term → Term
  | [] => bool false
  | [t] => t
  | ts => disj ts

/-- The terms a term is directly built from. -/
def children : Term → List Term
  | var _ | const _ | bool _ => []
  | sum ts | prod ts | conj ts | disj ts => ts
  | rel _ a b | implies a b => [a, b]
  | neg t => [t]
  | ite c a b => [c, a, b]

mutual

/-- The number of nodes. -/
def size : Term → Nat
  | var _ | const _ | bool _ => 1
  | sum ts | prod ts | conj ts | disj ts => 1 + sizeAll ts
  | rel _ a b | implies a b => 1 + size a + size b
  | neg t => 1 + size t
  | ite c a b => 1 + size c + size a + size b

/-- The number of nodes in a list of terms. -/
def sizeAll : List Term → Nat
  | [] => 0
  | t :: ts => size t + sizeAll ts

end

end Term

end LinearArithmetic
