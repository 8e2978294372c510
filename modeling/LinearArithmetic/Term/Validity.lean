import LinearArithmetic.Term.Basic

/-!
# Propositional validity by truth tables

A formula is seen as a propositional one: the connectives are kept, and every maximal subterm
that is neither a connective nor a truth value is an atom. A formula that is true under every
assignment of truth values to its atoms is valid; the converse fails, since atoms may depend on
each other.
-/

namespace LinearArithmetic

namespace Term

mutual

/-- The atoms of a formula, from left to right and with repetitions. -/
def atomOccurrences : Term → List Term
  | bool _ => []
  | neg t => atomOccurrences t
  | conj ts | disj ts => atomOccurrencesAll ts
  | implies a b => atomOccurrences a ++ atomOccurrences b
  | t => [t]

/-- The atoms of some formulas. -/
def atomOccurrencesAll : List Term → List Term
  | [] => []
  | t :: ts => atomOccurrences t ++ atomOccurrencesAll ts

end

/-- The distinct atoms of a formula, in the order they are met. -/
def atoms (t : Term) : List Term := t.atomOccurrences.eraseDups

mutual

/-- The truth value of a formula for given truth values of its atoms. -/
def truth (value : Term → Bool) : Term → Bool
  | bool b => b
  | neg t => !truth value t
  | conj ts => truthAll value ts
  | disj ts => truthAny value ts
  | implies a b => !truth value a || truth value b
  | t => value t

/-- All formulas are true. -/
def truthAll (value : Term → Bool) : List Term → Bool
  | [] => true
  | t :: ts => truth value t && truthAll value ts

/-- Some formula is true. -/
def truthAny (value : Term → Bool) : List Term → Bool
  | [] => false
  | t :: ts => truth value t || truthAny value ts

end

end Term

/-- The validity check by truth tables, for formulas of limited size. -/
structure TruthTable where
  /-- formulas with more atoms are not examined -/
  maxAtoms : Nat := 16

namespace TruthTable

/-- Assignments are the bits of a 64-bit counter, which must not overflow. -/
def enumerable : Nat := 63

/-- The bit of a counter at a place. -/
def bit (counter : UInt64) (place : Nat) : Bool := counter >>> place.toUInt64 &&& 1 == 1

/-- The number of assignments of some atoms. -/
def assignments (atoms : List Term) : UInt64 := 1 <<< atoms.length.toUInt64

/-- The assignment that a counter stands for: the first atom has the lowest bit. -/
def assignment (atoms : List Term) (counter : UInt64) (atom : Term) : Bool :=
  bit counter (atoms.idxOf atom)

/-- The formula is confirmed: it has few enough atoms and is true under all their assignments. -/
def isValid (o : TruthTable) (formula : Term) : Bool :=
  let atoms := formula.atoms
  atoms.length ≤ min o.maxAtoms enumerable &&
    (assignments atoms).toNat.all fun i _ => formula.truth (assignment atoms (UInt64.ofNat i))

end TruthTable

end LinearArithmetic
