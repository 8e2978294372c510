import LinearArithmetic.DeltaRat.Basic
import LinearArithmetic.Term.Basic

/-!
# Text of terms

A term is written as an s-expression with single blanks: leaves by name or value, everything
else as a parenthesised operator followed by the children. A name is written as it is, so the
variable `1` and the constant one have the same text.
-/

namespace LinearArithmetic.Term

/-- A truth value as `true` or `false`. -/
def truthText (b : Bool) : String := if b then "true" else "false"

mutual

/-- The s-expression of a term. -/
def text : Term → String
  | var name => name
  | const q => rationalText q
  | bool b => truthText b
  | sum ts => "(+ " ++ textAll ts ++ ")"
  | prod ts => "(* " ++ textAll ts ++ ")"
  | rel r a b => "(" ++ r.symbol ++ " " ++ text a ++ " " ++ text b ++ ")"
  | neg t => "(not " ++ text t ++ ")"
  | conj ts => "(and " ++ textAll ts ++ ")"
  | disj ts => "(or " ++ textAll ts ++ ")"
  | implies a b => "(=> " ++ text a ++ " " ++ text b ++ ")"
  | ite c a b => "(ite " ++ text c ++ " " ++ text a ++ " " ++ text b ++ ")"

/-- The texts of the terms, with a blank between neighbours. -/
def textAll : List Term → String
  | [] => ""
  | [t] => text t
  | t :: ts => text t ++ " " ++ textAll ts

end

end LinearArithmetic.Term
