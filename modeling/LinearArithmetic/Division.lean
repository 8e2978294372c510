import LinearArithmetic.Fault

/-!
# Division and rounding

Division by zero is a fault. A number with an infinitesimal part lies right beside its standard
part, so the two round differently only where the standard part is an integer.
-/

namespace LinearArithmetic

/-- The rational with a numerator and a denominator. -/
def ratio (numerator denominator : Int) : Checked Rat :=
  if denominator = 0 then .error .zeroDenominator else .ok (numerator / denominator)

/-- The quotient of two rationals. -/
def quotient (a b : Rat) : Checked Rat := if b = 0 then .error .divisionByZero else .ok (a / b)

namespace DeltaRat

/-- The quotient by a rational. -/
def divide (a : DeltaRat) (q : Rat) : Checked DeltaRat :=
  if q = 0 then .error .divisionByZero
  else .ok ⟨a.standard / q, a.infinitesimal / q⟩

/-- The greatest integer not above the number: an integer approached from below rounds down to
the one before it. -/
def floor (a : DeltaRat) : Int :=
  if a.standard.den = 1 ∧ a.infinitesimal < 0 then a.standard.floor - 1 else a.standard.floor

/-- The least integer not below the number: an integer approached from above rounds up to the
one after it. -/
def ceiling (a : DeltaRat) : Int :=
  if a.standard.den = 1 ∧ 0 < a.infinitesimal then a.standard.ceil + 1 else a.standard.ceil

end DeltaRat

end LinearArithmetic
