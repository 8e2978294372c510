import LinearArithmetic.Model.Basic

/-!
# A concrete value for the infinitesimal

The comparisons of a model with its bounds survive the substitution of a small enough rational
for `δ`. If `(lc, lk) ≤ (c, k)` with `lc < c` and `lk > k`, the order is kept as long as
`δ ≤ (c - lc) / (lk - k)`; with equal standard parts it is kept for every positive `δ`. A value
and an excluded value with different infinitesimal parts meet at one `δ` only, so half of the
least such `δ` keeps all of them apart.
-/

namespace LinearArithmetic

namespace DeltaRat

/-- The largest `δ` that keeps `smaller ≤ larger`, if there is a limit. -/
def orderLimit? (smaller larger : DeltaRat) : Option Rat :=
  let gap := larger.standard - smaller.standard
  let lead := smaller.infinitesimal - larger.infinitesimal
  if 0 < gap ∧ 0 < lead then some (gap / lead) else none

/-- The positive `δ` at which two numbers meet, if there is one. -/
def meeting? (a b : DeltaRat) : Option Rat :=
  let lead := a.infinitesimal - b.infinitesimal
  let d := (b.standard - a.standard) / lead
  if lead ≠ 0 ∧ 0 < d then some d else none

end DeltaRat

/-- The limits on `δ` from the bounds of one variable. -/
def ModelEntry.deltaLimits (e : ModelEntry) : List Rat :=
  (e.lower.bind fun b => b.value.orderLimit? e.value).toList ++
    (e.upper.bind fun b => e.value.orderLimit? b.value).toList

namespace Model

/-- The least of some rationals and a given one. -/
def least (q : Rat) (qs : List Rat) : Rat := qs.foldl (fun a b => if b < a then b else a) q

/-- A value for `δ`, at most the default one, that moves no value across a bound and no value of
a variable onto a number excluded for it. -/
def concreteDelta (m : Model) (default : Rat) (excluded : List (Var × DeltaRat)) :
    Checked Rat := do
  let fromBounds := least default (m.byVar.items.flatMap ModelEntry.deltaLimits)
  let meetings ← excluded.filterMapM fun (v, x) => return (← m.value v).meeting? x
  let delta := least fromBounds (meetings.map (· / 2))
  if 0 < delta then return delta else throw .noPositiveDelta

end Model

end LinearArithmetic
