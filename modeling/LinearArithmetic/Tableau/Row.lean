import LinearArithmetic.Collection.SortedMap
import LinearArithmetic.Var

/-!
# Rows

A row is a linear combination `Σ coefficient·variable`. It holds each variable at most once, in
increasing order, and no zero coefficient, so two rows with the same coefficients are equal.
-/

namespace LinearArithmetic

/-- A linear combination of variables. -/
structure Row where
  coefficients : SortedMap Var Rat
  ne_zero : ∀ e ∈ coefficients.entries, e.2 ≠ 0

namespace Row

instance : DecidableEq Row
  | ⟨a, _⟩, ⟨b, _⟩ =>
    if h : a = b then isTrue (by subst h; rfl)
    else isFalse (fun e => h (congrArg coefficients e))

/-- The row without entries. -/
def empty : Row := ⟨∅, fun _ h => absurd h List.not_mem_nil⟩

instance : EmptyCollection Row := ⟨empty⟩

instance : Inhabited Row := ⟨empty⟩

/-- The variables with their coefficients, by increasing variable. -/
def entries (r : Row) : List (Var × Rat) := r.coefficients.entries

/-- The variables of the row, in increasing order. -/
def vars (r : Row) : List Var := r.coefficients.keys

/-- The number of entries. -/
def size (r : Row) : Nat := r.coefficients.size

/-- The row has no entry. -/
def isEmpty (r : Row) : Bool := r.coefficients.isEmpty

/-- The coefficient of a variable which the row mentions. -/
def coefficient? (r : Row) (v : Var) : Option Rat := r.coefficients.get? v

/-- The coefficient of a variable, zero if the row does not mention it. -/
def coefficient (r : Row) (v : Var) : Rat := (r.coefficient? v).getD 0

/-- The row mentions the variable. -/
def contains (r : Row) (v : Var) : Bool := (r.coefficient? v).isSome

/-- The row without the entry of a variable. -/
def erase (v : Var) (r : Row) : Row :=
  ⟨r.coefficients.erase v, fun e he => r.ne_zero e (List.mem_filter.mp he).1⟩

/-- The row with the coefficient of a variable set; a zero coefficient leaves no entry. -/
def set (v : Var) (c : Rat) (r : Row) : Row :=
  if h : c = 0 then r.erase v
  else ⟨r.coefficients.insert v c, fun e he => by
    rcases SortedMap.mem_insertEntry he with rfl | he
    · exact h
    · exact r.ne_zero e he⟩

/-- The row plus `c·v`. -/
def add (v : Var) (c : Rat) (r : Row) : Row := r.set v (r.coefficient v + c)

/-- What adding to a row does to the entry of a variable. -/
inductive EntryChange where
  | created
  | updated
  | cancelled
  | unchanged
  deriving DecidableEq

/-- What adding `c·v` to the row does to the entry of `v`. -/
def change (v : Var) (c : Rat) (r : Row) : EntryChange :=
  if c = 0 then .unchanged
  else if !r.contains v then .created
  else if r.coefficient v + c = 0 then .cancelled
  else .updated

/-- The row times a number. -/
def scale (q : Rat) (r : Row) : Row :=
  if h : q = 0 then ∅
  else ⟨r.coefficients.mapValues fun _ c => c * q, fun e he => by
    obtain ⟨a, ha, rfl⟩ := List.mem_map.mp he
    have := r.ne_zero a ha
    intro hz
    rcases Rat.mul_eq_zero.mp hz with h' | h'
    · exact this h'
    · exact h h'⟩

/-- The row plus `q` times another one. -/
def addScaled (r : Row) (q : Rat) (other : Row) : Row :=
  other.entries.foldl (fun row e => row.add e.1 (q * e.2)) r

/-- The sum of the entries: repeated variables are added up. -/
def ofList (entries : List (Var × Rat)) : Row :=
  entries.foldl (fun row e => row.add e.1 e.2) ∅

/-- The row solved for one of its variables: `basic = c·v + rest` becomes
`v = (1/c)·basic - (1/c)·rest`. -/
def solveFor (basic v : Var) (c : Rat) (r : Row) : Row :=
  ((r.erase v).scale (-(1 / c))).add basic (1 / c)

/-! ## Coefficients -/

theorem ext_coefficient? {r s : Row} (h : ∀ v, r.coefficient? v = s.coefficient? v) : r = s := by
  obtain ⟨m, _⟩ := r
  obtain ⟨n, _⟩ := s
  have : m = n := SortedMap.ext_get? h
  subst this
  rfl

theorem ne_zero_of_coefficient? {r : Row} {v : Var} {c : Rat} (h : r.coefficient? v = some c) :
    c ≠ 0 :=
  r.ne_zero (v, c) (SortedMap.get?_eq_some_iff.mp h)

/-- Rows with the same coefficients are equal. -/
theorem ext_coefficient {r s : Row} (h : ∀ v, r.coefficient v = s.coefficient v) : r = s := by
  refine ext_coefficient? fun v => ?_
  have hv := h v
  simp only [coefficient] at hv
  cases hr : r.coefficient? v with
  | none =>
    cases hs : s.coefficient? v with
    | none => rfl
    | some d =>
      rw [hr, hs] at hv
      exact absurd hv.symm (ne_zero_of_coefficient? hs)
  | some c =>
    cases hs : s.coefficient? v with
    | none =>
      rw [hr, hs] at hv
      exact absurd hv (ne_zero_of_coefficient? hr)
    | some d =>
      rw [hr, hs] at hv
      exact congrArg some hv

@[simp] theorem coefficient_empty (v : Var) : (∅ : Row).coefficient v = 0 := rfl

theorem coefficient_erase (u v : Var) (r : Row) :
    (r.erase v).coefficient u = if u = v then 0 else r.coefficient u := by
  by_cases h : u = v <;> simp [coefficient, coefficient?, erase, h]

theorem coefficient_set (u v : Var) (c : Rat) (r : Row) :
    (r.set v c).coefficient u = if u = v then c else r.coefficient u := by
  by_cases hc : c = 0
  · simp [set, hc, coefficient_erase]
  · by_cases h : u = v <;> simp [coefficient, coefficient?, set, hc, h]

theorem coefficient_add (u v : Var) (c : Rat) (r : Row) :
    (r.add v c).coefficient u = if u = v then r.coefficient u + c else r.coefficient u := by
  by_cases h : u = v <;> simp [add, coefficient_set, h]

end Row

end LinearArithmetic
