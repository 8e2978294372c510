/-!
# Variables

The solver works on numbered variables. Every leaf term and every linear combination that is
bounded as a whole gets the next number.
-/

namespace LinearArithmetic

/-- A variable of the solver, known by its number. -/
structure Var where
  id : Nat
  deriving DecidableEq, Inhabited

namespace Var

/-- Variables are ordered by their numbers. -/
instance : LT Var := ⟨fun a b => a.id < b.id⟩

/-- Variables are ordered by their numbers. -/
instance : LE Var := ⟨fun a b => a.id ≤ b.id⟩

instance : DecidableLT Var := fun a b => inferInstanceAs (Decidable (a.id < b.id))

instance : DecidableLE Var := fun a b => inferInstanceAs (Decidable (a.id ≤ b.id))

theorem lt_def {a b : Var} : a < b ↔ a.id < b.id := Iff.rfl

theorem le_def {a b : Var} : a ≤ b ↔ a.id ≤ b.id := Iff.rfl

theorem eq_of_id_eq {a b : Var} (h : a.id = b.id) : a = b := by
  cases a; cases b; simpa using h

instance : Std.IsLinearOrder Var where
  le_refl a := Nat.le_refl a.id
  le_trans _ _ _ h k := Nat.le_trans h k
  le_antisymm _ _ h k := eq_of_id_eq (Nat.le_antisymm h k)
  le_total a b := Nat.le_total a.id b.id

instance : Std.LawfulOrderLT Var where
  lt_iff a b := by simp only [lt_def, le_def]; omega

/-- A variable is written `v` and its number. -/
def text (v : Var) : String := "v" ++ toString v.id

end Var

end LinearArithmetic
