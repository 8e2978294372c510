import LinearArithmetic.Term.Basic

/-!
# Reports

What the theory sends to the search: conflicts, formulas to add, and implied literals, each in
the order in which they were sent.
-/

namespace LinearArithmetic

/-- How thoroughly the search asks for a check. -/
inductive Effort where
  /-- literals are still being assigned, so expensive steps may be left out -/
  | standard
  /-- the assignment is complete, so it has to be accepted or something reported -/
  | full
  deriving DecidableEq

/-- A check is a standard one unless asked otherwise. -/
instance : Inhabited Effort := ⟨.standard⟩

/-- A full check does everything a standard one does. -/
instance : LT Effort := ⟨fun a b => a = .standard ∧ b = .full⟩

instance : DecidableLT Effort := fun a b =>
  inferInstanceAs (Decidable (a = .standard ∧ b = .full))

/-- The messages to the search. -/
structure Report where
  conflicts : List Term := []
  lemmas : List Term := []
  propagations : List Term := []
  deriving DecidableEq

namespace Report

/-- The report with a conjunction of asserted literals that cannot hold together. -/
def addConflict (t : Term) (r : Report) : Report := { r with conflicts := r.conflicts ++ [t] }

/-- The report with formulas that hold in the theory. -/
def addLemmas (ts : List Term) (r : Report) : Report := { r with lemmas := r.lemmas ++ ts }

/-- The report with literals that follow from the asserted ones. -/
def addPropagations (ts : List Term) (r : Report) : Report :=
  { r with propagations := r.propagations ++ ts }

end Report

end LinearArithmetic
