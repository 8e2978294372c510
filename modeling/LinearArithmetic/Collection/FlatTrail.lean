import LinearArithmetic.Collection.Trail

/-!
# Trails in one list

The entries of a trail can be kept in one list, oldest first, next to the positions at which the
open scopes start. Leaving scopes cuts the list off where the outermost of them starts.
-/

namespace LinearArithmetic

/-- Entries in the order they were recorded in, and the number of them that there were when each
open scope was entered, outermost first. -/
structure FlatTrail (α : Type) where
  entries : List α := []
  starts : List Nat := []
  deriving DecidableEq

namespace FlatTrail

variable {α : Type}

instance : Inhabited (FlatTrail α) := ⟨{}⟩

/-- The number of open scopes. -/
def level (t : FlatTrail α) : Nat := t.starts.length

/-- The trail with one more entry in the innermost scope. -/
def push (x : α) (t : FlatTrail α) : FlatTrail α := { t with entries := t.entries ++ [x] }

/-- The trail with a new innermost scope. -/
def openScope (t : FlatTrail α) : FlatTrail α :=
  { t with starts := t.starts ++ [t.entries.length] }

/-- The number of entries that there were when `level` scopes were open. -/
def lengthAt (level : Nat) (t : FlatTrail α) : Nat := (t.starts[level]?).getD t.entries.length

/-- The trail as it was when `level` scopes were open, and the entries recorded since then in
scopes that are left, newest first. -/
def backtrack (level : Nat) (t : FlatTrail α) : Checked (FlatTrail α × List α) :=
  if level ≤ t.level then
    .ok (⟨t.entries.take (t.lengthAt level), t.starts.take level⟩,
      (t.entries.drop (t.lengthAt level)).reverse)
  else .error .noSuchScope

end FlatTrail

/-- The positions at which the scopes start whose entries are given, innermost first. -/
def Trail.startsOf {α : Type} : List (List α) → List Nat
  | [] => []
  | d :: ds => startsOf ds ++ [(d :: ds).flatten.length]

/-- The trail in one list. -/
def Trail.flat {α : Type} (t : Trail α) : FlatTrail α := ⟨t.toList, startsOf t.enclosing⟩

end LinearArithmetic
