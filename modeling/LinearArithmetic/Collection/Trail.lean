import LinearArithmetic.Fault

/-!
# Trails

A trail records entries in nested scopes. Leaving scopes removes the entries recorded in them
and gives them back, newest first, so that what they stand for can be undone in reverse order.
-/

namespace LinearArithmetic

/-- Entries by scope: those of the innermost scope, then those of each scope around it. Within a
scope the newest entry comes first. -/
structure Trail (α : Type) where
  current : List α := []
  enclosing : List (List α) := []
  deriving DecidableEq

namespace Trail

variable {α : Type}

instance : Inhabited (Trail α) := ⟨{}⟩

/-- The number of open scopes. -/
def level (t : Trail α) : Nat := t.enclosing.length

/-- All entries, newest first. -/
def newestFirst (t : Trail α) : List α := t.current ++ t.enclosing.flatten

/-- All entries in the order they were recorded in. -/
def toList (t : Trail α) : List α := t.newestFirst.reverse

/-- The trail with one more entry in the innermost scope. -/
def push (x : α) (t : Trail α) : Trail α := { t with current := x :: t.current }

/-- The trail with a new innermost scope. -/
def openScope (t : Trail α) : Trail α := ⟨[], t.current :: t.enclosing⟩

/-- The trail without its `n` innermost scopes, and the entries they held, newest first. -/
def close : Nat → Trail α → Trail α × List α
  | 0, t => (t, [])
  | _ + 1, ⟨c, []⟩ => (⟨c, []⟩, [])
  | n + 1, ⟨c, d :: ds⟩ =>
    let (t, removed) := close n ⟨d, ds⟩
    (t, c ++ removed)

/-- The trail as it was when `level` scopes were open, and the entries recorded since then in
scopes that are left, newest first. -/
def backtrack (level : Nat) (t : Trail α) : Checked (Trail α × List α) :=
  if level ≤ t.level then .ok (t.close (t.level - level)) else .error .noSuchScope

@[simp] theorem toList_push (x : α) (t : Trail α) : (t.push x).toList = t.toList ++ [x] := by
  simp [toList, newestFirst, push]

@[simp] theorem toList_openScope (t : Trail α) : t.openScope.toList = t.toList := by
  simp [toList, newestFirst, openScope]

@[simp] theorem level_push (x : α) (t : Trail α) : (t.push x).level = t.level := rfl

@[simp] theorem level_openScope (t : Trail α) : t.openScope.level = t.level + 1 := rfl

/-- Nothing is lost: what stays and what is given back are the old entries in order. -/
theorem toList_close (n : Nat) (t : Trail α) :
    (t.close n).1.toList ++ (t.close n).2.reverse = t.toList := by
  fun_induction close n t with
  | case1 => simp
  | case2 => simp
  | case3 n c d ds t removed h ih =>
    simp_all [toList, newestFirst]
    grind

end Trail

end LinearArithmetic
