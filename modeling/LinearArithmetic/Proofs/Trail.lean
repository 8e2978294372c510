import LinearArithmetic.Collection.Trail
import LinearArithmetic.Proofs.Checked

/-!
# Going back to an outer scope

`t.kept n` is the trail as it was when `n` scopes were open, and `t.undone n` the entries recorded
since then, newest first. New entries only show up in the scopes that are still open.
-/

namespace LinearArithmetic.Trail

variable {α : Type}

/-- The trail with `n` open scopes. -/
def kept (n : Nat) (t : Trail α) : Trail α := (t.close (t.level - n)).1

/-- The entries recorded in the scopes around which `n` scopes are open, newest first. -/
def undone (n : Nat) (t : Trail α) : List α := (t.close (t.level - n)).2

theorem backtrack_eq_ok {t : Trail α} {n : Nat} (h : n ≤ t.level) :
    t.backtrack n = .ok (t.kept n, t.undone n) := by
  rw [backtrack, if_pos h]
  rfl

@[simp] theorem kept_level (t : Trail α) : t.kept t.level = t := by
  rw [kept, Nat.sub_self]
  rfl

@[simp] theorem undone_level (t : Trail α) : t.undone t.level = [] := by
  rw [undone, Nat.sub_self]
  rfl

theorem level_close (k : Nat) (t : Trail α) : (t.close k).1.level = t.level - k := by
  fun_induction close k t with
  | case1 t => rfl
  | case2 k c => simp [level]
  | case3 k c d ds t removed h ih =>
    rw [h] at ih
    simp only [level, List.length_cons] at ih ⊢
    omega

theorem level_kept {t : Trail α} {n : Nat} (h : n ≤ t.level) : (t.kept n).level = n := by
  rw [kept, level_close]
  omega

theorem close_push (k : Nat) (x : α) (t : Trail α) (h : k < t.level) :
    (t.push x).close (k + 1) = ((t.close (k + 1)).1, x :: (t.close (k + 1)).2) := by
  obtain ⟨c, ds⟩ := t
  cases ds with
  | nil => simp [level] at h
  | cons d ds => rfl

theorem kept_push {t : Trail α} {n : Nat} (h : n < t.level) (x : α) :
    (t.push x).kept n = t.kept n := by
  obtain ⟨k, hk⟩ : ∃ k, t.level - n = k + 1 := ⟨t.level - n - 1, by omega⟩
  rw [kept, kept, level_push, hk, close_push k x t (by omega)]

theorem undone_push {t : Trail α} {n : Nat} (h : n < t.level) (x : α) :
    (t.push x).undone n = x :: t.undone n := by
  obtain ⟨k, hk⟩ : ∃ k, t.level - n = k + 1 := ⟨t.level - n - 1, by omega⟩
  rw [undone, undone, level_push, hk, close_push k x t (by omega)]

theorem close_openScope (k : Nat) (t : Trail α) : t.openScope.close (k + 1) = t.close k := by
  obtain ⟨c, ds⟩ := t
  simp [openScope, close]

theorem kept_openScope {t : Trail α} {n : Nat} (h : n ≤ t.level) :
    t.openScope.kept n = t.kept n := by
  rw [kept, kept, level_openScope, show t.level + 1 - n = t.level - n + 1 by omega, close_openScope]

theorem undone_openScope {t : Trail α} {n : Nat} (h : n ≤ t.level) :
    t.openScope.undone n = t.undone n := by
  rw [undone, undone, level_openScope, show t.level + 1 - n = t.level - n + 1 by omega,
    close_openScope]

theorem close_add (j k : Nat) (t : Trail α) :
    t.close (j + k) = (((t.close j).1.close k).1, (t.close j).2 ++ ((t.close j).1.close k).2) := by
  induction j generalizing t with
  | zero => simp [close]
  | succ j ih =>
    obtain ⟨c, ds⟩ := t
    cases ds with
    | nil =>
      have hnil : ∀ i, (⟨c, []⟩ : Trail α).close i = (⟨c, []⟩, []) := by
        intro i
        cases i <;> rfl
      simp only [hnil, List.append_nil]
    | cons d ds =>
      rw [show j + 1 + k = (j + k) + 1 by omega]
      simp only [close]
      rw [ih ⟨d, ds⟩]
      simp

theorem kept_kept {t : Trail α} {m n : Nat} (hmn : m ≤ n) (hn : n ≤ t.level) :
    (t.kept n).kept m = t.kept m := by
  have hsplit : t.level - m = (t.level - n) + (n - m) := by omega
  rw [kept, level_kept hn, kept, kept, hsplit, close_add]

theorem undone_kept {t : Trail α} {m n : Nat} (hmn : m ≤ n) (hn : n ≤ t.level) :
    t.undone m = t.undone n ++ (t.kept n).undone m := by
  rw [undone, undone, undone, level_kept hn, kept,
    show t.level - m = (t.level - n) + (n - m) by omega, close_add]

/-- What is kept and what is undone make up the trail. -/
theorem toList_kept_append (n : Nat) (t : Trail α) :
    (t.kept n).toList ++ (t.undone n).reverse = t.toList := toList_close _ t

@[simp] theorem newestFirst_openScope (t : Trail α) : t.openScope.newestFirst = t.newestFirst := rfl

/-- What is undone and what is kept are the entries, newest first. -/
theorem undone_append_newestFirst (n : Nat) (t : Trail α) :
    t.undone n ++ (t.kept n).newestFirst = t.newestFirst := by
  have h := congrArg List.reverse (toList_kept_append n t)
  simpa only [List.reverse_append, List.reverse_reverse, toList] using h

/-! ## Several entries for one -/

section FlatMap

variable {β : Type}

/-- Every entry is replaced by several, newest first, in the scope that it stands in. -/
def flatMap (f : α → List β) (t : Trail α) : Trail β :=
  ⟨t.current.flatMap f, t.enclosing.map fun entries => entries.flatMap f⟩

@[simp] theorem level_flatMap (f : α → List β) (t : Trail α) :
    (t.flatMap f).level = t.level := List.length_map _

theorem flatMap_push (f : α → List β) (x : α) (t : Trail α) :
    (t.push x).flatMap f = (f x).foldr push (t.flatMap f) := by
  have hfoldr : ∀ (ys : List β) (u : Trail β),
      ys.foldr push u = ⟨ys ++ u.current, u.enclosing⟩ := by
    intro ys u
    induction ys with
    | nil => rfl
    | cons y ys ih => rw [List.foldr_cons, ih, push, List.cons_append]
  rw [hfoldr]
  rfl

theorem newestFirst_flatMap (f : α → List β) (t : Trail α) :
    (t.flatMap f).newestFirst = t.newestFirst.flatMap f := by
  have hflatten : (t.enclosing.map fun entries => entries.flatMap f).flatten =
      t.enclosing.flatten.flatMap f := by
    rw [List.flatten_eq_flatMap (L := t.enclosing), List.flatMap_assoc, List.flatMap_def]
    rfl
  rw [newestFirst, newestFirst, List.flatMap_append, ← hflatten]
  rfl

theorem close_flatMap (f : α → List β) (n : Nat) (t : Trail α) :
    (t.flatMap f).close n = ((t.close n).1.flatMap f, (t.close n).2.flatMap f) := by
  fun_induction close n t with
  | case1 t => rfl
  | case2 n c => rfl
  | case3 n c d ds t removed h ih =>
    rw [h] at ih
    rw [List.flatMap_append]
    exact congrArg (fun p => (p.1, c.flatMap f ++ p.2)) ih

theorem kept_flatMap (f : α → List β) (n : Nat) (t : Trail α) :
    (t.flatMap f).kept n = (t.kept n).flatMap f := by
  rw [kept, kept, level_flatMap, close_flatMap]

theorem undone_flatMap (f : α → List β) (n : Nat) (t : Trail α) :
    (t.flatMap f).undone n = (t.undone n).flatMap f := by
  rw [undone, undone, level_flatMap, close_flatMap]

end FlatMap

end LinearArithmetic.Trail
