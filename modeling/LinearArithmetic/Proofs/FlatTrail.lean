import LinearArithmetic.Collection.FlatTrail
import LinearArithmetic.Proofs.Trail

/-!
# Nested scopes in one list

A trail in nested scopes and the same trail in one list go along with each other.
-/

namespace LinearArithmetic.Trail

variable {α : Type}

theorem length_startsOf (ds : List (List α)) : (startsOf ds).length = ds.length := by
  induction ds with
  | nil => rfl
  | cons d ds ih => rw [startsOf, List.length_append, ih]; rfl

theorem level_flat (t : Trail α) : t.flat.level = t.level := length_startsOf t.enclosing

theorem flat_push (x : α) (t : Trail α) : (t.push x).flat = t.flat.push x := by
  rw [flat, toList_push]
  rfl

theorem flat_openScope (t : Trail α) : t.openScope.flat = t.flat.openScope := by
  have hlength : t.newestFirst.length = t.toList.length := (List.length_reverse).symm
  rw [flat, toList_openScope]
  change FlatTrail.mk t.toList (startsOf t.enclosing ++ [t.newestFirst.length]) = _
  rw [hlength]
  rfl

/-- Leaving scopes drops their starts, and keeps the entries before the outermost of these. -/
theorem flat_close (k : Nat) (t : Trail α) :
    startsOf (t.close k).1.enclosing = (startsOf t.enclosing).take (t.level - k) ∧
      (t.close k).1.newestFirst.length = t.flat.lengthAt (t.level - k) := by
  fun_induction close k t with
  | case1 t =>
    have hlength : t.flat.starts.length = t.level := length_startsOf t.enclosing
    rw [Nat.sub_zero, FlatTrail.lengthAt, List.getElem?_eq_none (Nat.le_of_eq hlength)]
    exact ⟨(List.take_of_length_le (Nat.le_of_eq hlength)).symm, (List.length_reverse).symm⟩
  | case2 k c =>
    have hlevel : (⟨c, []⟩ : Trail α).level - (k + 1) = 0 := Nat.zero_sub (k + 1)
    rw [hlevel]
    exact ⟨rfl, (List.length_reverse).symm⟩
  | case3 k c d ds u removed h ih =>
    rw [h] at ih
    have hlength := length_startsOf ds
    have hlevel : (⟨c, d :: ds⟩ : Trail α).level - (k + 1) = ds.length - k := by
      simp only [level, List.length_cons]
      omega
    have hle : ds.length - k ≤ (startsOf ds).length := by omega
    rw [hlevel]
    refine ⟨?_, ?_⟩
    · rw [startsOf, List.take_append_of_le_length hle]
      exact ih.1
    · rw [ih.2, FlatTrail.lengthAt, FlatTrail.lengthAt]
      change (startsOf ds)[ds.length - k]?.getD _ = (startsOf ds ++ [_])[ds.length - k]?.getD _
      rcases Nat.lt_or_eq_of_le hle with hlt | heq
      · rw [List.getElem?_append_left hlt, List.getElem?_eq_getElem hlt]
        rfl
      · -- all that is left is the innermost of the scopes
        rw [heq, List.getElem?_eq_none (Nat.le_refl _), List.getElem?_concat_length]
        exact List.length_reverse

theorem flat_backtrack (n : Nat) (t : Trail α) :
    t.flat.backtrack n = (fun p => (p.1.flat, p.2)) <$> t.backtrack n := by
  rw [backtrack, FlatTrail.backtrack, level_flat]
  split
  · rename_i hn
    obtain ⟨hstarts, hkept⟩ := flat_close (t.level - n) t
    rw [Nat.sub_sub_self hn] at hstarts hkept
    have hsplit := toList_close (t.level - n) t
    have hlength : (t.close (t.level - n)).1.toList.length = t.flat.lengthAt n := by
      rw [← hkept]
      exact List.length_reverse
    have htake : t.flat.entries.take (t.flat.lengthAt n) = (t.close (t.level - n)).1.toList := by
      change t.toList.take _ = _
      rw [← hsplit, ← hlength, List.take_left]
    have hdrop : t.flat.entries.drop (t.flat.lengthAt n) =
        (t.close (t.level - n)).2.reverse := by
      change t.toList.drop _ = _
      rw [← hsplit, ← hlength, List.drop_left]
    have hflat : (t.close (t.level - n)).1.flat =
        ⟨(t.close (t.level - n)).1.toList, t.flat.starts.take n⟩ := by
      rw [flat, hstarts]
      rfl
    rw [htake, hdrop, List.reverse_reverse, map_ok, hflat]
  · rfl

end LinearArithmetic.Trail
