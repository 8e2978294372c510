import LinearArithmetic.Proofs.LinearValue
import Mathlib.Data.List.Nodup

/-!
# The coefficients of a linear sum

A linear sum is put together from constants and from multiples of leaves that are no larger than
the term. So no leaf has two entries, and the values of a sum determine its entries. Whether a
term can be added depends neither on the sum nor on the factor.
-/

namespace LinearArithmetic

namespace LinearSum

/-! ## How a sum is put together -/

/-- The term is of a limited size, and its linear sum is the term itself. -/
structure Alone (n : Nat) (leaf : Term) : Prop where
  size_le : leaf.size ≤ n
  linearSum_eq : leaf.linearSum = .ok { terms := [(leaf, 1)] }

/-- The second sum comes from the first one by adding constants and multiples of leaves of a
limited size. -/
inductive Gathers (n : Nat) (s : LinearSum) : LinearSum → Prop
  | refl : Gathers n s s
  | leaf {s' : LinearSum} {leaf : Term} (h : Gathers n s s') (hleaf : Alone n leaf) (c : ℚ) :
      Gathers n s (s'.addLeaf leaf c)
  | constant {s' : LinearSum} (h : Gathers n s s') (q : ℚ) : Gathers n s (s'.addConstant q)

theorem Gathers.trans {n : Nat} {s₁ s₂ s₃ : LinearSum} (h : Gathers n s₁ s₂)
    (k : Gathers n s₂ s₃) : Gathers n s₁ s₃ := by
  induction k with
  | refl => exact h
  | leaf _ hleaf c ih => exact .leaf ih hleaf c
  | constant _ q ih => exact .constant ih q

theorem Gathers.mono {n m : Nat} {s s' : LinearSum} (h : Gathers n s s') (hnm : n ≤ m) :
    Gathers m s s' := by
  induction h with
  | refl => exact .refl
  | leaf _ hleaf c ih => exact .leaf ih ⟨hleaf.size_le.trans hnm, hleaf.linearSum_eq⟩ c
  | constant _ q ih => exact .constant ih q

/-- No leaf has two entries. -/
def Separate (s : LinearSum) : Prop := (s.terms.map Prod.fst).Nodup

theorem keys_addEntry (leaf : Term) (c : ℚ) (l : List (Term × ℚ)) :
    (addEntry leaf c l).map Prod.fst =
      if leaf ∈ l.map Prod.fst then l.map Prod.fst else l.map Prod.fst ++ [leaf] := by
  induction l with
  | nil => rfl
  | cons e l ih =>
    obtain ⟨t, d⟩ := e
    rw [addEntry]
    by_cases ht : t = leaf
    · rw [if_pos ht, List.map_cons, List.map_cons, if_pos (ht ▸ List.mem_cons_self)]
    · rw [if_neg ht, List.map_cons, List.map_cons, ih]
      have hmem : leaf ∈ t :: l.map Prod.fst ↔ leaf ∈ l.map Prod.fst := by
        rw [List.mem_cons, or_iff_right fun h => ht h.symm]
      simp only [hmem]
      split <;> rfl

theorem Gathers.separate {n : Nat} {s s' : LinearSum} (h : Gathers n s s') (hs : s.Separate) :
    s'.Separate := by
  induction h with
  | refl => exact hs
  | @leaf s₁ leaf _ _ c ih =>
    rw [Separate, addLeaf, keys_addEntry]
    split
    · exact ih
    · rename_i hmem
      refine List.nodup_append.mpr ⟨ih, List.nodup_singleton leaf, fun t ht u hu htu => ?_⟩
      rw [htu, List.mem_singleton.mp hu] at ht
      exact hmem ht
  | constant _ _ ih => exact ih

theorem Gathers.alone {n : Nat} {s s' : LinearSum} (h : Gathers n s s')
    (hs : ∀ e ∈ s.terms, Alone n e.1) : ∀ e ∈ s'.terms, Alone n e.1 := by
  induction h with
  | refl => exact hs
  | leaf _ hleaf c ih =>
    intro e he
    rcases mem_addEntry he with he | ⟨d, hd⟩
    · exact he ▸ hleaf
    · exact ih (e.1, d) hd
  | constant _ _ ih => exact ih

/-! ## Entries and values -/

section Entries

variable {l : List (Term × ℚ)} {u : Term}

/-- The value of a leaf without an entry does not matter. -/
theorem sum_update_of_not_mem (h : u ∉ l.map Prod.fst) (ρ : Term → ℚ) (x : ℚ) :
    (l.map fun e => e.2 * Function.update ρ u x e.1).sum = (l.map fun e => e.2 * ρ e.1).sum := by
  refine congrArg List.sum (List.map_congr_left fun e he => ?_)
  have hne : e.1 ≠ u := fun heq => h (heq ▸ List.mem_map_of_mem he)
  rw [Function.update_of_ne hne]

/-- The value of a leaf counts as often as its entry says. -/
theorem sum_update_of_mem (hl : (l.map Prod.fst).Nodup) {c : ℚ} (h : (u, c) ∈ l) (ρ : Term → ℚ)
    (x : ℚ) : (l.map fun e => e.2 * Function.update ρ u x e.1).sum =
      (l.map fun e => e.2 * ρ e.1).sum + c * (x - ρ u) := by
  induction l with
  | nil => exact absurd h List.not_mem_nil
  | cons e l ih =>
    rw [List.map_cons, List.nodup_cons] at hl
    simp only [List.map_cons, List.sum_cons]
    rcases List.mem_cons.mp h with rfl | h
    · rw [sum_update_of_not_mem hl.1, Function.update_self]
      ring
    · have hmem : u ∈ l.map Prod.fst := List.mem_map_of_mem h
      have hne : e.1 ≠ u := fun heq => hl.1 (heq ▸ hmem)
      rw [ih hl.2 h, Function.update_of_ne hne]
      ring

end Entries

theorem separate_leaves {s : LinearSum} (h : s.Separate) : (s.leaves.map Prod.fst).Nodup :=
  h.sublist (List.filter_sublist.map _)

theorem ne_zero_of_mem_leaves {s : LinearSum} {e : Term × ℚ} (h : e ∈ s.leaves) : e.2 ≠ 0 := by
  simpa using (List.mem_filter.mp h).2

theorem eval_eq_leaves (ρ : Term → ℚ) (s : LinearSum) :
    s.eval ρ = s.constant + (s.leaves.map fun e => e.2 * ρ e.1).sum := by
  rw [eval, sum_leaves]

/-- How much the value of a sum grows with that of a leaf. -/
def slope (s : LinearSum) (u : Term) : ℚ := s.eval (Function.update 0 u 1) - s.eval 0

/-- The leaves of a sum are those that its value depends on. -/
theorem mem_leaves_iff {s : LinearSum} (h : s.Separate) {u : Term} {c : ℚ} :
    (u, c) ∈ s.leaves ↔ c ≠ 0 ∧ s.slope u = c := by
  have hslope : ∀ d, (u, d) ∈ s.leaves → s.slope u = d := fun d hd => by
    rw [slope, eval_eq_leaves, eval_eq_leaves, sum_update_of_mem (separate_leaves h) hd]
    simp
  constructor
  · intro hc
    exact ⟨ne_zero_of_mem_leaves hc, hslope c hc⟩
  · rintro ⟨hne, rfl⟩
    by_cases hmem : u ∈ s.leaves.map Prod.fst
    · obtain ⟨⟨u', d⟩, hd, rfl⟩ := List.mem_map.mp hmem
      exact (hslope d hd).symm ▸ hd
    · refine absurd ?_ hne
      rw [slope, eval_eq_leaves, eval_eq_leaves, sum_update_of_not_mem hmem, sub_self]

end LinearSum

namespace Term

/-! ## Adding terms -/

theorem sizeAll_filter_le (p : Term → Bool) (ts : List Term) :
    sizeAll (ts.filter p) ≤ sizeAll ts := by
  induction ts with
  | nil => exact Nat.le_refl _
  | cons t ts ih =>
    rw [List.filter_cons]
    split <;> simp only [sizeAll] <;> omega

mutual

/-- A term adds constants and multiples of leaves that are no larger than itself. -/
theorem gathers_addTo : ∀ (t : Term) (k : ℚ) {s s' : LinearSum}, t.addTo k s = .ok s' →
    s.Gathers t.size s'
  | const q, k, s, s', h => by
    rw [addTo, Except.ok.injEq] at h
    exact h ▸ .constant .refl _
  | sum ts, k, s, s', h => by
    rw [addTo] at h
    refine (gathers_addAllTo ts k h).mono ?_
    simp only [size]
    omega
  | prod ts, k, s, s', h => by
    rcases addTo_prod_eq_ok h with ⟨_, rfl⟩ | ⟨f, _, h⟩ | ⟨hlen, ⟨p, hp⟩, rfl⟩
    · exact .constant .refl _
    · refine (gathers_addFactorTo ts _ h).mono ?_
      simp only [size]
      omega
    · refine .leaf .refl ⟨?_, linearSum_variableFactors hp hlen⟩ _
      have := sizeAll_filter_le (fun t => t.constant?.isNone) ts
      simp only [size, variableFactors]
      omega
  | var name, k, s, s', h => by
    rw [addTo, Except.ok.injEq] at h
    exact h ▸ .leaf .refl ⟨Nat.le_refl _, by rw [linearSum, addTo]; rfl⟩ k
  | ite c a b, k, s, s', h => by
    rw [addTo, Except.ok.injEq] at h
    exact h ▸ .leaf .refl ⟨Nat.le_refl _, by rw [linearSum, addTo]; rfl⟩ k
  | bool _, k, s, s', h => nomatch h
  | rel _ _ _, k, s, s', h => nomatch h
  | neg _, k, s, s', h => nomatch h
  | conj _, k, s, s', h => nomatch h
  | disj _, k, s, s', h => nomatch h
  | implies _ _, k, s, s', h => nomatch h

theorem gathers_addAllTo : ∀ (ts : List Term) (k : ℚ) {s s' : LinearSum},
    addAllTo ts k s = .ok s' → s.Gathers (sizeAll ts) s'
  | [], k, s, s', h => by
    rw [addAllTo, Except.ok.injEq] at h
    exact h ▸ .refl
  | t :: ts, k, s, s', h => by
    rw [addAllTo] at h
    obtain ⟨s₁, ht, h⟩ := bind_eq_ok.mp h
    have hle : t.size ≤ sizeAll (t :: ts) ∧ sizeAll ts ≤ sizeAll (t :: ts) := by
      simp only [sizeAll]
      omega
    exact ((gathers_addTo t k ht).mono hle.1).trans ((gathers_addAllTo ts k h).mono hle.2)

theorem gathers_addFactorTo : ∀ (ts : List Term) (k : ℚ) {s s' : LinearSum},
    addFactorTo ts k s = .ok s' → s.Gathers (sizeAll ts) s'
  | [], k, s, s', h => by
    rw [addFactorTo, Except.ok.injEq] at h
    exact h ▸ .constant .refl _
  | t :: ts, k, s, s', h => by
    have hle : t.size ≤ sizeAll (t :: ts) ∧ sizeAll ts ≤ sizeAll (t :: ts) := by
      simp only [sizeAll]
      omega
    rw [addFactorTo_cons] at h
    split at h
    · exact (gathers_addFactorTo ts k h).mono hle.2
    · exact (gathers_addTo t k h).mono hle.1

end

mutual

/-- Whether a term can be added depends neither on the factor nor on the sum. -/
theorem exists_addTo : ∀ (t : Term) {k : ℚ} {s s' : LinearSum}, t.addTo k s = .ok s' →
    ∀ k₁ s₁, ∃ s₂, t.addTo k₁ s₁ = .ok s₂
  | const _, _, _, _, _, k₁, s₁ => ⟨_, by rw [addTo]⟩
  | sum ts, k, s, s', h, k₁, s₁ => by
    rw [addTo] at h ⊢
    exact exists_addAllTo ts h k₁ s₁
  | prod ts, k, s, s', h, k₁, s₁ => by
    cases hs : splitFactors ts with
    | error e =>
      rw [addTo, hs] at h
      cases h
    | ok p =>
      rw [addTo_prod hs] at h ⊢
      match hv : variableFactors ts, h with
      | [], _ => exact ⟨_, rfl⟩
      | [_], h => exact exists_addFactorTo ts h _ s₁
      | _ :: _ :: _, _ => exact ⟨_, rfl⟩
  | var _, _, _, _, _, k₁, s₁ => ⟨_, by rw [addTo]⟩
  | ite _ _ _, _, _, _, _, k₁, s₁ => ⟨_, by rw [addTo]⟩
  | bool _, _, _, _, h, _, _ => nomatch h
  | rel _ _ _, _, _, _, h, _, _ => nomatch h
  | neg _, _, _, _, h, _, _ => nomatch h
  | conj _, _, _, _, h, _, _ => nomatch h
  | disj _, _, _, _, h, _, _ => nomatch h
  | implies _ _, _, _, _, h, _, _ => nomatch h

theorem exists_addAllTo : ∀ (ts : List Term) {k : ℚ} {s s' : LinearSum},
    addAllTo ts k s = .ok s' → ∀ k₁ s₁, ∃ s₂, addAllTo ts k₁ s₁ = .ok s₂
  | [], _, _, _, _, k₁, s₁ => ⟨s₁, by rw [addAllTo]⟩
  | t :: ts, k, s, s', h, k₁, s₁ => by
    rw [addAllTo] at h ⊢
    obtain ⟨s₂, ht, h⟩ := bind_eq_ok.mp h
    obtain ⟨s₃, h₃⟩ := exists_addTo t ht k₁ s₁
    rw [h₃]
    exact exists_addAllTo ts h k₁ s₃

theorem exists_addFactorTo : ∀ (ts : List Term) {k : ℚ} {s s' : LinearSum},
    addFactorTo ts k s = .ok s' → ∀ k₁ s₁, ∃ s₂, addFactorTo ts k₁ s₁ = .ok s₂
  | [], _, _, _, _, k₁, s₁ => ⟨_, by rw [addFactorTo]⟩
  | t :: ts, k, s, s', h, k₁, s₁ => by
    rw [addFactorTo_cons] at h ⊢
    split
    · rename_i hc
      rw [if_pos hc] at h
      exact exists_addFactorTo ts h k₁ s₁
    · rename_i hc
      rw [if_neg hc] at h
      exact exists_addTo t h k₁ s₁

end

/-- The linear sum of a term has no leaf twice, and none larger than the term. -/
theorem linearSum_entries {t : Term} {s : LinearSum} (h : t.linearSum = .ok s) :
    s.Separate ∧ ∀ e ∈ s.leaves, LinearSum.Alone t.size e.1 := by
  have hgathers := gathers_addTo t 1 h
  have hstart : ({} : LinearSum).Separate := List.nodup_nil
  refine ⟨hgathers.separate hstart, fun e he => ?_⟩
  exact hgathers.alone (fun f hf => absurd hf List.not_mem_nil) e (List.mem_filter.mp he).1

/-- The linear sums of both sides of a comparison that has a linear atom. Each leaf of the atom
stands with the difference of its slopes on both sides. -/
theorem linearAtom_sides {r : Relation} {lhs rhs : Term} {a : LinearAtom}
    (h : (rel r lhs rhs).linearAtom = .ok a) :
    ∃ left right, lhs.linearSum = .ok left ∧ rhs.linearSum = .ok right ∧
      (a.leaves.map Prod.fst).Nodup ∧
        ∀ u c, (u, c) ∈ a.leaves ↔ c ≠ 0 ∧ left.slope u - right.slope u = c := by
  obtain ⟨left, s, hl, hr, rfl⟩ := linearAtom_rel_eq_ok h
  obtain ⟨right, hright⟩ := exists_addTo rhs hr 1 {}
  have hsep : s.Separate := (gathers_addTo rhs (-1) hr).separate (linearSum_entries hl).1
  have hslope : ∀ u, s.slope u = left.slope u - right.slope u := by
    intro u
    have heval : ∀ ρ, s.eval ρ = left.eval ρ - right.eval ρ := by
      intro ρ
      rw [(addTo_eq_ok rhs (-1) hr).eval, (linearSum_eq_ok hright).2]
      ring
    rw [LinearSum.slope, LinearSum.slope, LinearSum.slope, heval, heval]
    ring
  refine ⟨left, right, hl, hright, LinearSum.separate_leaves hsep, fun u c => ?_⟩
  rw [← hslope]
  exact LinearSum.mem_leaves_iff hsep

end Term

/-- Whatever the other leaves are, a comparison that mentions a leaf is true for some value of the
leaf and false for another. -/
theorem LinearAtom.exists_update {a : LinearAtom} (hl : (a.leaves.map Prod.fst).Nodup) {u : Term}
    {c : ℚ} (h : (u, c) ∈ a.leaves) (hc : c ≠ 0) (ρ : Term → ℚ) :
    (∃ x, a.Holds (Function.update ρ u x)) ∧ ∃ x, ¬ a.Holds (Function.update ρ u x) := by
  -- the sum on the left takes every value
  have hreach : ∀ y, ∃ x, a.Holds (Function.update ρ u x) ↔ a.relation.holds y a.bound = true := by
    intro y
    refine ⟨(y - (a.leaves.map fun e => e.2 * ρ e.1).sum) / c + ρ u, ?_⟩
    rw [LinearAtom.Holds, LinearSum.sum_update_of_mem hl h, add_sub_cancel_right,
      mul_div_cancel₀ _ hc, add_sub_cancel]
  have hdecides : (∃ y, a.relation.holds y a.bound = true) ∧
      ∃ y, ¬ a.relation.holds y a.bound = true := by
    cases a.relation <;> simp only [Relation.holds, decide_eq_true_eq]
    · exact ⟨⟨a.bound - 1, by linarith⟩, a.bound, lt_irrefl _⟩
    · exact ⟨⟨a.bound, le_rfl⟩, a.bound + 1, by linarith⟩
    · exact ⟨⟨a.bound, rfl⟩, a.bound + 1, by linarith⟩
    · exact ⟨⟨a.bound, le_rfl⟩, a.bound - 1, by linarith⟩
    · exact ⟨⟨a.bound + 1, by linarith⟩, a.bound, lt_irrefl _⟩
  obtain ⟨⟨y, hy⟩, z, hz⟩ := hdecides
  exact ⟨(hreach y).imp fun _ h => h.mpr hy, (hreach z).imp fun _ h => h.not.mpr hz⟩

end LinearArithmetic
