import LinearArithmetic.Proofs.Checked
import LinearArithmetic.Proofs.DeltaRat
import LinearArithmetic.Simplex.Basic
import Mathlib.GroupTheory.GroupAction.Ring
import Mathlib.LinearAlgebra.Finsupp.LinearCombination
import Mathlib.Tactic.Abel

/-!
# Values of rows

A row is a finitely supported function from variables to coefficients, and its value under an
assignment is the linear combination. Every operation on rows has one law for its values.
-/

namespace LinearArithmetic.Row

theorem mem_entries_iff {r : Row} {v : Var} {c : ℚ} :
    (v, c) ∈ r.entries ↔ r.coefficient? v = some c :=
  SortedMap.get?_eq_some_iff.symm

theorem coefficient_eq_of_some {r : Row} {v : Var} {c : ℚ} (h : r.coefficient? v = some c) :
    r.coefficient v = c := by
  simp [coefficient, h]

theorem coefficient?_of_ne_zero {r : Row} {v : Var} (h : r.coefficient v ≠ 0) :
    r.coefficient? v = some (r.coefficient v) := by
  unfold coefficient at h ⊢
  cases hv : r.coefficient? v with
  | none => simp [hv] at h
  | some c => rfl

theorem contains_iff {r : Row} {v : Var} : r.contains v = true ↔ r.coefficient v ≠ 0 := by
  constructor
  · intro h
    obtain ⟨c, hc⟩ := Option.isSome_iff_exists.mp h
    rw [coefficient_eq_of_some hc]
    exact ne_zero_of_coefficient? hc
  · intro h
    rw [contains, coefficient?_of_ne_zero h]
    rfl

theorem mem_vars_iff {r : Row} {v : Var} : v ∈ r.vars ↔ r.contains v = true := by
  constructor
  · intro h
    obtain ⟨⟨u, c⟩, he, rfl⟩ := List.mem_map.mp h
    rw [contains, mem_entries_iff.mp he]
    rfl
  · intro h
    obtain ⟨c, hc⟩ := Option.isSome_iff_exists.mp h
    exact List.mem_map.mpr ⟨(v, c), mem_entries_iff.mpr hc, rfl⟩

theorem contains_of_mem_entries {r : Row} {e : Var × ℚ} (h : e ∈ r.entries) :
    r.contains e.1 = true :=
  mem_vars_iff.mp (List.mem_map.mpr ⟨e, h, rfl⟩)

theorem nodup_vars (r : Row) : r.vars.Nodup := by
  have h : r.vars.Pairwise (· < ·) := List.pairwise_map.mpr r.coefficients.sorted
  exact h.imp fun hlt heq => by
    subst heq
    exact absurd hlt Std.lt_irrefl

/-! ## Numbers of entries -/

theorem size_eq_card (r : Row) : r.size = r.vars.toFinset.card := by
  rw [List.toFinset_card_of_nodup r.nodup_vars]
  exact (List.length_map _).symm

/-- A row that mentions one variable more has one entry more. -/
theorem size_eq_add_one {r s : Row} {v : Var} (hv : r.contains v = false)
    (h : ∀ u, s.contains u = true ↔ u = v ∨ r.contains u = true) : s.size = r.size + 1 := by
  have hnot : v ∉ r.vars.toFinset := by
    intro hmem
    rw [List.mem_toFinset, mem_vars_iff, hv] at hmem
    cases hmem
  have hset : s.vars.toFinset = insert v r.vars.toFinset := by
    ext u
    simp only [List.mem_toFinset, mem_vars_iff, Finset.mem_insert, h]
  rw [size_eq_card, size_eq_card, hset, Finset.card_insert_of_notMem hnot]

/-- Rows over the same variables have equally many entries. -/
theorem size_congr {r s : Row} (h : ∀ u, s.contains u = r.contains u) : s.size = r.size := by
  have hset : s.vars.toFinset = r.vars.toFinset := by
    ext u
    simp only [List.mem_toFinset, mem_vars_iff, h]
  rw [size_eq_card, size_eq_card, hset]

theorem contains_erase (u v : Var) (r : Row) :
    (r.erase v).contains u = true ↔ u ≠ v ∧ r.contains u = true := by
  rw [contains_iff, contains_iff, coefficient_erase]
  split
  · rename_i h
    simp [h]
  · rename_i h
    simp [h]

theorem contains_add_of_ne {u v : Var} (h : u ≠ v) (c : ℚ) (r : Row) :
    (r.add v c).contains u = r.contains u := by
  rw [Bool.eq_iff_iff, contains_iff, contains_iff, coefficient_add, if_neg h]

/-- What is noted of an addition tells whether the variable was mentioned before and is now. -/
theorem contains_of_change (v : Var) (c : ℚ) (r : Row) :
    match r.change v c with
    | .created => r.contains v = false ∧ (r.add v c).contains v = true
    | .cancelled => r.contains v = true ∧ (r.add v c).contains v = false
    | .updated | .unchanged => (r.add v c).contains v = r.contains v := by
  have hadd : (r.add v c).contains v = true ↔ r.coefficient v + c ≠ 0 := by
    rw [contains_iff, coefficient_add, if_pos rfl]
  have hr : r.contains v = true ↔ r.coefficient v ≠ 0 := contains_iff
  unfold change
  by_cases hc : c = 0
  · have hsame : (r.add v c).contains v = r.contains v := by
      rw [Bool.eq_iff_iff, hadd, hr, hc, add_zero]
    rw [if_pos hc]
    exact hsame
  · rw [if_neg hc]
    cases hv : r.contains v with
    | false =>
      rw [hv] at hr
      have hzero : r.coefficient v = 0 := by simpa using hr
      exact ⟨rfl, hadd.mpr (by rwa [hzero, zero_add])⟩
    | true =>
      by_cases hsum : r.coefficient v + c = 0
      · simp only [Bool.not_true, Bool.false_eq_true, if_false, if_pos hsum, true_and]
        rw [← Bool.not_eq_true, hadd, not_not]
        exact hsum
      · simp only [Bool.not_true, Bool.false_eq_true, if_false, if_neg hsum]
        exact hadd.mpr hsum

/-! ## Rows as finitely supported functions -/

/-- The coefficients of a row. -/
noncomputable def toFinsupp (r : Row) : Var →₀ ℚ where
  support := r.vars.toFinset
  toFun := r.coefficient
  mem_support_toFun v := by rw [List.mem_toFinset, mem_vars_iff, contains_iff]

@[simp] theorem toFinsupp_apply (r : Row) (v : Var) : r.toFinsupp v = r.coefficient v := rfl

theorem toFinsupp_injective : Function.Injective toFinsupp :=
  fun _ _ h => ext_coefficient fun v => DFunLike.congr_fun h v

@[simp] theorem toFinsupp_empty : (∅ : Row).toFinsupp = 0 := by
  ext v
  simp

theorem toFinsupp_add (v : Var) (c : ℚ) (r : Row) :
    (r.add v c).toFinsupp = r.toFinsupp + Finsupp.single v c := by
  ext u
  by_cases h : u = v
  · simp [coefficient_add, h]
  · simp [coefficient_add, h]

theorem toFinsupp_erase (v : Var) (r : Row) :
    (r.erase v).toFinsupp = r.toFinsupp - Finsupp.single v (r.coefficient v) := by
  ext u
  by_cases h : u = v
  · simp [coefficient_erase, h]
  · simp [coefficient_erase, h]

theorem find?_map_values {k : Var} (q : ℚ) (l : List (Var × ℚ)) :
    SortedMap.find? k (l.map fun e => (e.1, e.2 * q)) =
      (SortedMap.find? k l).map (· * q) := by
  induction l with
  | nil => rfl
  | cons e rest ih =>
    by_cases h : k = e.1
    · simp [SortedMap.find?, h]
    · simpa [SortedMap.find?, h] using ih

theorem coefficient_scale (q : ℚ) (r : Row) (v : Var) :
    (r.scale q).coefficient v = q * r.coefficient v := by
  by_cases h : q = 0
  · simp [scale, h]
  · have hget : (r.scale q).coefficient? v = (r.coefficient? v).map (· * q) := by
      simp only [scale, h, dif_neg, not_false_iff]
      exact find?_map_values q r.entries
    unfold coefficient
    rw [hget]
    cases r.coefficient? v with
    | none => simp
    | some c => simp [mul_comm]

theorem toFinsupp_scale (q : ℚ) (r : Row) : (r.scale q).toFinsupp = q • r.toFinsupp := by
  ext v
  simp [coefficient_scale]

theorem toFinsupp_foldl_add {ι : Type} (l : List ι) (v : ι → Var) (c : ι → ℚ) (r : Row) :
    (l.foldl (fun row e => row.add (v e) (c e)) r).toFinsupp =
      r.toFinsupp + (l.map fun e => Finsupp.single (v e) (c e)).sum := by
  induction l generalizing r with
  | nil => simp
  | cons e rest ih =>
    rw [List.foldl_cons, ih, toFinsupp_add, List.map_cons, List.sum_cons, add_assoc]

theorem toFinsupp_eq_sum (r : Row) :
    r.toFinsupp = (r.entries.map fun e => Finsupp.single e.1 e.2).sum := by
  have hsum : r.toFinsupp = (r.vars.map fun v => Finsupp.single v (r.coefficient v)).sum := by
    rw [← List.sum_toFinset _ r.nodup_vars]
    exact r.toFinsupp.sum_single.symm
  rw [hsum, vars, SortedMap.keys, List.map_map]
  refine congrArg List.sum (List.map_congr_left fun e he => ?_)
  rw [Function.comp_apply, coefficient_eq_of_some (mem_entries_iff.mp he)]

theorem toFinsupp_addScaled (r : Row) (q : ℚ) (other : Row) :
    (r.addScaled q other).toFinsupp = r.toFinsupp + q • other.toFinsupp := by
  rw [addScaled, toFinsupp_foldl_add, toFinsupp_eq_sum other, List.smul_sum, List.map_map]
  simp [Function.comp_def]

theorem toFinsupp_ofList (l : List (Var × ℚ)) :
    (ofList l).toFinsupp = (l.map fun e => Finsupp.single e.1 e.2).sum := by
  rw [ofList, toFinsupp_foldl_add, toFinsupp_empty, zero_add]

/-- A row is the sum of its own entries. -/
theorem ofList_entries (r : Row) : ofList r.entries = r :=
  toFinsupp_injective (by rw [toFinsupp_ofList, ← toFinsupp_eq_sum])

/-- A row mentions only variables that it was made of. -/
theorem mem_of_contains_ofList {l : List (Var × ℚ)} {v : Var} (h : (ofList l).contains v = true) :
    v ∈ l.map Prod.fst := by
  by_contra hnot
  refine contains_iff.mp h ?_
  rw [← toFinsupp_apply, toFinsupp_ofList]
  clear h
  induction l with
  | nil => rfl
  | cons e rest ih =>
    rw [List.map_cons, List.mem_cons, not_or] at hnot
    rw [List.map_cons, List.sum_cons, Finsupp.add_apply, ih hnot.2,
      Finsupp.single_eq_of_ne hnot.1, add_zero]

theorem toFinsupp_solveFor (basic v : Var) (c : ℚ) (r : Row) :
    (r.solveFor basic v c).toFinsupp =
      -(1 / c) • (r.toFinsupp - Finsupp.single v (r.coefficient v)) +
        Finsupp.single basic (1 / c) := by
  rw [solveFor, toFinsupp_add, toFinsupp_scale, toFinsupp_erase]

/-! ## Values -/

section Value

variable {M N : Type} [AddCommGroup M] [Module ℚ M] [AddCommGroup N] [Module ℚ N]

/-- The value of a row under an assignment. -/
noncomputable def eval (σ : Var → M) (r : Row) : M := Finsupp.linearCombination ℚ σ r.toFinsupp

theorem eval_eq_sum (σ : Var → M) (r : Row) :
    r.eval σ = (r.entries.map fun e => e.2 • σ e.1).sum := by
  rw [eval, toFinsupp_eq_sum, map_list_sum, List.map_map]
  simp [Function.comp_def]

@[simp] theorem eval_empty (σ : Var → M) : (∅ : Row).eval σ = 0 := by
  simp [eval]

@[simp] theorem eval_zero (r : Row) : r.eval (0 : Var → M) = 0 := by
  rw [eval_eq_sum]
  simp

theorem eval_add (σ : Var → M) (v : Var) (c : ℚ) (r : Row) :
    (r.add v c).eval σ = r.eval σ + c • σ v := by
  simp [eval, toFinsupp_add]

theorem eval_erase (σ : Var → M) (v : Var) (r : Row) :
    (r.erase v).eval σ = r.eval σ - r.coefficient v • σ v := by
  simp [eval, toFinsupp_erase]

theorem eval_scale (σ : Var → M) (q : ℚ) (r : Row) : (r.scale q).eval σ = q • r.eval σ := by
  simp [eval, toFinsupp_scale]

theorem eval_addScaled (σ : Var → M) (r : Row) (q : ℚ) (other : Row) :
    (r.addScaled q other).eval σ = r.eval σ + q • other.eval σ := by
  simp [eval, toFinsupp_addScaled]

theorem eval_ofList (σ : Var → M) (l : List (Var × ℚ)) :
    (ofList l).eval σ = (l.map fun e => e.2 • σ e.1).sum := by
  rw [eval, toFinsupp_ofList, map_list_sum, List.map_map]
  simp [Function.comp_def]

/-- A row depends on the variables it mentions alone. -/
theorem eval_congr {σ τ : Var → M} {r : Row} (h : ∀ v, r.contains v = true → σ v = τ v) :
    r.eval σ = r.eval τ := by
  rw [eval_eq_sum, eval_eq_sum]
  refine congrArg List.sum (List.map_congr_left fun e he => ?_)
  rw [h e.1 (contains_of_mem_entries he)]

/-- Moving one variable moves the row by a multiple. -/
theorem eval_update (σ : Var → M) (v : Var) (x : M) (r : Row) :
    r.eval (Function.update σ v x) = r.eval σ + r.coefficient v • (x - σ v) := by
  have hsplit : ∀ τ : Var → M, r.eval τ = (r.erase v).eval τ + r.coefficient v • τ v := by
    intro τ
    rw [eval_erase, sub_add_cancel]
  have hrest : (r.erase v).eval (Function.update σ v x) = (r.erase v).eval σ := by
    refine eval_congr fun u hu => ?_
    rw [contains_iff, coefficient_erase] at hu
    have hne : u ≠ v := by
      rintro rfl
      simp at hu
    rw [Function.update_of_ne hne]
  rw [hsplit, hsplit σ, hrest, Function.update_self, smul_sub]
  abel

/-- A linear map carries values over. -/
theorem map_eval (f : M →ₗ[ℚ] N) (σ : Var → M) (r : Row) : f (r.eval σ) = r.eval (f ∘ σ) := by
  rw [eval_eq_sum, eval_eq_sum, map_list_sum, List.map_map]
  simp [Function.comp_def]

/-- The solved row says of its variable what the row says of the old basic variable. -/
theorem eq_eval_solveFor_iff {σ : Var → M} {r : Row} {basic v : Var} {c : ℚ}
    (hc : r.coefficient? v = some c) :
    σ v = (r.solveFor basic v c).eval σ ↔ σ basic = r.eval σ := by
  have hne : c ≠ 0 := ne_zero_of_coefficient? hc
  have hv : r.coefficient v = c := coefficient_eq_of_some hc
  have heval : (r.solveFor basic v c).eval σ =
      (1 / c) • (σ basic - r.eval σ) + σ v := by
    rw [solveFor, eval_add, eval_scale, eval_erase, hv, smul_sub, smul_sub, smul_smul]
    rw [neg_mul, one_div_mul_cancel hne, neg_smul, neg_smul, one_smul]
    abel
  rw [heval]
  constructor
  · intro h
    have hzero : (1 / c) • (σ basic - r.eval σ) = 0 := by
      simpa using h.symm
    have hscaled : c • (1 / c) • (σ basic - r.eval σ) = 0 := by rw [hzero, smul_zero]
    rw [smul_smul, mul_one_div_cancel hne, one_smul] at hscaled
    exact sub_eq_zero.mp hscaled
  · intro h
    rw [h, sub_self, smul_zero, zero_add]

end Value

theorem valueUnder_eq_ok {value : Var → Checked DeltaRat} {σ : Var → DeltaRat} {r : Row}
    (h : ∀ v, r.contains v = true → value v = .ok (σ v)) : r.valueUnder value = .ok (r.eval σ) := by
  have hfold : ∀ (l : List (Var × ℚ)) (x : DeltaRat), (∀ e ∈ l, value e.1 = .ok (σ e.1)) →
      l.foldlM (fun sum e => do return sum + (← value e.1).scale e.2) x =
        .ok (x + (l.map fun e => e.2 • σ e.1).sum) := by
    intro l
    induction l with
    | nil => intro x _; simp
    | cons e rest ih =>
      intro x hl
      rw [List.foldlM_cons, hl e List.mem_cons_self, List.map_cons, List.sum_cons, ← add_assoc]
      exact ih _ fun d hd => hl d (List.mem_cons_of_mem e hd)
  rw [valueUnder, hfold r.entries 0 fun e he =>
    h e.1 (contains_of_mem_entries he), eval_eq_sum, zero_add]

/-- A row with a value gets it from values of all of its variables. -/
theorem exists_ok_of_valueUnder {value : Var → Checked DeltaRat} {r : Row} {x : DeltaRat}
    (h : r.valueUnder value = .ok x) {u : Var} (hu : r.contains u = true) :
    ∃ y, value u = .ok y := by
  obtain ⟨e, he, rfl⟩ := List.mem_map.mp (mem_vars_iff.mpr hu)
  obtain ⟨c, c', hstep⟩ := Checked.exists_ok_of_foldlM h e he
  obtain ⟨y, hy, -⟩ := bind_eq_ok.mp hstep
  exact ⟨y, hy⟩

/-- The value of a row depends on those of its variables alone. -/
theorem valueUnder_congr {value value' : Var → Checked DeltaRat} {r : Row}
    (h : ∀ u, r.contains u = true → value u = value' u) :
    r.valueUnder value = r.valueUnder value' := by
  unfold valueUnder
  apply foldlM_congr_left
  intro e he sum
  rw [h e.1 (contains_of_mem_entries he)]

end LinearArithmetic.Row
