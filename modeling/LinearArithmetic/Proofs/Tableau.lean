import LinearArithmetic.Proofs.Collections
import LinearArithmetic.Proofs.Row

/-!
# Consistent tableaux and their solutions

A tableau is read through its rows and its index. It is consistent if rows mention only variables
that are not basic and the index lists exactly the rows that mention a variable. Its solutions are
the assignments under which every basic variable has the value of its row.
-/

namespace LinearArithmetic.Tableau

/-! ## Reading a tableau -/

/-- The index has the basic variable in the column of `v`. -/
def Uses (t : Tableau) (v basic : Var) : Prop := (t.columnSet v).contains basic = true

/-- The tableau says something of the variable: it owns a row or stands in one. -/
def Mentions (t : Tableau) (v : Var) : Prop :=
  (∃ r, t.row? v = some r) ∨ ∃ b r, t.row? b = some r ∧ r.contains v = true

theorem row?_of_not_mentions {t : Tableau} {v : Var} (h : ¬ t.Mentions v) : t.row? v = none := by
  by_contra hne
  exact h (.inl (Option.ne_none_iff_exists'.mp hne))

theorem row?_eq (t : Tableau) (v : Var) : t.row? v = (t.byVar.get? v.id).bind (·.row) := rfl

theorem isBasic_iff {t : Tableau} {v : Var} : t.isBasic v = true ↔ ∃ r, t.row? v = some r :=
  Option.isSome_iff_exists

theorem isBasic_eq_false_iff {t : Tableau} {v : Var} : t.isBasic v = false ↔ t.row? v = none := by
  simp [isBasic]

theorem row_eq_ok {t : Tableau} {v : Var} {r : Row} (h : t.row? v = some r) : t.row v = .ok r := by
  obtain ⟨e, he, hr⟩ := Option.bind_eq_some_iff.mp h
  rw [row, Arena.get_eq_ok he, ok_bind, hr]

theorem lt_of_row? {t : Tableau} {v : Var} {r : Row} (h : t.row? v = some r) :
    v.id < t.numVariables := by
  obtain ⟨e, he, _⟩ := Option.bind_eq_some_iff.mp h
  exact Arena.lt_size_of_get? he

theorem mem_column_iff {t : Tableau} {v b : Var} : b ∈ t.column v ↔ t.Uses v b :=
  SortedMap.mem_keys_iff

theorem mem_basicVars_iff {t : Tableau} {v : Var} : v ∈ t.basicVars ↔ ∃ r, t.row? v = some r := by
  rw [basicVars, List.mem_filter, isBasic_iff, and_iff_right_iff_imp]
  rintro ⟨r, hr⟩
  exact List.mem_map.mpr ⟨v.id, List.mem_range.mpr (lt_of_row? hr), rfl⟩

/-! ### Room for variables -/

@[simp] theorem numVariables_ensure (v : Var) (t : Tableau) :
    (t.ensure v).numVariables = max t.numVariables (v.id + 1) := Arena.size_ensure _ _ _

theorem ensure_of_lt {t : Tableau} {v : Var} (h : v.id < t.numVariables) : t.ensure v = t := by
  rw [ensure, Arena.ensure_of_lt _ h]

@[simp] theorem row?_ensure (t : Tableau) (u v : Var) : (t.ensure v).row? u = t.row? u := by
  rw [row?_eq, row?_eq, ensure, Arena.get?_ensure]
  split
  · rename_i h
    rw [Arena.get?_eq_none_iff.mpr h.1]
    rfl
  · rfl

@[simp] theorem columnSet_ensure (t : Tableau) (u v : Var) :
    (t.ensure v).columnSet u = t.columnSet u := by
  rw [columnSet, columnSet, ensure, Arena.get?_ensure]
  split
  · rename_i h
    rw [Arena.get?_eq_none_iff.mpr h.1]
    rfl
  · rfl

/-! ### Entries of the index -/

@[simp] theorem numVariables_recordUse (t : Tableau) (v b : Var) (used : Bool) :
    (t.recordUse v b used).numVariables = t.numVariables := Arena.size_modify _ _ _

@[simp] theorem row?_recordUse (t : Tableau) (u v b : Var) (used : Bool) :
    (t.recordUse v b used).row? u = t.row? u := by
  rw [row?_eq, row?_eq, recordUse, Arena.get?_modify]
  split <;> cases t.byVar.get? u.id <;> rfl

theorem uses_recordUse {t : Tableau} {u v b w : Var} {used : Bool} :
    (t.recordUse v b used).Uses u w ↔
      if u = v ∧ u.id < t.numVariables ∧ w = b then used = true else t.Uses u w := by
  unfold Uses columnSet recordUse
  rw [Arena.get?_modify]
  by_cases hu : u = v
  · subst hu
    by_cases hlt : u.id < t.numVariables
    · obtain ⟨e, he⟩ := Arena.get?_isSome hlt
      simp only [if_pos, he, Option.map_some, Option.getD_some, SortedSet.contains_setMember]
      by_cases hw : w = b <;> simp [hw, hlt]
    · rw [Arena.get?_eq_none_iff.mpr (Nat.le_of_not_lt hlt)]
      simp [hlt]
  · have hid : u.id ≠ v.id := fun h => hu (Var.eq_of_id_eq h)
    simp [hu, hid]

/-- A run of index changes for one basic variable. -/
def recordUses (t : Tableau) (b : Var) (used : Var → Bool) (vs : List Var) : Tableau :=
  vs.foldl (fun t v => t.recordUse v b (used v)) t

@[simp] theorem numVariables_recordUses (t : Tableau) (b : Var) (used : Var → Bool)
    (vs : List Var) : (t.recordUses b used vs).numVariables = t.numVariables := by
  induction vs generalizing t with
  | nil => rfl
  | cons v vs ih => exact (ih _).trans (numVariables_recordUse _ _ _ _)

theorem recordUses_eq (t : Tableau) (b : Var) (used : Var → Bool) (vs : List Var) :
    t.recordUses b used vs = { t with byVar := (t.recordUses b used vs).byVar } := by
  induction vs generalizing t with
  | nil => rfl
  | cons v vs ih => exact ih _

@[simp] theorem ejected_recordUses (t : Tableau) (b : Var) (used : Var → Bool)
    (vs : List Var) : (t.recordUses b used vs).ejected = t.ejected := by
  rw [recordUses_eq]

@[simp] theorem numRows_recordUses (t : Tableau) (b : Var) (used : Var → Bool)
    (vs : List Var) : (t.recordUses b used vs).numRows = t.numRows := by
  rw [recordUses_eq]

@[simp] theorem numEntries_recordUses (t : Tableau) (b : Var) (used : Var → Bool)
    (vs : List Var) : (t.recordUses b used vs).numEntries = t.numEntries := by
  rw [recordUses_eq]

@[simp] theorem row?_recordUses (t : Tableau) (b : Var) (used : Var → Bool) (vs : List Var)
    (u : Var) : (t.recordUses b used vs).row? u = t.row? u := by
  induction vs generalizing t with
  | nil => rfl
  | cons v vs ih => exact (ih _).trans (row?_recordUse _ _ _ _ _)

theorem uses_recordUses {t : Tableau} {b : Var} {used : Var → Bool} {vs : List Var} {u w : Var} :
    (t.recordUses b used vs).Uses u w ↔
      if u ∈ vs ∧ u.id < t.numVariables ∧ w = b then used u = true else t.Uses u w := by
  induction vs generalizing t with
  | nil => simp [recordUses]
  | cons v vs ih =>
    have hcons : t.recordUses b used (v :: vs) = (t.recordUse v b (used v)).recordUses b used vs :=
      rfl
    rw [hcons, ih, numVariables_recordUse, uses_recordUse]
    by_cases huv : u = v
    · subst huv
      by_cases hrest : u.id < t.numVariables ∧ w = b <;> simp [hrest]
    · simp [huv]

theorem lowered_of_le {counter amount : Nat} (h : amount ≤ counter) :
    lowered counter amount = .ok (counter - amount) := if_pos h

/-! ### Rows -/

@[simp] theorem numVariables_setRow (t : Tableau) (v : Var) (r : Option Row) :
    (t.setRow v r).numVariables = t.numVariables := Arena.size_modify _ _ _

theorem row?_setRow (t : Tableau) (u v : Var) (r : Option Row) :
    (t.setRow v r).row? u = if u = v ∧ u.id < t.numVariables then r else t.row? u := by
  rw [row?_eq, row?_eq, setRow, Arena.get?_modify]
  by_cases hu : u = v
  · subst hu
    by_cases hlt : u.id < t.numVariables
    · obtain ⟨e, he⟩ := Arena.get?_isSome hlt
      simp [he, hlt]
    · rw [Arena.get?_eq_none_iff.mpr (Nat.le_of_not_lt hlt)]
      simp [hlt]
  · have hid : u.id ≠ v.id := fun h => hu (Var.eq_of_id_eq h)
    simp [hu, hid]

@[simp] theorem uses_setRow {t : Tableau} {u v w : Var} {r : Option Row} :
    (t.setRow v r).Uses u w ↔ t.Uses u w := by
  unfold Uses columnSet setRow
  rw [Arena.get?_modify]
  split <;> cases t.byVar.get? u.id <;> rfl

/-! ## Shortest rows -/

/-- The first row has fewer entries, or as many and a variable that is not larger. -/
def NotLonger (a b : ℕ × Var) : Prop := a.1 < b.1 ∨ (a.1 = b.1 ∧ a.2 ≤ b.2)

theorem NotLonger.refl (a : ℕ × Var) : NotLonger a a := .inr ⟨rfl, Nat.le_refl _⟩

theorem NotLonger.trans {a b c : ℕ × Var} (hab : NotLonger a b) (hbc : NotLonger b c) :
    NotLonger a c := by
  simp only [NotLonger, Var.le_def] at *
  omega

theorem shorter_notLonger (a b : ℕ × Var) :
    NotLonger (shorter a b) a ∧ NotLonger (shorter a b) b := by
  unfold shorter
  split
  · rename_i h
    refine ⟨?_, .refl b⟩
    simp only [NotLonger, Var.le_def, Var.lt_def] at h ⊢
    omega
  · rename_i h
    refine ⟨.refl a, ?_⟩
    simp only [NotLonger, Var.le_def, Var.lt_def] at h ⊢
    omega

theorem foldl_shorter_mem (c : ℕ × Var) (cs : List (ℕ × Var)) :
    cs.foldl shorter c ∈ c :: cs := by
  induction cs generalizing c with
  | nil => exact List.mem_singleton.mpr rfl
  | cons d ds ih =>
    rw [List.foldl_cons]
    rcases List.mem_cons.mp (ih (shorter c d)) with h | h
    · rw [h, shorter]
      split
      · exact List.mem_cons_of_mem _ List.mem_cons_self
      · exact List.mem_cons_self
    · exact List.mem_cons_of_mem _ (List.mem_cons_of_mem _ h)

theorem foldl_shorter_notLonger {c d : ℕ × Var} {cs : List (ℕ × Var)} (hd : d ∈ c :: cs) :
    NotLonger (cs.foldl shorter c) d := by
  have hstart : ∀ (l : List (ℕ × Var)) (a : ℕ × Var), NotLonger (l.foldl shorter a) a := by
    intro l
    induction l with
    | nil => exact NotLonger.refl
    | cons b rest ih =>
      intro a
      exact (ih (shorter a b)).trans (shorter_notLonger a b).1
  induction cs generalizing c with
  | nil =>
    rw [List.mem_singleton.mp hd]
    exact NotLonger.refl c
  | cons b rest ih =>
    rcases List.mem_cons.mp hd with rfl | hd
    · exact hstart (b :: rest) d
    · rcases List.mem_cons.mp hd with rfl | hd
      · exact (hstart rest (shorter c d)).trans (shorter_notLonger c d).2
      · exact ih (List.mem_cons_of_mem _ hd)

/-- Of some basic variables, one with a shortest row is found; of several, the smallest. -/
theorem shortest_spec (t : Tableau) (vs : List Var) (h : ∀ v ∈ vs, ∃ r, t.row? v = some r) :
    (vs = [] ∧ t.shortest vs = .ok none) ∨ ∃ v ∈ vs, t.shortest vs = .ok (some v) ∧
      ∀ u ∈ vs, ∀ r s, t.row? v = some r → t.row? u = some s →
        NotLonger (r.size, v) (s.size, u) := by
  have hmap : vs.mapM (fun v => do return ((← t.row v).size, v)) =
      .ok (vs.map fun v => (((t.row? v).getD ∅).size, v)) :=
    Checked.mapM_eq_ok fun v hv => by
      obtain ⟨r, hr⟩ := h v hv
      rw [row_eq_ok hr, hr]
      rfl
  rw [shortest, hmap, ok_bind]
  cases vs with
  | nil => exact .inl ⟨rfl, rfl⟩
  | cons v vs =>
    refine .inr ⟨_, ?_, rfl, ?_⟩
    · have hmem := foldl_shorter_mem (((t.row? v).getD ∅).size, v)
        (vs.map fun v => (((t.row? v).getD ∅).size, v))
      rw [← List.map_cons (f := fun v => (((t.row? v).getD ∅).size, v))] at hmem
      obtain ⟨u, hu, heq⟩ := List.mem_map.mp hmem
      rw [← heq]
      exact hu
    · intro u hu r s hr hs
      have hmem := foldl_shorter_mem (((t.row? v).getD ∅).size, v)
        (vs.map fun v => (((t.row? v).getD ∅).size, v))
      rw [← List.map_cons (f := fun v => (((t.row? v).getD ∅).size, v))] at hmem
      obtain ⟨w, _, heq⟩ := List.mem_map.mp hmem
      have hmemu : (((t.row? u).getD ∅).size, u) ∈ (((t.row? v).getD ∅).size, v) ::
          vs.map fun v => (((t.row? v).getD ∅).size, v) := by
        rw [← List.map_cons (f := fun v => (((t.row? v).getD ∅).size, v))]
        exact List.mem_map.mpr ⟨u, hu, rfl⟩
      have hleast := foldl_shorter_notLonger hmemu
      rw [← heq] at hleast hr ⊢
      simp only [hr, hs, Option.getD_some] at hleast ⊢
      exact hleast

/-! ## Consistency and solutions -/

/-- The weights of all rows together. -/
def total (t : Tableau) (w : Row → ℕ) : ℕ :=
  ∑ i ∈ Finset.range t.numVariables, (t.row? ⟨i⟩).elim 0 w

theorem le_total {t : Tableau} {b : Var} {r : Row} (hr : t.row? b = some r) (w : Row → ℕ) :
    w r ≤ t.total w := by
  have hle : (t.row? b).elim 0 w ≤ t.total w :=
    Finset.single_le_sum (f := fun i => (t.row? ⟨i⟩).elim 0 w) (fun _ _ => Nat.zero_le _)
      (Finset.mem_range.mpr (lt_of_row? hr))
  rwa [hr] at hle

/-- Changing the row of one variable changes the weight of the rows by that of its own. -/
theorem total_change {t t' : Tableau} (hroom : t'.numVariables = t.numVariables) {b : Var}
    (hb : b.id < t.numVariables) (hrow : ∀ u, u ≠ b → t'.row? u = t.row? u) (w : Row → ℕ) :
    t'.total w + (t.row? b).elim 0 w = t.total w + (t'.row? b).elim 0 w := by
  obtain ⟨k⟩ := b
  have hmem : k ∈ Finset.range t.numVariables := Finset.mem_range.mpr hb
  have hrest : ∀ i ∈ (Finset.range t.numVariables).erase k,
      (t'.row? ⟨i⟩).elim 0 w = (t.row? ⟨i⟩).elim 0 w := fun i hi => by
    rw [hrow ⟨i⟩ fun h => Finset.ne_of_mem_erase hi (congrArg Var.id h)]
  rw [total, total, hroom, ← Finset.add_sum_erase _ _ hmem, ← Finset.add_sum_erase _ _ hmem,
    Finset.sum_congr rfl hrest]
  omega

theorem total_ensure (t : Tableau) (v : Var) (w : Row → ℕ) : (t.ensure v).total w = t.total w := by
  have hsub : Finset.range t.numVariables ⊆ Finset.range (t.ensure v).numVariables :=
    Finset.range_subset_range.mpr (by simp)
  rw [total, total, ← Finset.sum_subset hsub fun i _ hi => ?_]
  · simp only [row?_ensure]
  · rw [row?_ensure]
    cases hr : t.row? ⟨i⟩ with
    | none => rfl
    | some r => exact absurd (Finset.mem_range.mpr (lt_of_row? hr)) hi

theorem sum_rows (t : Tableau) (w : Row → ℕ) : (t.rows.map w).sum = t.total w := by
  have hlist : ∀ l : List Var, (((l.filter t.isBasic).filterMap t.row?).map w).sum =
      (l.map fun v => (t.row? v).elim 0 w).sum := by
    intro l
    induction l with
    | nil => rfl
    | cons v l ih =>
      cases hr : t.row? v <;> simp [isBasic, hr, ih]
  rw [rows, basicVars, hlist, List.map_map]
  rfl

/-- Rows mention only variables that are not basic, the index lists exactly the rows that mention
a variable, and the rows and their entries are counted. -/
structure Consistent (t : Tableau) : Prop where
  nonbasic : ∀ {b v r}, t.row? b = some r → r.contains v = true → t.row? v = none
  inRange : ∀ {b v r}, t.row? b = some r → r.contains v = true → v.id < t.numVariables
  uses_iff : ∀ {v b}, t.Uses v b ↔ ∃ r, t.row? b = some r ∧ r.contains v = true
  numRows : t.numRows = t.total fun _ => 1
  numEntries : t.numEntries = t.total Row.size

/-- There is room for every variable that a consistent tableau mentions. -/
theorem Consistent.lt_of_mentions {t : Tableau} (h : t.Consistent) {v : Var} (hv : t.Mentions v) :
    v.id < t.numVariables := by
  rcases hv with ⟨r, hr⟩ | ⟨b, r, hr, hv⟩
  · exact lt_of_row? hr
  · exact h.inRange hr hv

/-- A consistent tableau passes its check. -/
theorem Consistent.isConsistent {t : Tableau} (h : t.Consistent) : t.isConsistent = true := by
  have hrows : ∀ b ∈ t.basicVars, (t.row? b).all (fun r => r.vars.all fun v =>
      !t.isBasic v && (t.columnSet v).contains b) = true := by
    intro b _
    refine (Option.all_eq_true _ _).mpr fun r hr => List.all_eq_true.mpr fun v hv => ?_
    have hv : r.contains v = true := Row.mem_vars_iff.mp hv
    rw [isBasic_eq_false_iff.mpr (h.nonbasic hr hv), show (t.columnSet v).contains b = true from
      h.uses_iff.mpr ⟨r, hr, hv⟩]
    rfl
  have hcolumns : ∀ v ∈ t.byVar.keys.map Var.mk, (t.column v).all (fun b =>
      (t.row? b).any fun r => r.contains v) = true := by
    intro v _
    refine List.all_eq_true.mpr fun b hb => (Option.any_eq_true _ _).mpr ?_
    obtain ⟨r, hr, hv⟩ := h.uses_iff.mp (mem_column_iff.mp hb)
    exact ⟨r, hr, hv⟩
  have hnumRows : t.numRows = t.rows.length := by
    rw [h.numRows, ← sum_rows]
    simp
  rw [Tableau.isConsistent, List.all_eq_true.mpr hrows, List.all_eq_true.mpr hcolumns, ← hnumRows,
    ← List.sum_eq_foldl, sum_rows, ← h.numEntries]
  simp

theorem lt_of_uses {t : Tableau} {v b : Var} (h : t.Uses v b) : v.id < t.numVariables := by
  by_contra hge
  unfold Uses columnSet at h
  rw [Arena.get?_eq_none_iff.mpr (Nat.le_of_not_lt hge)] at h
  cases h

/-- Only a consistent tableau passes its check. -/
theorem consistent_of_isConsistent {t : Tableau} (h : t.isConsistent = true) : t.Consistent := by
  rw [Tableau.isConsistent, Bool.and_eq_true, Bool.and_eq_true, decide_eq_true_iff] at h
  obtain ⟨⟨hrows, hcolumns⟩, hnumRows, hnumEntries⟩ := h
  rw [List.all_eq_true] at hrows hcolumns
  have hentry : ∀ {b v r}, t.row? b = some r → r.contains v = true →
      t.row? v = none ∧ t.Uses v b := by
    intro b v r hr hv
    have hall := hrows b (mem_basicVars_iff.mpr ⟨r, hr⟩)
    rw [hr, Option.all_some, List.all_eq_true] at hall
    have hv := hall v (Row.mem_vars_iff.mpr hv)
    rw [Bool.and_eq_true, Bool.not_eq_true', isBasic_eq_false_iff] at hv
    exact hv
  refine ⟨fun hr hv => (hentry hr hv).1, fun hr hv => lt_of_uses (hentry hr hv).2, ?_, ?_, ?_⟩
  · intro v b
    constructor
    · intro huse
      have hall := hcolumns v (List.mem_map.mpr ⟨v.id, List.mem_range.mpr (lt_of_uses huse), rfl⟩)
      rw [List.all_eq_true] at hall
      obtain ⟨r, hr, hv⟩ := (Option.any_eq_true _ _).mp (hall b (mem_column_iff.mpr huse))
      exact ⟨r, hr, hv⟩
    · rintro ⟨r, hr, hv⟩
      exact (hentry hr hv).2
  · rw [hnumRows, ← sum_rows]
    simp
  · rw [hnumEntries, ← List.sum_eq_foldl, sum_rows]

/-- The check decides whether a tableau is consistent. -/
theorem isConsistent_iff {t : Tableau} : t.isConsistent = true ↔ t.Consistent :=
  ⟨consistent_of_isConsistent, Consistent.isConsistent⟩

instance (t : Tableau) : Decidable t.Consistent := decidable_of_iff _ isConsistent_iff

theorem Consistent.verified {t : Tableau} (h : t.Consistent) : t.verified = .ok t := by
  rw [Tableau.verified, h.isConsistent]
  simp

section Solves

variable {M : Type} [AddCommGroup M] [Module ℚ M]

/-- Every basic variable has the value of its row. -/
def Solves (t : Tableau) (σ : Var → M) : Prop := ∀ b r, t.row? b = some r → σ b = r.eval σ

theorem Solves.congr {t : Tableau} {σ τ : Var → M} (h : t.Solves σ)
    (heq : ∀ v, t.Mentions v → σ v = τ v) : t.Solves τ := by
  intro b r hr
  rw [← heq b (.inl ⟨r, hr⟩), h b r hr]
  exact Row.eval_congr fun v hv => heq v (.inr ⟨b, r, hr, hv⟩)

/-- A linear map carries solutions over. -/
theorem Solves.map {N : Type} [AddCommGroup N] [Module ℚ N] {t : Tableau} {σ : Var → M}
    (h : t.Solves σ) (f : M →ₗ[ℚ] N) : t.Solves (f ∘ σ) := by
  intro b r hr
  rw [← Row.map_eval, ← h b r hr]
  rfl

/-- Values of the variables that are not basic extend to a solution. -/
theorem Consistent.exists_solution {t : Tableau} (h : t.Consistent) (τ : Var → M) :
    ∃ σ, t.Solves σ ∧ ∀ v, t.row? v = none → σ v = τ v := by
  refine ⟨fun v => (t.row? v).elim (τ v) (·.eval τ), ?_, ?_⟩
  · intro b r hr
    simp only [hr, Option.elim_some]
    refine Row.eval_congr fun v hv => ?_
    simp only [h.nonbasic hr hv, Option.elim_none]
  · intro v hv
    simp only [hv, Option.elim_none]

end Solves

/-- The rows set aside do not matter. -/
theorem Consistent.withEjected {t : Tableau} (h : t.Consistent) (rows : SortedMap Var Row) :
    ({ t with ejected := rows } : Tableau).Consistent :=
  ⟨h.nonbasic, h.inRange, h.uses_iff, h.numRows, h.numEntries⟩

theorem consistent_ensure {t : Tableau} (h : t.Consistent) (v : Var) : (t.ensure v).Consistent where
  nonbasic hr hu := by
    rw [row?_ensure] at hr ⊢
    exact h.nonbasic hr hu
  inRange hr hu := by
    rw [row?_ensure] at hr
    exact lt_of_lt_of_le (h.inRange hr hu) (by simp)
  uses_iff := by
    intro u b
    unfold Uses
    rw [columnSet_ensure]
    simp only [row?_ensure]
    exact h.uses_iff
  numRows := h.numRows.trans (t.total_ensure v _).symm
  numEntries := h.numEntries.trans (t.total_ensure v _).symm

end LinearArithmetic.Tableau
