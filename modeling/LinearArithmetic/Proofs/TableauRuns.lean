import LinearArithmetic.Proofs.Pivot
import LinearArithmetic.Tableau.Run

/-!
# The representation of the tableau over its runs

Rows, index and counters are changed entry by entry. They agree after every sequence of operations
that are met with their preconditions, and such a sequence has a result: no counter falls below
zero, and no operation finds a variable without the row it should have.
-/

namespace LinearArithmetic.Tableau

variable {t t' : Tableau}

/-! ## Preconditions -/

theorem canDefine_iff {b : Var} {definition : List (Var × ℚ)} :
    t.canDefine b definition = true ↔ t.row? b = none ∧ t.isEjected b = false ∧
      t.columnSize b = 0 ∧ (t.expand definition).contains b = false := by
  simp [canDefine, isBasic_eq_false_iff, and_assoc]

/-- A definition that was put in could be put in. -/
theorem canDefine_of_addRow {b : Var} {definition : List (Var × ℚ)}
    (hok : t.addRow b definition = .ok t') : t.canDefine b definition = true := by
  have hroom : definition.foldl (fun t e => t.ensure e.1) (t.ensure b) = t.roomFor b definition :=
    rfl
  have hbasic : (t.ensure b).isBasic b = t.isBasic b := by
    rw [isBasic, isBasic, row?_ensure]
  have hcolumn : (t.ensure b).columnSize b = t.columnSize b := by
    rw [columnSize, columnSize, columnSet_ensure]
  have hejected : (t.ensure b).isEjected b = t.isEjected b := rfl
  simp only [addRow, hbasic, hcolumn, hejected, hroom, expand_roomFor] at hok
  unfold canDefine
  split at hok
  · cases hok
  · split at hok
    · cases hok
    · split at hok
      · cases hok
      · split at hok
        · cases hok
        · simp_all

theorem row?_of_row {v : Var} {r : Row} (hok : t.row v = .ok r) : t.row? v = some r := by
  cases hr : t.row? v with
  | none =>
    obtain ⟨e, he, hok⟩ := bind_eq_ok.mp hok
    have hrow : e.row = none := by
      rw [row?_eq] at hr
      cases hget : t.byVar.get? v.id with
      | none =>
        rw [Arena.get, hget] at he
        cases he
      | some e' =>
        rw [Arena.get_eq_ok hget] at he
        cases he
        rw [hget] at hr
        exact hr
    rw [hrow] at hok
    cases hok
  | some q =>
    rw [row_eq_ok hr] at hok
    rw [Except.ok.inj hok]

theorem row?_of_uninstall {b : Var} {r : Row} (hok : t.uninstall b = .ok (t', r)) :
    t.row? b = some r := by
  obtain ⟨q, hq, hok⟩ := bind_eq_ok.mp hok
  obtain ⟨n, _, hok⟩ := bind_eq_ok.mp hok
  obtain ⟨m, _, hok⟩ := bind_eq_ok.mp hok
  cases hok
  exact row?_of_row hq

/-- What was done could be done. -/
theorem allows_of_step {op : Operation} (hok : t.step op = .ok t') : t.allows op = true := by
  cases op with
  | ensure v => rfl
  | addRow b cs vs =>
    simp only [step, addRowOf] at hok
    split at hok
    · rename_i hlength
      simp [allows, hlength, canDefine_of_addRow hok]
    · cases hok
  | pivot b e =>
    simp only [step, pivot] at hok
    split at hok
    · cases hok
    · rename_i hroles
      obtain ⟨⟨t₁, r⟩, hun, hok⟩ := bind_eq_ok.mp hok
      have hr := row?_of_uninstall hun
      cases hc : r.coefficient? e with
      | none =>
        simp only [hc] at hok
        cases hok
      | some c =>
        have he : t.isBasic e = false := by simp_all
        simp [allows, hr, he, Row.contains, hc]
  | eject b =>
    obtain ⟨⟨t₁, r⟩, hun, _⟩ := bind_eq_ok.mp hok
    exact isBasic_iff.mpr ⟨r, row?_of_uninstall hun⟩
  | reinject b =>
    simp only [step, reinject] at hok
    split at hok
    · rename_i r hr
      simp [allows, hr, canDefine_of_addRow hok]
    · cases hok
  | removeRow b =>
    obtain ⟨⟨t₁, r⟩, hun, _⟩ := bind_eq_ok.mp hok
    exact isBasic_iff.mpr ⟨r, row?_of_uninstall hun⟩
  | clear => rfl

/-! ## One operation -/

theorem Consistent.step (h : t.Consistent) {op : Operation} (hallows : t.allows op = true) :
    ∃ t', t.step op = .ok t' ∧ t'.Consistent := by
  cases op with
  | ensure v => exact ⟨_, rfl, consistent_ensure h v⟩
  | addRow b cs vs =>
    rw [allows, Bool.and_eq_true, beq_iff_eq, canDefine_iff] at hallows
    obtain ⟨hlength, hnone, hej, hsize, hself⟩ := hallows
    obtain ⟨t', hok, hcons, -⟩ := h.defines hnone hej hsize hself
    refine ⟨t', ?_, hcons⟩
    rw [Tableau.step, addRowOf, if_pos hlength]
    exact hok
  | pivot b e =>
    rw [allows, Bool.and_eq_true, Option.any_eq_true] at hallows
    obtain ⟨-, r, hr, hre⟩ := hallows
    obtain ⟨c, hc⟩ := Option.isSome_iff_exists.mp hre
    obtain ⟨t', hok, hpivoted⟩ := h.pivot hr hc
    exact ⟨t', hok, hpivoted.consistent⟩
  | eject b =>
    obtain ⟨r, hr⟩ := isBasic_iff.mp hallows
    obtain ⟨t', hok, hcons, -⟩ := h.uninstall hr
    refine ⟨_, ?_, hcons.withEjected (t'.ejected.insert b r)⟩
    rw [Tableau.step, eject, hok]
    rfl
  | reinject b =>
    rw [allows, Option.any_eq_true] at hallows
    obtain ⟨r, hr, hdefine⟩ := hallows
    rw [canDefine_iff] at hdefine
    obtain ⟨hnone, hej, hsize, hself⟩ := hdefine
    obtain ⟨t', hok, hcons, -⟩ :=
      (h.withEjected (t.ejected.erase b)).defines hnone hej hsize hself
    refine ⟨t', ?_, hcons⟩
    rw [Tableau.step, reinject, hr]
    exact hok
  | removeRow b =>
    obtain ⟨r, hr⟩ := isBasic_iff.mp hallows
    obtain ⟨t', hok, hcons, -⟩ := h.uninstall hr
    refine ⟨t', ?_, hcons⟩
    rw [Tableau.step, removeRow, hok]
    rfl
  | clear => exact ⟨_, rfl, consistent_clear t⟩

/-! ## Operations that were carried out -/

theorem Consistent.pivoted (h : t.Consistent) {b e : Var} (hok : t.pivot b e = .ok t') :
    Pivoted b e t t' := by
  have hallows : t.allows (.pivot b e) = true := allows_of_step hok
  rw [allows, Bool.and_eq_true, Option.any_eq_true] at hallows
  obtain ⟨-, r, hr, hre⟩ := hallows
  obtain ⟨c, hc⟩ := Option.isSome_iff_exists.mp hre
  obtain ⟨t₁, hok₁, hpivoted⟩ := h.pivot hr hc
  obtain rfl : t₁ = t' := Except.ok.inj (hok₁.symm.trans hok)
  exact hpivoted

theorem Consistent.uninstalled (h : t.Consistent) {b : Var} {r : Row}
    (hok : t.uninstall b = .ok (t', r)) : t'.Consistent ∧ Rewritten b none t t' := by
  obtain ⟨t₁, hok₁, hcons, hrewritten, -⟩ := h.uninstall (row?_of_uninstall hok)
  obtain rfl : t₁ = t' := congrArg Prod.fst (Except.ok.inj (hok₁.symm.trans hok))
  exact ⟨hcons, hrewritten⟩

theorem Consistent.defined (h : t.Consistent) {b : Var} {definition : List (Var × ℚ)}
    (hok : t.addRow b definition = .ok t') : t'.Consistent ∧
      Rewritten b (some (t.expand definition)) (t.roomFor b definition) t' ∧
      ∀ (M : Type) [AddCommGroup M] [Module ℚ M] (σ : Var → M), t'.Solves σ ↔
        t.Solves σ ∧ σ b = (definition.map fun e => e.2 • σ e.1).sum := by
  obtain ⟨hnone, hej, hsize, hself⟩ := canDefine_iff.mp (canDefine_of_addRow hok)
  obtain ⟨t₁, hok₁, hdefined⟩ := h.defines hnone hej hsize hself
  obtain rfl : t₁ = t' := Except.ok.inj (hok₁.symm.trans hok)
  exact hdefined

/-! ## Sequences of operations -/

theorem Consistent.run {ops : List Operation} (h : t.Consistent)
    (hallows : t.allowsAll ops = true) : ∃ t', t.run ops = .ok t' ∧ t'.Consistent := by
  induction ops generalizing t with
  | nil => exact ⟨t, rfl, h⟩
  | cons op ops ih =>
    rw [allowsAll, Bool.and_eq_true] at hallows
    obtain ⟨t₁, hstep, h₁⟩ := h.step hallows.1
    rw [hstep] at hallows
    obtain ⟨t', hrun, h'⟩ := ih h₁ hallows.2
    refine ⟨t', ?_, h'⟩
    rw [Tableau.run, List.foldlM_cons, hstep]
    exact hrun

theorem allowsAll_of_run {ops : List Operation} (hok : t.run ops = .ok t') :
    t.allowsAll ops = true := by
  induction ops generalizing t with
  | nil => rfl
  | cons op ops ih =>
    obtain ⟨t₁, hstep, hrun⟩ := bind_eq_ok.mp hok
    rw [allowsAll, allows_of_step hstep, hstep]
    exact ih hrun

/-- Putting all rows that were set aside back is the sequence of putting back each of them. -/
theorem reinjectAll_eq_run (t : Tableau) :
    t.reinjectAll = t.run (t.ejected.keys.map Operation.reinject) := by
  rw [reinjectAll, run, List.foldlM_map]
  rfl

/-! ## The representation invariant -/

/-- The representation invariant of a tableau. The shortest row that mentions a variable is found
whenever some row mentions it. -/
structure Represented (t : Tableau) : Prop where
  nonbasic : ∀ b r v c, t.row? b = some r → r.coefficient? v = some c →
    t.isBasic v = false ∧ c ≠ 0
  mem_column_iff : ∀ v b, b ∈ t.column v ↔ ∃ r, t.row? b = some r ∧ r.contains v = true
  numRows : t.numRows = t.rows.length
  numEntries : t.numEntries = (t.rows.map Row.size).sum
  checked : t.isConsistent = true
  shortest : ∀ v, (t.column v = [] ∧ t.shortestRowContaining v = .ok none) ∨
    ∃ b ∈ t.column v, t.shortestRowContaining v = .ok (some b) ∧
      ∀ w ∈ t.column v, ∀ r s, t.row? b = some r → t.row? w = some s →
        NotLonger (r.size, b) (s.size, w)

theorem Consistent.represented (h : t.Consistent) : t.Represented where
  nonbasic b r v c hr hc := by
    have hv : r.contains v = true := by
      rw [Row.contains, hc]
      rfl
    exact ⟨isBasic_eq_false_iff.mpr (h.nonbasic hr hv), Row.ne_zero_of_coefficient? hc⟩
  mem_column_iff v b := Tableau.mem_column_iff.trans h.uses_iff
  numRows := by
    rw [h.numRows, ← sum_rows]
    simp
  numEntries := by
    rw [h.numEntries, sum_rows]
  checked := h.isConsistent
  shortest v := by
    apply t.shortest_spec
    intro b hb
    obtain ⟨r, hr, -⟩ := h.uses_iff.mp (Tableau.mem_column_iff.mp hb)
    exact ⟨r, hr⟩

/-- Of the tableau without variables. -/
theorem consistent_start (debugChecks : Bool) :
    ({ debugChecks := debugChecks } : Tableau).Consistent where
  nonbasic hr := by cases hr
  inRange hr := by cases hr
  uses_iff {v b} := by
    constructor
    · intro h
      cases h
    · rintro ⟨r, hr, -⟩
      cases hr
  numRows := rfl
  numEntries := rfl

/-- A sequence of operations has a result exactly if every operation is met with its preconditions,
and then the representation invariant holds. -/
theorem represented_of_run (debugChecks : Bool) (ops : List Operation) :
    ({ debugChecks := debugChecks } : Tableau).allowsAll ops = true ↔
      ∃ t, ({ debugChecks := debugChecks } : Tableau).run ops = .ok t ∧ t.Represented := by
  constructor
  · intro hallows
    obtain ⟨t, hrun, ht⟩ := (consistent_start debugChecks).run hallows
    exact ⟨t, hrun, ht.represented⟩
  · rintro ⟨t, hrun, -⟩
    exact allowsAll_of_run hrun

/-- The definition of `v3` repeats `v0`, has a zero coefficient and uses the basic `v2`. The first
pivot cancels the entry of `v0` in its row, and changes that in the row of `v4`. -/
example :
    let (v0, v1, v2, v3, v4) := ((⟨0⟩, ⟨1⟩, ⟨2⟩, ⟨3⟩, ⟨4⟩) : Var × Var × Var × Var × Var)
    (({ debugChecks := true } : Tableau).run
      [.addRow v2 [1, 2] [v0, v1], .addRow v3 [1, -1, 0, 1] [v0, v0, v1, v2],
        .addRow v4 [1, 1] [v0, v1], .pivot v2 v1, .eject v4, .pivot v3 v2, .reinject v4]).map
      (fun t => (t.basicVars, t.column v0, t.numRows, t.numEntries)) =
    .ok ([v1, v2, v4], [v1, v4], 3, 5) := by
  decide +kernel

end LinearArithmetic.Tableau
