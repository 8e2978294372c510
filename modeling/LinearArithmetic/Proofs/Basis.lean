import LinearArithmetic.Proofs.TableauRuns

/-!
# The basis determines the tableau

A pivot exchanges two variables between the basis and the others, and keeps the solutions. The
solutions of a consistent tableau take any values outside of the basis, and its rows are about
variables outside of the basis. So solutions and basis together leave one choice for every
coefficient, and all paths of pivots to one basis end in the same tableau.
-/

namespace LinearArithmetic

namespace Row

/-- The value of a row where one variable is one and all others are zero. -/
theorem eval_pi_single (r : Row) (v : Var) : r.eval (Pi.single v (1 : ℚ)) = r.coefficient v := by
  have h := eval_update (0 : Var → ℚ) v 1 r
  rw [eval_zero] at h
  refine h.trans ?_
  simp

/-- Rows are told apart by their values. -/
theorem eq_of_eval {r s : Row} (h : ∀ τ : Var → ℚ, r.eval τ = s.eval τ) : r = s := by
  refine ext_coefficient fun v => ?_
  rw [← eval_pi_single, ← eval_pi_single, h]

end Row

namespace Tableau

variable {t t' : Tableau}

/-! ## Rows and basis -/

/-- Solutions of one tableau that solve another one over the same basis leave no choice for the
rows of the other. -/
theorem Consistent.row?_eq_of_basis (h : t.Consistent) (h' : t'.Consistent)
    (hbasis : ∀ v, t'.row? v = none ↔ t.row? v = none)
    (hsolves : ∀ σ : Var → ℚ, t.Solves σ → t'.Solves σ) (v : Var) : t'.row? v = t.row? v := by
  cases hr : t.row? v with
  | none => exact (hbasis v).mpr hr
  | some r =>
    obtain ⟨s, hs⟩ := Option.ne_none_iff_exists'.mp fun hnone => by
      rw [(hbasis v).mp hnone] at hr
      cases hr
    have hsame : r = s := by
      refine Row.eq_of_eval fun τ => ?_
      -- the values of `τ` outside of the basis belong to a solution
      obtain ⟨σ, hσ, hagree⟩ := h.exists_solution τ
      calc r.eval τ = r.eval σ := Row.eval_congr fun u hu => (hagree u (h.nonbasic hr hu)).symm
        _ = σ v := (hσ v r hr).symm
        _ = s.eval σ := hsolves σ hσ v s hs
        _ = s.eval τ :=
          Row.eval_congr fun u hu => hagree u ((hbasis u).mp (h'.nonbasic hs hu))
    rw [hs, hsame]

/-! ## Tableaux and rows -/

/-- The columns of a consistent tableau follow from its rows. -/
theorem Consistent.columnSet_eq (h : t.Consistent) (h' : t'.Consistent)
    (hrow : ∀ v, t'.row? v = t.row? v) (v : Var) : t'.columnSet v = t.columnSet v := by
  refine SortedMap.ext_get? fun b => ?_
  have huses : t'.Uses v b ↔ t.Uses v b := by rw [h'.uses_iff, h.uses_iff, hrow]
  have hunit : ∀ o p : Option Unit, (o.isSome = true ↔ p.isSome = true) → o = p := by decide
  exact hunit _ _ huses

/-- Two consistent tableaux with the same rows and room are one, but for rows set aside and the
flag for checks. -/
theorem Consistent.eq_of_rows (h : t.Consistent) (h' : t'.Consistent)
    (hroom : t'.numVariables = t.numVariables) (hejected : t'.ejected = t.ejected)
    (hchecks : t'.debugChecks = t.debugChecks) (hrow : ∀ v, t'.row? v = t.row? v) : t' = t := by
  have hbyVar : t'.byVar = t.byVar := by
    refine Arena.ext_get? fun k => ?_
    have hcolumn := h.columnSet_eq h' hrow ⟨k⟩
    have hrow := hrow ⟨k⟩
    simp only [row?_eq, columnSet] at hrow hcolumn
    by_cases hk : k < t.byVar.size
    · obtain ⟨⟨r, c⟩, he⟩ := Arena.get?_isSome hk
      obtain ⟨⟨r', c'⟩, he'⟩ := Arena.get?_isSome (hk.trans_eq hroom.symm)
      simp only [he, he', Option.bind_some, Option.map_some, Option.getD_some] at hrow hcolumn
      rw [he, he', hrow, hcolumn]
    · have hle := Nat.le_of_not_lt hk
      rw [Arena.get?_eq_none_iff.mpr hle, Arena.get?_eq_none_iff.mpr (hroom.trans_le hle)]
  have htotal : ∀ w, t'.total w = t.total w := by
    intro w
    simp only [total, hroom, hrow]
  have hnumRows : t'.numRows = t.numRows := by rw [h'.numRows, h.numRows, htotal]
  have hnumEntries : t'.numEntries = t.numEntries := by rw [h'.numEntries, h.numEntries, htotal]
  cases t
  cases t'
  simp_all

/-! ## Paths of pivots -/

/-- What pivots leave alone. -/
structure Rebased (t t' : Tableau) : Prop where
  consistent : t'.Consistent
  room : t'.numVariables = t.numVariables
  ejected : t'.ejected = t.ejected
  debugChecks : t'.debugChecks = t.debugChecks
  solves_iff : ∀ (M : Type) [AddCommGroup M] [Module ℚ M] (σ : Var → M),
    t'.Solves σ ↔ t.Solves σ

theorem Consistent.rebased (h : t.Consistent) : Rebased t t where
  consistent := h
  room := rfl
  ejected := rfl
  debugChecks := rfl
  solves_iff _ _ _ _ := .rfl

theorem Rebased.trans {t'' : Tableau} (h : Rebased t t') (h' : Rebased t' t'') :
    Rebased t t'' where
  consistent := h'.consistent
  room := h'.room.trans h.room
  ejected := h'.ejected.trans h.ejected
  debugChecks := h'.debugChecks.trans h.debugChecks
  solves_iff M _ _ σ := (h'.solves_iff M σ).trans (h.solves_iff M σ)

theorem Rebased.of_pivot (h : t.Consistent) {b e : Var} (hok : t.pivot b e = .ok t') :
    Rebased t t' := by
  have hpivoted := h.pivoted hok
  exact ⟨hpivoted.consistent, hpivoted.room, hpivoted.ejected, debugChecks_pivot hok,
    hpivoted.solves_iff⟩

/-- Pivots one after the other, each given by the variable that leaves the basis and the one that
enters it. -/
def pivots (path : List (Var × Var)) : List Operation := path.map fun p => .pivot p.1 p.2

theorem Rebased.of_run (h : t.Consistent) {path : List (Var × Var)}
    (hok : t.run (pivots path) = .ok t') : Rebased t t' := by
  induction path generalizing t with
  | nil =>
    obtain rfl := Except.ok.inj hok
    exact h.rebased
  | cons p path ih =>
    obtain ⟨t₁, hpivot, hok⟩ := bind_eq_ok.mp hok
    have h₁ := Rebased.of_pivot h hpivot
    exact h₁.trans (ih h₁.consistent hok)

/-- Tableaux that pivots lead to from the same one are equal if they have the same basis. -/
theorem Rebased.eq_of_basis {t₁ t₂ : Tableau} (h₁ : Rebased t t₁) (h₂ : Rebased t t₂)
    (hbasis : ∀ v, t₁.isBasic v = t₂.isBasic v) : t₁ = t₂ := by
  refine h₂.consistent.eq_of_rows h₁.consistent (h₁.room.trans h₂.room.symm)
    (h₁.ejected.trans h₂.ejected.symm) (h₁.debugChecks.trans h₂.debugChecks.symm) ?_
  refine h₂.consistent.row?_eq_of_basis h₁.consistent (fun v => ?_) fun σ hσ => ?_
  · rw [← isBasic_eq_false_iff, ← isBasic_eq_false_iff, hbasis]
  · rw [h₁.solves_iff]
    exact (h₂.solves_iff ℚ σ).mp hσ

/-- Every path of legal pivots has an end, with the solutions of the start, and where two paths end
with the same basis they end with the same rows, index and counters. -/
theorem same_end_of_pivots (h : t.isConsistent = true) {path path' : List (Var × Var)}
    (hlegal : t.allowsAll (pivots path) = true) (hlegal' : t.allowsAll (pivots path') = true) :
    ∃ t₁ t₂, t.run (pivots path) = .ok t₁ ∧ t.run (pivots path') = .ok t₂ ∧
      (∀ σ : Var → ℚ, t₁.Solves σ ↔ t.Solves σ) ∧
      ((∀ v, t₁.isBasic v = t₂.isBasic v) → t₁ = t₂) := by
  have hcons := consistent_of_isConsistent h
  obtain ⟨t₁, hok, -⟩ := hcons.run hlegal
  obtain ⟨t₂, hok', -⟩ := hcons.run hlegal'
  have h₁ := Rebased.of_run hcons hok
  have h₂ := Rebased.of_run hcons hok'
  exact ⟨t₁, t₂, hok, hok', h₁.solves_iff ℚ, h₁.eq_of_basis h₂⟩

theorem isBasic_congr (h : t.basicVars = t'.basicVars) (v : Var) : t.isBasic v = t'.isBasic v := by
  rw [Bool.eq_iff_iff, isBasic_iff, isBasic_iff, ← mem_basicVars_iff, ← mem_basicVars_iff, h]

/-- Three sums of `v0` and `v1`, the last one by way of the first. -/
def crossing : List Operation :=
  [.addRow ⟨2⟩ [1, 2] [⟨0⟩, ⟨1⟩], .addRow ⟨3⟩ [1, -1] [⟨0⟩, ⟨1⟩], .addRow ⟨4⟩ [1, 1] [⟨2⟩, ⟨0⟩]]

/-- The summands enter the basis for the first two sums in one pairing and in the other. -/
theorem same_end_of_crossing : ∃ t t₁, ({ debugChecks := true } : Tableau).run crossing = .ok t ∧
    t.run (pivots [(⟨2⟩, ⟨0⟩), (⟨3⟩, ⟨1⟩)]) = .ok t₁ ∧
    t.run (pivots [(⟨3⟩, ⟨0⟩), (⟨2⟩, ⟨1⟩)]) = .ok t₁ ∧ t₁ ≠ t ∧
    ∀ σ : Var → ℚ, t₁.Solves σ ↔ t.Solves σ := by
  have h : (({ debugChecks := true } : Tableau).run crossing >>= fun t => do
      let t₁ ← t.run (pivots [(⟨2⟩, ⟨0⟩), (⟨3⟩, ⟨1⟩)])
      let t₂ ← t.run (pivots [(⟨3⟩, ⟨0⟩), (⟨2⟩, ⟨1⟩)])
      Except.ok (t.isConsistent, t.basicVars, t₁.basicVars, t₂.basicVars)) =
      .ok (true, [⟨2⟩, ⟨3⟩, ⟨4⟩], [⟨0⟩, ⟨1⟩, ⟨4⟩], [⟨0⟩, ⟨1⟩, ⟨4⟩]) := by decide +kernel
  obtain ⟨t, hrun, h⟩ := bind_eq_ok.mp h
  obtain ⟨t₁, hok₁, h⟩ := bind_eq_ok.mp h
  obtain ⟨t₂, hok₂, h⟩ := bind_eq_ok.mp h
  simp only [Except.ok.injEq, Prod.mk.injEq] at h
  obtain ⟨hcons, hstart, hbasic₁, hbasic₂⟩ := h
  obtain ⟨u₁, u₂, hend₁, hend₂, hsolves, hsame⟩ :=
    same_end_of_pivots hcons (allowsAll_of_run hok₁) (allowsAll_of_run hok₂)
  obtain rfl : t₁ = u₁ := Except.ok.inj (hok₁.symm.trans hend₁)
  obtain rfl : t₂ = u₂ := Except.ok.inj (hok₂.symm.trans hend₂)
  obtain rfl := hsame (isBasic_congr (hbasic₁.trans hbasic₂.symm))
  refine ⟨t, t₁, hrun, hok₁, hok₂, fun heq => ?_, hsolves⟩
  rw [heq, hstart] at hbasic₁
  cases hbasic₁

end Tableau

end LinearArithmetic
