import LinearArithmetic.Proofs.TableauRows

/-!
# Pivots keep the solutions

A pivot solves one row for the entering variable and substitutes the solution into every other
row that mentions it. The tableau stays consistent, and its solutions stay the same.
-/

namespace LinearArithmetic.Tableau

/-! ## Substituting into one row -/

/-- A row with a variable replaced by its definition. -/
def substituted (v : Var) (definition r : Row) : Row :=
  (r.erase v).addScaled (r.coefficient v) definition

theorem coefficient_substituted (v u : Var) (definition r : Row) :
    (substituted v definition r).coefficient u =
      (if u = v then 0 else r.coefficient u) + r.coefficient v * definition.coefficient u := by
  rw [substituted, ← Row.toFinsupp_apply, Row.toFinsupp_addScaled]
  simp [Row.coefficient_erase]

theorem contains_of_substituted {v u : Var} {definition r : Row}
    (hu : (substituted v definition r).contains u = true) :
    (r.contains u = true ∧ u ≠ v) ∨ definition.contains u = true := by
  rw [Row.contains_iff, coefficient_substituted] at hu
  by_cases hd : definition.contains u = true
  · exact .inr hd
  · rw [Row.contains_iff, not_not] at hd
    rw [hd, mul_zero, add_zero] at hu
    split at hu
    · exact absurd rfl hu
    · rename_i huv
      exact .inl ⟨Row.contains_iff.mpr hu, huv⟩

/-- A row without the variable stays as it is. -/
theorem substituted_of_not_contains {v : Var} {definition r : Row} (h : r.coefficient v = 0) :
    substituted v definition r = r := by
  refine Row.ext_coefficient fun u => ?_
  rw [coefficient_substituted, h, zero_mul, add_zero]
  split
  · rename_i huv
    rw [huv, h]
  · rfl

theorem eval_substituted {M : Type} [AddCommGroup M] [Module ℚ M] {σ : Var → M} {v : Var}
    {definition : Row} (h : σ v = definition.eval σ) (r : Row) :
    (substituted v definition r).eval σ = r.eval σ := by
  rw [substituted, Row.eval_addScaled, Row.eval_erase, h, sub_add_cancel]

/-- The index and the count of the entries have followed the row of `b`, which was `r`, to `q`. The
row itself is not replaced yet. -/
structure Indexed (b : Var) (r q : Row) (t t' : Tableau) : Prop where
  room : t'.numVariables = t.numVariables
  ejected : t'.ejected = t.ejected
  row : ∀ u, t'.row? u = t.row? u
  uses : ∀ u w, t'.Uses u w ↔ if w = b then q.contains u = true else t.Uses u w
  numRows : t'.numRows = t.numRows
  numEntries : t'.numEntries + r.size = t.numEntries + q.size

namespace Indexed

variable {b : Var} {r q q' : Row} {t t' : Tableau}

theorem refl (h : t.Consistent) (hr : t.row? b = some r) : Indexed b r r t t where
  room := rfl
  ejected := rfl
  row _ := rfl
  uses u w := by
    split
    · rename_i hw
      rw [hw, h.uses_iff, hr]
      simp
    · rfl
  numRows := rfl
  numEntries := rfl

/-- The row changes, but not what it mentions. -/
theorem updated (h : Indexed b r q t t') (hq : ∀ u, q'.contains u = q.contains u) :
    Indexed b r q' t t' where
  room := h.room
  ejected := h.ejected
  row := h.row
  uses u w := by
    rw [h.uses, hq]
  numRows := h.numRows
  numEntries := by
    rw [h.numEntries, Row.size_congr hq]

/-- One variable comes into the row or leaves it, and its column and the counter follow. -/
theorem recorded (h : Indexed b r q t t') {v : Var} {used : Bool} {n : ℕ}
    (hv : v.id < t.numVariables) (hused : q'.contains v = used)
    (hrest : ∀ u, u ≠ v → q'.contains u = q.contains u)
    (hn : n + q.size = t'.numEntries + q'.size) :
    Indexed b r q' t { t'.recordUse v b used with numEntries := n } where
  room := (numVariables_recordUse t' v b used).trans h.room
  ejected := h.ejected
  row u := (row?_recordUse t' u v b used).trans (h.row u)
  uses u w := by
    change (t'.recordUse v b used).Uses u w ↔ _
    rw [uses_recordUse, h.room, h.uses]
    by_cases hw : w = b
    · by_cases hu : u = v
      · simp [hw, hu, hv, hused]
      · simp [hw, hu, hrest]
    · simp [hw]
  numRows := h.numRows
  numEntries := by
    have hbefore := h.numEntries
    change n + r.size = t.numEntries + q'.size
    omega

/-- An entry leaves the row: the counter can be lowered, as the row's entries are counted. -/
theorem forget (h : Indexed b r q t t') (hcount : r.size ≤ t.numEntries) {v : Var}
    (hv : v.id < t.numVariables) (hq : q.contains v = true) (hq' : q'.contains v = false)
    (hrest : ∀ u, u ≠ v → q'.contains u = q.contains u) :
    lowered t'.numEntries 1 = .ok (t'.numEntries - 1) ∧
      Indexed b r q' t { t'.recordUse v b false with numEntries := t'.numEntries - 1 } := by
  have hsize : q.size = q'.size + 1 := by
    refine Row.size_eq_add_one hq' fun u => ?_
    by_cases hu : u = v
    · simp [hu, hq]
    · simp [hu, hrest]
  have hentries := h.numEntries
  refine ⟨lowered_of_le (by omega), h.recorded hv hq' hrest ?_⟩
  omega

/-- One entry of a definition goes into the row. -/
theorem substituteEntry (h : Indexed b r q t t') (hcount : r.size ≤ t.numEntries) (factor : ℚ)
    {e : Var × ℚ} (he : e.1.id < t.numVariables) :
    ∃ t'', Tableau.substituteEntry b factor (t', q) e = .ok (t'', q.add e.1 (factor * e.2)) ∧
      Indexed b r (q.add e.1 (factor * e.2)) t t'' := by
  have hrest : ∀ u, u ≠ e.1 → (q.add e.1 (factor * e.2)).contains u = q.contains u := by
    intro u hu
    exact Row.contains_add_of_ne hu _ q
  have hchange := Row.contains_of_change e.1 (factor * e.2) q
  have hsame : (q.add e.1 (factor * e.2)).contains e.1 = q.contains e.1 →
      Indexed b r (q.add e.1 (factor * e.2)) t t' := by
    intro hself
    apply h.updated
    intro u
    by_cases hu : u = e.1
    · rw [hu, hself]
    · exact hrest u hu
  cases hcase : q.change e.1 (factor * e.2) with
  | created =>
    rw [hcase] at hchange
    have hsize : (q.add e.1 (factor * e.2)).size = q.size + 1 := by
      refine Row.size_eq_add_one hchange.1 fun u => ?_
      by_cases hu : u = e.1
      · simp [hu, hchange.2]
      · simp [hu, hrest]
    refine ⟨_, by simp only [Tableau.substituteEntry, hcase]; rfl, ?_⟩
    apply h.recorded he hchange.2 hrest
    omega
  | cancelled =>
    rw [hcase] at hchange
    obtain ⟨hlowered, hnext⟩ := h.forget hcount he hchange.1 hchange.2 hrest
    refine ⟨_, ?_, hnext⟩
    simp only [Tableau.substituteEntry, hcase, hlowered]
    rfl
  | updated =>
    rw [hcase] at hchange
    exact ⟨t', by simp only [Tableau.substituteEntry, hcase]; rfl, hsame hchange⟩
  | unchanged =>
    rw [hcase] at hchange
    exact ⟨t', by simp only [Tableau.substituteEntry, hcase]; rfl, hsame hchange⟩

/-- All entries of a definition go into the row, one after the other. -/
theorem substituteEntries (hcount : r.size ≤ t.numEntries) (factor : ℚ) (entries : List (Var × ℚ))
    (hentries : ∀ e ∈ entries, e.1.id < t.numVariables) (h : Indexed b r q t t') :
    ∃ t'', entries.foldlM (Tableau.substituteEntry b factor) (t', q) =
        .ok (t'', entries.foldl (fun row e => row.add e.1 (factor * e.2)) q) ∧
      Indexed b r (entries.foldl (fun row e => row.add e.1 (factor * e.2)) q) t t'' := by
  induction entries generalizing t' q with
  | nil => exact ⟨t', rfl, h⟩
  | cons e rest ih =>
    obtain ⟨t₁, hstep, h₁⟩ := h.substituteEntry hcount factor (hentries e List.mem_cons_self)
    rw [List.foldlM_cons, hstep, ok_bind, List.foldl_cons]
    apply ih _ h₁
    intro d hd
    exact hentries d (List.mem_cons_of_mem e hd)

/-- Replacing the row at last. -/
theorem rewritten (h : Indexed b r q t t') (hr : t.row? b = some r) :
    Rewritten b (some q) t (t'.setRow b (some q)) where
  room := (numVariables_setRow t' b (some q)).trans h.room
  ejected := h.ejected
  row u := by
    rw [row?_setRow, h.room, h.row]
    by_cases hu : u = b
    · simp [hu, lt_of_row? hr]
    · simp [hu]
  uses u w := by
    rw [uses_setRow, h.uses]
    simp
  numRows := by
    rw [hr]
    exact congrArg (· + 1) h.numRows
  numEntries := by
    rw [hr]
    exact h.numEntries

end Indexed

/-- A substitution changes the row of one basic variable only. -/
theorem Consistent.rewritten_substitute {t : Tableau} (h : t.Consistent) {v b : Var}
    {definition r : Row} (hr : t.row? b = some r)
    (hdef : ∀ u, definition.contains u = true → u.id < t.numVariables) :
    ∃ t', t.substitute v definition b = .ok t' ∧
      Rewritten b (some (substituted v definition r)) t t' := by
  cases hc : r.coefficient? v with
  | none =>
    have hsame : substituted v definition r = r := by
      apply substituted_of_not_contains
      simp [Row.coefficient, hc]
    rw [hsame]
    refine ⟨t, by rw [substitute, row_eq_ok hr, ok_bind]; simp only [hc]; rfl, ?_⟩
    refine ⟨rfl, rfl, fun u => ?_, fun u w => ?_, by rw [hr], by rw [hr]⟩
    · split
      · rename_i hu
        rw [hu, hr]
      · rfl
    · split
      · rename_i hw
        rw [hw, h.uses_iff, hr]
      · rfl
  | some c =>
    have hv : r.contains v = true := by simp [Row.contains, hc]
    have hcount : r.size ≤ t.numEntries := by
      rw [h.numEntries]
      exact le_total hr Row.size
    have herase : (r.erase v).contains v = false := by
      rw [← Bool.not_eq_true, Row.contains_erase]
      simp
    have hrest : ∀ u, u ≠ v → (r.erase v).contains u = r.contains u := by
      intro u hu
      rw [Bool.eq_iff_iff, Row.contains_erase]
      simp [hu]
    obtain ⟨hlowered, h₁⟩ :=
      (Indexed.refl h hr).forget hcount (h.inRange hr hv) hv herase hrest
    obtain ⟨t₂, hfold, h₂⟩ := Indexed.substituteEntries hcount c definition.entries
      (fun e he => hdef e.1 (Row.contains_of_mem_entries he)) h₁
    have hrow : definition.entries.foldl (fun row e => row.add e.1 (c * e.2)) (r.erase v) =
        substituted v definition r := by
      rw [substituted, Row.coefficient_eq_of_some hc]
      rfl
    rw [hrow] at hfold h₂
    refine ⟨_, ?_, h₂.rewritten hr⟩
    rw [substitute, row_eq_ok hr, ok_bind]
    simp only [hc, hlowered, ok_bind, hfold]
    rfl

/-- Substituting what a solution satisfies into a row does not change the solutions. -/
theorem Rewritten.solves_iff {t t' : Tableau} {v b : Var} {definition r : Row}
    (h : Rewritten b (some (substituted v definition r)) t t') (hr : t.row? b = some r)
    {M : Type} [AddCommGroup M] [Module ℚ M] {σ : Var → M} (hσ : σ v = definition.eval σ) :
    t'.Solves σ ↔ t.Solves σ := by
  constructor
  · intro hs w s hw
    by_cases hwb : w = b
    · rw [hwb, hr] at hw
      rw [hwb, ← Option.some.inj hw, ← eval_substituted hσ r]
      exact hs b _ h.row_self
    · exact hs w s (by rw [h.row_of_ne hwb, hw])
  · intro hs w s hw
    rcases h.cases_row hw with ⟨rfl, ho⟩ | ⟨_, hw⟩
    · rw [← Option.some.inj ho, eval_substituted hσ r]
      exact hs w r hr
    · exact hs w s hw

/-! ## Substituting into a column -/

/-- A definition of `v` has been substituted into all rows but those of the variables that are
left. -/
structure Substituting (v : Var) (definition : Row) (t : Tableau) (rest : List Var)
    (t' : Tableau) : Prop where
  consistent : t'.Consistent
  room : t'.numVariables = t.numVariables
  ejected : t'.ejected = t.ejected
  nonbasic_iff : ∀ u, t'.row? u = none ↔ t.row? u = none
  basic : ∀ w ∈ rest, t.row? w ≠ none
  left : ∀ w s, t'.row? w = some s → s.contains v = true → w ∈ rest
  contains : ∀ w s u, t'.row? w = some s → s.contains u = true →
    t.Mentions u ∨ definition.contains u = true
  solves_iff : ∀ (M : Type) [AddCommGroup M] [Module ℚ M] (σ : Var → M), σ v = definition.eval σ →
    (t'.Solves σ ↔ t.Solves σ)

theorem Consistent.substituting {t : Tableau} (h : t.Consistent) (v : Var) (definition : Row) :
    Substituting v definition t (t.column v) t where
  consistent := h
  room := rfl
  ejected := rfl
  nonbasic_iff _ := Iff.rfl
  basic w hw := by
    obtain ⟨r, hr, _⟩ := h.uses_iff.mp (mem_column_iff.mp hw)
    simp [hr]
  left w s hs hv := mem_column_iff.mpr (h.uses_iff.mpr ⟨s, hs, hv⟩)
  contains w s u hs hu := .inl (.inr ⟨w, s, hs, hu⟩)
  solves_iff _ _ _ _ _ := Iff.rfl

theorem Substituting.step {v : Var} {definition : Row} {t t' : Tableau} {w : Var} {rest : List Var}
    (h : Substituting v definition t (w :: rest) t') (hself : definition.contains v = false)
    (hdef : ∀ u, definition.contains u = true → t.row? u = none ∧ u.id < t.numVariables) :
    ∃ t'', t'.substitute v definition w = .ok t'' ∧ Substituting v definition t rest t'' := by
  obtain ⟨r, hr⟩ := Option.ne_none_iff_exists'.mp
    (mt (h.nonbasic_iff w).mp (h.basic w List.mem_cons_self))
  have hroom : ∀ u, definition.contains u = true → u.id < t'.numVariables :=
    fun u hu => h.room ▸ (hdef u hu).2
  obtain ⟨t'', hok, hrewritten⟩ := h.consistent.rewritten_substitute (v := v) hr hroom
  have hnew : ∀ u, (substituted v definition r).contains u = true →
      t'.row? u = none ∧ u.id < t'.numVariables := by
    intro u hu
    rcases contains_of_substituted hu with ⟨hu, _⟩ | hu
    · exact ⟨h.consistent.nonbasic hr hu, h.consistent.inRange hr hu⟩
    · exact ⟨(h.nonbasic_iff u).mpr (hdef u hu).1, h.room ▸ (hdef u hu).2⟩
  refine ⟨t'', hok, {
    consistent := ?_
    room := hrewritten.room.trans h.room
    ejected := hrewritten.ejected.trans h.ejected
    nonbasic_iff := fun u => ?_
    basic := fun w hw => h.basic w (List.mem_cons_of_mem _ hw)
    left := fun u s hs hv => ?_
    contains := fun x s u hs hu => ?_
    solves_iff := fun M _ _ σ hσ =>
      (hrewritten.solves_iff hr hσ).trans (h.solves_iff M σ hσ) }⟩
  · refine hrewritten.consistent h.consistent (lt_of_row? hr) (fun _ _ x s _ hs => ?_)
      fun q u hq hu => ?_
    · by_contra hne
      rw [h.consistent.nonbasic hs (by simpa using hne)] at hr
      cases hr
    · rw [← Option.some.inj hq] at hu
      refine ⟨?_, hnew u hu⟩
      rintro rfl
      rw [(hnew u hu).1] at hr
      cases hr
  · rw [← h.nonbasic_iff, hrewritten.row]
    split
    · rename_i huw
      simp [huw, hr]
    · rfl
  · rcases hrewritten.cases_row hs with ⟨_, ho⟩ | ⟨huw, hs⟩
    · rw [← Option.some.inj ho] at hv
      rcases contains_of_substituted hv with ⟨_, hne⟩ | hv
      · exact absurd rfl hne
      · rw [hself] at hv
        cases hv
    · exact (List.mem_cons.mp (h.left u s hs hv)).resolve_left huw
  · rcases hrewritten.cases_row hs with ⟨_, ho⟩ | ⟨_, hs⟩
    · rw [← Option.some.inj ho] at hu
      rcases contains_of_substituted hu with ⟨hu, _⟩ | hu
      · exact h.contains w r u hr hu
      · exact .inr hu
    · exact h.contains x s u hs hu

/-- Substituting a definition into every row of a column. -/
theorem substituteColumn_spec {t : Tableau} (h : t.Consistent) {v : Var} {definition : Row}
    (hself : definition.contains v = false)
    (hdef : ∀ u, definition.contains u = true → t.row? u = none ∧ u.id < t.numVariables) :
    ∃ t', (t.column v).foldlM (substitute v definition) t = .ok t' ∧
      Substituting v definition t [] t' :=
  Checked.exists_foldlM (f := substitute v definition) (Substituting v definition t)
    (fun _ _ _ hs => hs.step hself hdef) (t.column v) t (h.substituting v definition)

/-! ## Pivots -/

theorem coefficient_solveFor (b v u : Var) (c : ℚ) (r : Row) :
    (r.solveFor b v c).coefficient u =
      -(1 / c) * (r.coefficient u - if u = v then r.coefficient v else 0) +
        if u = b then 1 / c else 0 := by
  rw [← Row.toFinsupp_apply, Row.toFinsupp_solveFor]
  simp only [Finsupp.add_apply, Finsupp.smul_apply, Finsupp.sub_apply, Row.toFinsupp_apply,
    smul_eq_mul, Finsupp.single_apply, eq_comm]

theorem contains_of_solveFor {b v u : Var} {c : ℚ} {r : Row}
    (h : (r.solveFor b v c).contains u = true) :
    u = b ∨ (r.contains u = true ∧ u ≠ v) := by
  by_cases hub : u = b
  · exact .inl hub
  · rw [Row.contains_iff, coefficient_solveFor, if_neg hub, add_zero] at h
    refine .inr ⟨?_, ?_⟩
    · rw [Row.contains_iff]
      intro hzero
      apply h
      rw [hzero]
      split
      · rename_i huv
        rw [← huv, hzero]
        simp
      · simp
    · rintro rfl
      simp at h

/-- What the solution of a row for `e` is about: variables that are not basic without the row. -/
theorem Consistent.contains_solveFor {t : Tableau} (h : t.Consistent) {b e u : Var} {r : Row}
    {c : ℚ} (hr : t.row? b = some r) (hre : r.contains e = true)
    (hu : (r.solveFor b e c).contains u = true) :
    u ≠ e ∧ (u = b ∨ t.row? u = none) ∧ u.id < t.numVariables ∧ t.Mentions u := by
  rcases contains_of_solveFor hu with rfl | ⟨hu, hue⟩
  · refine ⟨?_, .inl rfl, lt_of_row? hr, .inl ⟨r, hr⟩⟩
    rintro rfl
    rw [h.nonbasic hr hre] at hr
    cases hr
  · exact ⟨hue, .inr (h.nonbasic hr hu), h.inRange hr hu, .inr ⟨b, r, hr, hu⟩⟩

/-- The tableau after `b` and `e` have exchanged their roles. -/
structure Pivoted (b e : Var) (t t' : Tableau) : Prop where
  consistent : t'.Consistent
  room : t'.numVariables = t.numVariables
  ejected : t'.ejected = t.ejected
  nonbasic_iff : ∀ u, t'.row? u = none ↔ u ≠ e ∧ (u = b ∨ t.row? u = none)
  mentions : ∀ u, t'.Mentions u → t.Mentions u
  solves_iff : ∀ (M : Type) [AddCommGroup M] [Module ℚ M] (σ : Var → M),
    t'.Solves σ ↔ t.Solves σ

/-- What a pivot does: it keeps the tableau consistent and its solutions the same, exchanges the
two variables, and makes no other variable known to the tableau. -/
theorem Consistent.pivot {t : Tableau} (h : t.Consistent) {b e : Var} {r : Row} {c : ℚ}
    (hr : t.row? b = some r) (hc : r.coefficient? e = some c) :
    ∃ t', t.pivot b e = .ok t' ∧ Pivoted b e t t' := by
  have hre : r.contains e = true := by simp [Row.contains, hc]
  have henone : t.row? e = none := h.nonbasic hr hre
  have hbe : b ≠ e := by
    rintro rfl
    rw [hr] at henone
    cases henone
  obtain ⟨t₁, hun, h₁, hout, hsol₁⟩ := h.uninstall hr
  let solved := r.solveFor b e c
  have hsolved : ∀ u, solved.contains u = true →
      t₁.row? u = none ∧ u.id < t₁.numVariables ∧ u ≠ e ∧ t.Mentions u := by
    intro u hu
    obtain ⟨hue, hnone, hlt, hmention⟩ := h.contains_solveFor hr hre hu
    rw [hout.row, hout.room]
    refine ⟨?_, hlt, hue, hmention⟩
    split
    · rfl
    · rename_i hub
      exact hnone.resolve_left hub
  have hself : solved.contains e = false := by
    by_contra hne
    exact (hsolved e (by simpa using hne)).2.2.1 rfl
  obtain ⟨t₂, hfold, h₂⟩ :=
    substituteColumn_spec h₁ hself fun u hu => ⟨(hsolved u hu).1, (hsolved u hu).2.1⟩
  have he₂ : t₂.row? e = none := by
    rw [h₂.nonbasic_iff, hout.row_of_ne hbe.symm, henone]
  have hfree : ¬ t₂.Mentions e := by
    rintro (⟨s, hs⟩ | ⟨w, s, hs, hv⟩)
    · rw [he₂] at hs
      cases hs
    · exact List.not_mem_nil (h₂.left w s hs hv)
  obtain ⟨hcons, hin, hsol₂⟩ := h₂.consistent.install
    (by rw [h₂.room, hout.room]; exact h.inRange hr hre) hfree fun u hu => by
      rw [h₂.nonbasic_iff, h₂.room]
      exact ⟨(hsolved u hu).2.2.1, (hsolved u hu).1, (hsolved u hu).2.1⟩
  refine ⟨t₂.install e solved, ?_, {
    consistent := hcons
    room := hin.room.trans (h₂.room.trans hout.room)
    ejected := hin.ejected.trans (h₂.ejected.trans hout.ejected)
    nonbasic_iff := fun u => ?_
    mentions := ?_
    solves_iff := fun M _ _ σ => ?_ }⟩
  · rw [Tableau.pivot, isBasic_iff.mpr ⟨r, hr⟩, isBasic_eq_false_iff.mpr henone]
    simp only [Bool.not_true, Bool.or_self, Bool.false_eq_true, if_false, ok_bind, hun, hc]
    rw [hfold]
    exact hcons.verified
  · by_cases hue : u = e
    · simp [hue, hin.row_self]
    · rw [hin.row_of_ne hue, h₂.nonbasic_iff, hout.row]
      split <;> simp_all
  · rintro u (⟨s, hs⟩ | ⟨w, s, hs, hu⟩)
    · rcases hin.cases_row hs with ⟨rfl, _⟩ | ⟨_, hs⟩
      · exact .inr ⟨b, r, hr, hre⟩
      · refine hout.mentions (.inl (Option.ne_none_iff_exists'.mp fun hnone => ?_))
        rw [(h₂.nonbasic_iff u).mpr hnone] at hs
        cases hs
    · rcases hin.cases_row hs with ⟨_, ho⟩ | ⟨_, hs⟩
      · rw [← Option.some.inj ho] at hu
        exact (hsolved u hu).2.2.2
      · rcases h₂.contains w s u hs hu with hm | hd
        · exact hout.mentions hm
        · exact (hsolved u hd).2.2.2
  · rw [hsol₂ M σ, hsol₁ M σ, ← Row.eq_eval_solveFor_iff hc]
    exact and_congr_left (h₂.solves_iff M σ)

/-! ## The flag for checks

Whether a tableau is checked does not change with its rows. -/

section DebugChecks

variable {t t' : Tableau} {b v : Var}

theorem eq_of_verified (h : t.verified = .ok t') : t' = t := by
  rw [verified] at h
  split at h
  · cases h
  · exact (Except.ok.inj h).symm

@[simp] theorem debugChecks_recordUses (t : Tableau) (b : Var) (used : Var → Bool)
    (vs : List Var) : (t.recordUses b used vs).debugChecks = t.debugChecks := by
  rw [recordUses_eq]

theorem debugChecks_install (t : Tableau) (b : Var) (r : Row) :
    (t.install b r).debugChecks = t.debugChecks :=
  debugChecks_recordUses t b (fun _ => true) r.vars

theorem debugChecks_uninstall {r : Row} (h : t.uninstall b = .ok (t', r)) :
    t'.debugChecks = t.debugChecks := by
  obtain ⟨q, _, h⟩ := bind_eq_ok.mp h
  obtain ⟨_, _, h⟩ := bind_eq_ok.mp h
  obtain ⟨_, _, h⟩ := bind_eq_ok.mp h
  obtain ⟨rfl, -⟩ := Prod.mk.inj (Except.ok.inj h)
  exact debugChecks_recordUses t b (fun _ => false) q.vars

theorem debugChecks_eject (h : t.eject b = .ok t') : t'.debugChecks = t.debugChecks := by
  obtain ⟨⟨t₁, r⟩, hout, h⟩ := bind_eq_ok.mp h
  obtain rfl := Except.ok.inj h
  have hsame := debugChecks_uninstall hout
  exact hsame

theorem debugChecks_addRow {definition : List (Var × ℚ)} (h : t.addRow b definition = .ok t') :
    t'.debugChecks = t.debugChecks := by
  have hroom : (t.roomFor b definition).debugChecks = t.debugChecks :=
    roomFor_induction (P := fun u => u.debugChecks = t.debugChecks) rfl fun _ _ hu => hu
  rw [addRow] at h
  dsimp only at h
  split at h
  · cases h
  split at h
  · cases h
  split at h
  · cases h
  split at h
  · cases h
  rw [eq_of_verified h, debugChecks_install]
  exact hroom

theorem debugChecks_substituteEntry (b : Var) (factor : ℚ) (p : Tableau × Row) (e : Var × ℚ) :
    (substituteEntry b factor p e).Meets (fun _ => True)
      (fun q => q.1.debugChecks = p.1.debugChecks) := by
  rw [substituteEntry]
  dsimp only
  split
  · exact rfl
  · unfold lowered
    split
    · exact rfl
    · exact trivial
  · exact rfl
  · exact rfl

theorem debugChecks_substitute (v : Var) (definition : Row) (t : Tableau) (b : Var) :
    (t.substitute v definition b).Meets (fun _ => True)
      (fun t' => t'.debugChecks = t.debugChecks) := by
  rw [substitute]
  refine Checked.Meets.bind (P := fun _ => True) ?_ fun r _ => ?_
  · cases t.row b <;> trivial
  cases r.coefficient? v with
  | none => exact rfl
  | some factor =>
    refine Checked.Meets.bind (P := fun _ => True) ?_ fun n _ => ?_
    · cases lowered t.numEntries 1 <;> trivial
    refine Checked.Meets.bind (Checked.meets_foldlM
      (fun _ (p : Tableau × Row) => p.1.debugChecks = t.debugChecks) (fun e _ p hp => ?_)
      definition.entries _ rfl) fun p hp => hp
    exact (debugChecks_substituteEntry b factor p e).mono fun q hq => hq.trans hp

theorem debugChecks_pivot (h : t.pivot b v = .ok t') : t'.debugChecks = t.debugChecks := by
  rw [pivot] at h
  split at h
  · cases h
  obtain ⟨⟨t₁, r⟩, hout, h⟩ := bind_eq_ok.mp h
  dsimp only at h
  cases hc : r.coefficient? v with
  | none =>
    rw [hc] at h
    cases h
  | some c =>
    rw [hc] at h
    obtain ⟨t₂, hfold, h⟩ := bind_eq_ok.mp h
    have hsub : Checked.Meets (fun _ => True) (fun u => u.debugChecks = t₁.debugChecks)
        ((t₁.column v).foldlM (substitute v (r.solveFor b v c)) t₁) :=
      Checked.meets_foldlM (fun _ u => u.debugChecks = t₁.debugChecks)
        (fun w _ u hu => (debugChecks_substitute v _ u w).mono fun _ hu' => hu'.trans hu) _ _ rfl
    rw [hfold] at hsub
    rw [eq_of_verified h, debugChecks_install]
    exact (Checked.meets_ok.mp hsub).trans (debugChecks_uninstall hout)

end DebugChecks

end LinearArithmetic.Tableau
