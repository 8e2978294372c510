import LinearArithmetic.Proofs.Tableau
import LinearArithmetic.Tableau.Pivot

/-!
# Rows that are put in and taken out

Putting a row in restricts the solutions of a tableau by one equation, and taking it out lifts
that equation again. Both keep the tableau consistent.
-/

namespace LinearArithmetic.Tableau

variable {M : Type} [AddCommGroup M] [Module ℚ M]

/-! ## Replacing one row -/

/-- The row of one variable has been replaced, or put in or taken out; the index and the counters
have followed. -/
structure Rewritten (b : Var) (o : Option Row) (t t' : Tableau) : Prop where
  room : t'.numVariables = t.numVariables
  ejected : t'.ejected = t.ejected
  row : ∀ u, t'.row? u = if u = b then o else t.row? u
  uses : ∀ u w, t'.Uses u w ↔ if w = b then ∃ r, o = some r ∧ r.contains u = true else t.Uses u w
  numRows : t'.numRows + (t.row? b).elim 0 (fun _ => 1) = t.numRows + o.elim 0 fun _ => 1
  numEntries : t'.numEntries + (t.row? b).elim 0 Row.size = t.numEntries + o.elim 0 Row.size

namespace Rewritten

variable {b : Var} {o : Option Row} {t t' : Tableau}

theorem row_self (h : Rewritten b o t t') : t'.row? b = o := by
  rw [h.row, if_pos rfl]

theorem row_of_ne (h : Rewritten b o t t') {u : Var} (hu : u ≠ b) : t'.row? u = t.row? u := by
  rw [h.row, if_neg hu]

theorem cases_row (h : Rewritten b o t t') {w : Var} {s : Row} (hs : t'.row? w = some s) :
    w = b ∧ o = some s ∨ w ≠ b ∧ t.row? w = some s := by
  by_cases hw : w = b
  · rw [hw, h.row_self] at hs
    exact .inl ⟨hw, hs⟩
  · rw [h.row_of_ne hw] at hs
    exact .inr ⟨hw, hs⟩

/-- A tableau stays consistent, if the new row is over other variables without rows, and no other
row mentions a variable that gets a row. -/
theorem consistent (h : Rewritten b o t t') (ht : t.Consistent) (hb : b.id < t.numVariables)
    (hunused : ∀ r, o = some r → ∀ w s, w ≠ b → t.row? w = some s → s.contains b = false)
    (hnew : ∀ r u, o = some r → r.contains u = true →
      u ≠ b ∧ t.row? u = none ∧ u.id < t.numVariables) : t'.Consistent where
  nonbasic := by
    intro w v s hs hv
    rcases h.cases_row hs with ⟨_, ho⟩ | ⟨hw, hs⟩
    · rw [h.row_of_ne (hnew s v ho hv).1]
      exact (hnew s v ho hv).2.1
    · by_cases hvb : v = b
      · subst hvb
        cases ho : o with
        | none => rw [h.row_self, ho]
        | some r =>
          rw [hunused r ho w s hw hs] at hv
          cases hv
      · rw [h.row_of_ne hvb]
        exact ht.nonbasic hs hv
  inRange := by
    intro w v s hs hv
    rw [h.room]
    rcases h.cases_row hs with ⟨_, ho⟩ | ⟨_, hs⟩
    · exact (hnew s v ho hv).2.2
    · exact ht.inRange hs hv
  uses_iff := by
    intro v w
    rw [h.uses, h.row]
    split
    · rfl
    · exact ht.uses_iff
  numRows := by
    have hchange := total_change h.room hb (fun u hu => h.row_of_ne hu) fun _ => 1
    have := h.numRows
    have := ht.numRows
    rw [h.row_self] at hchange
    omega
  numEntries := by
    have hchange := total_change h.room hb (fun u hu => h.row_of_ne hu) Row.size
    have := h.numEntries
    have := ht.numEntries
    rw [h.row_self] at hchange
    omega

theorem mentions (h : Rewritten b none t t') {v : Var} (hv : t'.Mentions v) : t.Mentions v := by
  rcases hv with ⟨r, hr⟩ | ⟨w, r, hr, hv⟩
  · rcases h.cases_row hr with ⟨_, ho⟩ | ⟨_, hr⟩
    · cases ho
    · exact .inl ⟨r, hr⟩
  · rcases h.cases_row hr with ⟨_, ho⟩ | ⟨_, hr⟩
    · cases ho
    · exact .inr ⟨w, r, hr, hv⟩

/-- A consistent tableau without the row of a basic variable says nothing of that variable. -/
theorem not_mentions (h : Rewritten b none t t') (ht : t.Consistent) {r : Row}
    (hr : t.row? b = some r) : ¬ t'.Mentions b := by
  rintro (⟨s, hs⟩ | ⟨w, s, hs, hb⟩)
  · rw [h.row_self] at hs
    cases hs
  · rcases h.cases_row hs with ⟨_, ho⟩ | ⟨_, hs⟩
    · cases ho
    · rw [ht.nonbasic hs hb] at hr
      cases hr

end Rewritten

/-- One more row restricts the solutions by its equation. -/
theorem solves_iff_of_row {t t' : Tableau} {b : Var} {r : Row} (hnone : t.row? b = none)
    (hb : t'.row? b = some r) (hrow : ∀ u, u ≠ b → t'.row? u = t.row? u) (σ : Var → M) :
    t'.Solves σ ↔ t.Solves σ ∧ σ b = r.eval σ := by
  constructor
  · intro h
    refine ⟨fun w s hs => h w s ?_, h b r hb⟩
    have hw : w ≠ b := by
      rintro rfl
      rw [hnone] at hs
      cases hs
    rw [hrow w hw, hs]
  · rintro ⟨h, hbr⟩ w s hs
    by_cases hw : w = b
    · rw [hw, hb] at hs
      rw [hw, ← Option.some.inj hs, hbr]
    · exact h w s (by rw [← hrow w hw, hs])

/-! ## Putting a row in -/

@[simp] theorem numVariables_install (t : Tableau) (b : Var) (r : Row) :
    (t.install b r).numVariables = t.numVariables :=
  (numVariables_setRow _ _ _).trans (numVariables_recordUses t b (fun _ => true) r.vars)

theorem row?_install {t : Tableau} {b : Var} (hb : b.id < t.numVariables) (r : Row) (u : Var) :
    (t.install b r).row? u = if u = b then some r else t.row? u := by
  have h : (t.install b r).row? u = ((t.recordUses b (fun _ => true) r.vars).setRow b
      (some r)).row? u := rfl
  rw [h, row?_setRow, row?_recordUses, numVariables_recordUses]
  by_cases hu : u = b
  · simp [hu, hb]
  · simp [hu]

theorem uses_install {t : Tableau} {b : Var} {r : Row}
    (hr : ∀ v, r.contains v = true → v.id < t.numVariables) {v w : Var} :
    (t.install b r).Uses v w ↔ t.Uses v w ∨ w = b ∧ r.contains v = true := by
  have h : (t.install b r).Uses v w ↔ ((t.recordUses b (fun _ => true) r.vars).setRow b
      (some r)).Uses v w := Iff.rfl
  rw [h, uses_setRow, uses_recordUses]
  by_cases hv : r.contains v = true
  · have := hr v hv
    by_cases hw : w = b <;> simp [Row.mem_vars_iff, hv, this, hw]
  · simp [Row.mem_vars_iff, hv]

theorem Consistent.rewritten_install {t : Tableau} (h : t.Consistent) {b : Var} {r : Row}
    (hb : b.id < t.numVariables) (hnone : t.row? b = none)
    (hr : ∀ v, r.contains v = true → v.id < t.numVariables) :
    Rewritten b (some r) t (t.install b r) where
  room := numVariables_install t b r
  ejected := ejected_recordUses t b (fun _ => true) r.vars
  row := row?_install hb r
  uses u w := by
    rw [uses_install hr]
    split
    · rename_i hw
      simp [hw, h.uses_iff, hnone]
    · rename_i hw
      simp [hw]
  numRows := by
    rw [hnone]
    exact congrArg (· + 1) (numRows_recordUses t b (fun _ => true) r.vars)
  numEntries := by
    rw [hnone]
    exact congrArg (· + r.size) (numEntries_recordUses t b (fun _ => true) r.vars)

/-- A variable that no row mentions gets a row over other variables without rows. -/
theorem Consistent.install {t : Tableau} (h : t.Consistent) {b : Var} {r : Row}
    (hb : b.id < t.numVariables) (hfree : ¬ t.Mentions b)
    (hrow : ∀ v, r.contains v = true → v ≠ b ∧ t.row? v = none ∧ v.id < t.numVariables) :
    (t.install b r).Consistent ∧ Rewritten b (some r) t (t.install b r) ∧
      ∀ (M : Type) [AddCommGroup M] [Module ℚ M] (σ : Var → M),
        (t.install b r).Solves σ ↔ t.Solves σ ∧ σ b = r.eval σ := by
  have hnone : t.row? b = none := row?_of_not_mentions hfree
  have hrewritten := h.rewritten_install hb hnone fun v hv => (hrow v hv).2.2
  refine ⟨hrewritten.consistent h hb (fun _ _ w s _ hs => ?_) fun s u hs hu => ?_, hrewritten,
    fun M _ _ σ => solves_iff_of_row hnone hrewritten.row_self (fun u => hrewritten.row_of_ne) σ⟩
  · rw [← Bool.not_eq_true]
    exact fun hv => hfree (.inr ⟨w, s, hs, hv⟩)
  · rw [← Option.some.inj hs] at hu
    exact hrow u hu

/-! ## Taking a row out -/

/-- Taking out the row of a basic variable changes that row only. -/
theorem Consistent.rewritten_uninstall {t : Tableau} (h : t.Consistent) {b : Var} {r : Row}
    (hr : t.row? b = some r) :
    ∃ t', t.uninstall b = .ok (t', r) ∧ Rewritten b none t t' := by
  let t₁ := t.recordUses b (fun _ => false) r.vars
  have hrows : 1 ≤ t₁.numRows := by
    rw [numRows_recordUses, h.numRows]
    exact le_total hr fun _ => 1
  have hentries : r.size ≤ t₁.numEntries := by
    rw [numEntries_recordUses, h.numEntries]
    exact le_total hr Row.size
  have hok : t.uninstall b = .ok ({ t₁.setRow b none with
      numRows := t₁.numRows - 1, numEntries := t₁.numEntries - r.size }, r) := by
    rw [uninstall, row_eq_ok hr, ok_bind]
    change (lowered t₁.numEntries r.size >>= fun _ => lowered t₁.numRows 1 >>= fun _ => _) = _
    rw [lowered_of_le hentries, ok_bind, lowered_of_le hrows]
    rfl
  refine ⟨_, hok, {
    room := (numVariables_setRow _ _ _).trans (numVariables_recordUses _ _ _ _)
    ejected := ejected_recordUses _ _ _ _
    row := fun u => ?_
    uses := fun u w => ?_
    numRows := ?_
    numEntries := ?_ }⟩
  · refine (row?_setRow _ u b none).trans ?_
    rw [row?_recordUses, numVariables_recordUses]
    by_cases hu : u = b
    · subst hu
      simp [lt_of_row? hr]
    · simp [hu]
  · refine Iff.trans (uses_setRow (v := b) (r := none)) ?_
    rw [uses_recordUses]
    by_cases hw : w = b
    · subst hw
      have huses : t.Uses u w ↔ r.contains u = true := by simp [h.uses_iff, hr]
      by_cases hu : r.contains u = true
      · simp [Row.mem_vars_iff, hu, h.inRange hr hu]
      · simp [Row.mem_vars_iff, hu, huses]
    · simp [hw]
  · have hsame : t₁.numRows = t.numRows := numRows_recordUses t b (fun _ => false) r.vars
    rw [hr]
    change t₁.numRows - 1 + 1 = t.numRows + 0
    omega
  · have hsame : t₁.numEntries = t.numEntries := numEntries_recordUses t b (fun _ => false) r.vars
    rw [hr]
    change t₁.numEntries - r.size + r.size = t.numEntries + 0
    omega

/-- Taking out the row of a basic variable: what is left is consistent and lacks exactly its
equation. -/
theorem Consistent.uninstall {t : Tableau} (h : t.Consistent) {b : Var} {r : Row}
    (hr : t.row? b = some r) :
    ∃ t', t.uninstall b = .ok (t', r) ∧ t'.Consistent ∧ Rewritten b none t t' ∧
      ∀ (M : Type) [AddCommGroup M] [Module ℚ M] (σ : Var → M),
        t.Solves σ ↔ t'.Solves σ ∧ σ b = r.eval σ := by
  obtain ⟨t', hok, hrewritten⟩ := h.rewritten_uninstall hr
  refine ⟨t', hok, hrewritten.consistent h (lt_of_row? hr) (fun _ ho => ?_) (fun _ _ ho => ?_),
    hrewritten, fun M _ _ σ =>
      solves_iff_of_row hrewritten.row_self hr (fun u hu => (hrewritten.row_of_ne hu).symm) σ⟩
  · cases ho
  · cases ho

/-! ## Definitions over any variables -/

/-- One term of a definition added to the row that the terms before it stand for. -/
def addExpanded (t : Tableau) (row : Row) (e : Var × ℚ) : Row :=
  match t.row? e.1 with
  | some r => row.addScaled e.2 r
  | none => row.add e.1 e.2

theorem addExpanded_of_nonbasic {t : Tableau} {e : Var × ℚ} (h : t.row? e.1 = none) (row : Row) :
    t.addExpanded row e = row.add e.1 e.2 := by
  rw [addExpanded, h]

theorem addExpanded_of_row {t : Tableau} {e : Var × ℚ} {r : Row} (h : t.row? e.1 = some r)
    (row : Row) : t.addExpanded row e = row.addScaled e.2 r := by
  rw [addExpanded, h]

theorem eval_expand {t : Tableau} {σ : Var → M} (h : t.Solves σ) (definition : List (Var × ℚ)) :
    (t.expand definition).eval σ = (definition.map fun e => e.2 • σ e.1).sum := by
  have hfold : ∀ (l : List (Var × ℚ)) (row : Row), (l.foldl t.addExpanded row).eval σ =
      row.eval σ + (l.map fun e => e.2 • σ e.1).sum := by
    intro l
    induction l with
    | nil => intro row; simp
    | cons e rest ih =>
      intro row
      rw [List.foldl_cons, ih, List.map_cons, List.sum_cons, ← add_assoc]
      congr 1
      cases hr : t.row? e.1 with
      | none => rw [addExpanded_of_nonbasic hr, Row.eval_add]
      | some r => rw [addExpanded_of_row hr, Row.eval_addScaled, ← h e.1 r hr]
  exact (hfold definition ∅).trans (by rw [Row.eval_empty, zero_add])

/-- An expanded definition mentions variables of the definition and of the rows it replaced. -/
theorem contains_expand {t : Tableau} {definition : List (Var × ℚ)} {v : Var}
    (hv : (t.expand definition).contains v = true) :
    ∃ e ∈ definition, (t.row? e.1 = none ∧ v = e.1) ∨
      ∃ r, t.row? e.1 = some r ∧ r.contains v = true := by
  have hfold : ∀ (l : List (Var × ℚ)) (row : Row),
      (l.foldl t.addExpanded row).contains v = true →
      row.contains v = true ∨ ∃ e ∈ l, (t.row? e.1 = none ∧ v = e.1) ∨
        ∃ r, t.row? e.1 = some r ∧ r.contains v = true := by
    intro l
    induction l with
    | nil => intro row h; exact .inl h
    | cons e rest ih =>
      intro row h
      rw [List.foldl_cons] at h
      rcases ih _ h with h | ⟨d, hd, h⟩
      · cases hr : t.row? e.1 with
        | none =>
          rw [addExpanded_of_nonbasic hr] at h
          simp only [Row.contains_iff, Row.coefficient_add] at h
          split at h
          · rename_i hve
            exact .inr ⟨e, List.mem_cons_self, .inl ⟨hr, hve⟩⟩
          · exact .inl (Row.contains_iff.mpr h)
        | some r =>
          rw [addExpanded_of_row hr] at h
          by_cases hrv : r.contains v = true
          · exact .inr ⟨e, List.mem_cons_self, .inr ⟨r, hr, hrv⟩⟩
          · refine .inl (Row.contains_iff.mpr ?_)
            rw [Row.contains_iff, not_not] at hrv
            rw [Row.contains_iff, ← Row.toFinsupp_apply, Row.toFinsupp_addScaled] at h
            simpa [hrv] using h
      · exact .inr ⟨d, List.mem_cons_of_mem e hd, h⟩
  rcases hfold definition ∅ hv with h | h
  · simp [Row.contains_iff] at h
  · exact h

/-- The tableau with room for a variable and for those of its definition. -/
def roomFor (t : Tableau) (b : Var) (definition : List (Var × ℚ)) : Tableau :=
  definition.foldl (fun t e => t.ensure e.1) (t.ensure b)

section RoomFor

variable {t : Tableau} {b : Var} {definition : List (Var × ℚ)}

/-- What making room for any variable keeps, making room for a definition keeps. -/
theorem roomFor_induction {P : Tableau → Prop} (ht : P t) (hstep : ∀ t v, P t → P (t.ensure v)) :
    P (t.roomFor b definition) := by
  unfold roomFor
  generalize hstart : t.ensure b = t₀
  have h₀ : P t₀ := hstart ▸ hstep t b ht
  clear hstart
  induction definition generalizing t₀ with
  | nil => exact h₀
  | cons e rest ih => exact ih (t₀.ensure e.1) (hstep t₀ e.1 h₀)

theorem row?_roomFor (u : Var) : (t.roomFor b definition).row? u = t.row? u :=
  roomFor_induction (P := fun t' => t'.row? u = t.row? u) rfl
    fun t' v h => (row?_ensure t' u v).trans h

theorem le_numVariables_roomFor : t.numVariables ≤ (t.roomFor b definition).numVariables := by
  refine roomFor_induction (P := fun t' => t.numVariables ≤ t'.numVariables) le_rfl ?_
  intro t' v h
  rw [numVariables_ensure]
  omega

theorem Consistent.roomFor (h : t.Consistent) : (t.roomFor b definition).Consistent :=
  roomFor_induction (P := Consistent) h fun _ v h => consistent_ensure h v

theorem lt_roomFor {v : Var} (hv : v = b ∨ v ∈ definition.map Prod.fst) :
    v.id < (t.roomFor b definition).numVariables := by
  have hgrows : ∀ (l : List (Var × ℚ)) (t₀ : Tableau),
      (v.id < t₀.numVariables ∨ v ∈ l.map Prod.fst) →
      v.id < (l.foldl (fun t e => t.ensure e.1) t₀).numVariables := by
    intro l
    induction l with
    | nil =>
      intro t₀ h
      simpa using h
    | cons e rest ih =>
      intro t₀ h
      apply ih
      rw [numVariables_ensure]
      rw [List.map_cons, List.mem_cons] at h
      rcases h with h | rfl | h
      · left
        omega
      · left
        omega
      · exact .inr h
  apply hgrows
  rw [numVariables_ensure]
  rcases hv with rfl | hv
  · left
    omega
  · exact .inr hv

theorem roomFor_of_lt (hb : b.id < t.numVariables)
    (hdef : ∀ e ∈ definition, e.1.id < t.numVariables) : t.roomFor b definition = t := by
  unfold roomFor
  rw [ensure_of_lt hb]
  induction definition with
  | nil => rfl
  | cons e rest ih =>
    rw [List.foldl_cons, ensure_of_lt (hdef e List.mem_cons_self)]
    apply ih
    intro d hd
    exact hdef d (List.mem_cons_of_mem e hd)

theorem expand_roomFor : (t.roomFor b definition).expand definition = t.expand definition := by
  unfold expand
  simp only [row?_roomFor]

end RoomFor

/-- Adding the row of a variable that has none and stands in none: the definition may repeat
variables, use basic ones and use new ones, and restricts the solutions by its equation. -/
theorem Consistent.defines {t : Tableau} (h : t.Consistent) {b : Var}
    {definition : List (Var × ℚ)} (hnone : t.row? b = none) (hej : t.isEjected b = false)
    (hsize : t.columnSize b = 0) (hself : (t.expand definition).contains b = false) :
    ∃ t', t.addRow b definition = .ok t' ∧ t'.Consistent ∧
      Rewritten b (some (t.expand definition)) (t.roomFor b definition) t' ∧
      ∀ (M : Type) [AddCommGroup M] [Module ℚ M] (σ : Var → M), t'.Solves σ ↔
        t.Solves σ ∧ σ b = (definition.map fun e => e.2 • σ e.1).sum := by
  have hunused : ∀ w s, t.row? w = some s → s.contains b = false := by
    intro w s hs
    rw [← Bool.not_eq_true]
    intro hsb
    have huse : t.Uses b w := h.uses_iff.mpr ⟨s, hs, hsb⟩
    exact SortedMap.size_eq_zero_iff.mp hsize w huse
  have hfree : ¬ (t.roomFor b definition).Mentions b := by
    rintro (⟨s, hs⟩ | ⟨w, s, hs, hsb⟩)
    · rw [row?_roomFor, hnone] at hs
      cases hs
    · rw [row?_roomFor] at hs
      rw [hunused w s hs] at hsb
      cases hsb
  have hexpand : ∀ v, (t.expand definition).contains v = true → v ≠ b ∧
      (t.roomFor b definition).row? v = none ∧ v.id < (t.roomFor b definition).numVariables := by
    intro v hv
    have hvb : v ≠ b := by
      rintro rfl
      rw [hself] at hv
      cases hv
    rw [row?_roomFor]
    obtain ⟨e, he, ⟨hr, rfl⟩ | ⟨r, hr, hrv⟩⟩ := contains_expand hv
    · exact ⟨hvb, hr, lt_roomFor (.inr (List.mem_map.mpr ⟨e, he, rfl⟩))⟩
    · exact ⟨hvb, h.nonbasic hr hrv, lt_of_lt_of_le (h.inRange hr hrv) le_numVariables_roomFor⟩
  obtain ⟨hcons, hrewritten, hsolves⟩ := h.roomFor.install (lt_roomFor (.inl rfl)) hfree hexpand
  refine ⟨_, ?_, hcons, hrewritten, ?_⟩
  · have hbasic : (t.ensure b).isBasic b = false := by
      rw [isBasic_eq_false_iff, row?_ensure, hnone]
    have hcolumn : (t.ensure b).columnSize b = 0 := by
      rw [columnSize, columnSet_ensure]
      exact hsize
    have hejected : (t.ensure b).isEjected b = false := hej
    have hroom : definition.foldl (fun t e => t.ensure e.1) (t.ensure b) =
        t.roomFor b definition := rfl
    rw [Tableau.addRow]
    simp only [hbasic, hejected, hcolumn, hroom, expand_roomFor, hself]
    exact hcons.verified
  · intro M _ _ σ
    have hroom : (t.roomFor b definition).Solves σ ↔ t.Solves σ := by
      simp only [Solves, row?_roomFor]
    rw [hsolves M σ, hroom]
    constructor
    · rintro ⟨hs, he⟩
      exact ⟨hs, he.trans (eval_expand hs definition)⟩
    · rintro ⟨hs, he⟩
      exact ⟨hs, he.trans (eval_expand hs definition).symm⟩

/-- Adding the row of a variable that the tableau does not mention, if there is room for all
variables. -/
theorem Consistent.addRow {t : Tableau} (h : t.Consistent) {b : Var}
    (definition : List (Var × ℚ)) (hb : b.id < t.numVariables) (hfree : ¬ t.Mentions b)
    (hej : t.isEjected b = false)
    (hdef : ∀ e ∈ definition, e.1 ≠ b ∧ e.1.id < t.numVariables) :
    ∃ t', t.addRow b definition = .ok t' ∧ t'.Consistent ∧ t'.numVariables = t.numVariables ∧
      t'.ejected = t.ejected ∧
      (∀ u, t'.row? u = if u = b then some (t.expand definition) else t.row? u) ∧
      ∀ (M : Type) [AddCommGroup M] [Module ℚ M] (σ : Var → M), t'.Solves σ ↔
        t.Solves σ ∧ σ b = (definition.map fun e => e.2 • σ e.1).sum := by
  have hnone : t.row? b = none := by
    cases hr : t.row? b with
    | none => rfl
    | some r => exact absurd (.inl ⟨r, hr⟩) hfree
  have hunused : ∀ w s, t.row? w = some s → s.contains b = false := by
    intro w s hs
    by_contra hne
    exact hfree (.inr ⟨w, s, hs, by simpa using hne⟩)
  have hsize : t.columnSize b = 0 := by
    refine SortedMap.size_eq_zero_iff.mpr fun w hw => ?_
    obtain ⟨s, hs, hsb⟩ := h.uses_iff.mp hw
    rw [hunused w s hs] at hsb
    cases hsb
  have hself : (t.expand definition).contains b = false := by
    rw [← Bool.not_eq_true]
    intro hb
    obtain ⟨e, he, ⟨_, rfl⟩ | ⟨r, hr, hrb⟩⟩ := contains_expand hb
    · exact (hdef e he).1 rfl
    · rw [hunused e.1 r hr] at hrb
      cases hrb
  obtain ⟨t', hok, hcons, hrewritten, hsolves⟩ := h.defines hnone hej hsize hself
  rw [roomFor_of_lt hb fun e he => (hdef e he).2] at hrewritten
  exact ⟨t', hok, hcons, hrewritten.room, hrewritten.ejected, hrewritten.row, hsolves⟩

/-- The tableau after it got the row `v = r`. -/
structure Gains (v : Var) (r : Row) (t t' : Tableau) : Prop where
  consistent : t'.Consistent
  room : t'.numVariables = t.numVariables
  ejected : t'.ejected = t.ejected
  row : t'.row? v = some (t.expand r.entries)
  row_of_ne : ∀ u, u ≠ v → t'.row? u = t.row? u
  mentions : ∀ u, t'.Mentions u → t.Mentions u ∨ u = v ∨ r.contains u = true
  solves_iff : ∀ (M : Type) [AddCommGroup M] [Module ℚ M] (σ : Var → M),
    t'.Solves σ ↔ t.Solves σ ∧ σ v = r.eval σ

/-- Adding a row for a variable that no row mentions, in terms of other variables. -/
theorem Consistent.gains {t : Tableau} (h : t.Consistent) {v : Var} {r : Row}
    (hv : v.id < t.numVariables) (hfree : ¬ t.Mentions v) (hej : t.isEjected v = false)
    (hr : ∀ u, r.contains u = true → u ≠ v ∧ u.id < t.numVariables) :
    ∃ t', t.addRow v r.entries = .ok t' ∧ Gains v r t t' := by
  obtain ⟨t', hok, hcons, hroom, hejected, hrow, hsolves⟩ := h.addRow r.entries
    hv hfree hej fun e he => hr e.1 (Row.contains_of_mem_entries he)
  have hcontains : ∀ w, (t.expand r.entries).contains w = true →
      t.Mentions w ∨ r.contains w = true := by
    intro w hw
    obtain ⟨e, he, ⟨_, rfl⟩ | ⟨q, hq, hqw⟩⟩ := contains_expand hw
    · exact .inr (Row.contains_of_mem_entries he)
    · exact .inl (.inr ⟨e.1, q, hq, hqw⟩)
  refine ⟨t', hok, hcons, hroom, hejected, by rw [hrow, if_pos rfl],
    fun u hu => by rw [hrow, if_neg hu], fun u hu => ?_, fun M _ _ σ => ?_⟩
  · rcases hu with ⟨q, hq⟩ | ⟨b, q, hq, hqu⟩
    · rw [hrow] at hq
      split at hq
      · exact .inr (.inl ‹_›)
      · exact .inl (.inl ⟨q, hq⟩)
    · rw [hrow] at hq
      split at hq
      · rw [← Option.some.inj hq] at hqu
        exact (hcontains u hqu).imp_right .inr
      · exact .inl (.inr ⟨b, q, hq, hqu⟩)
  · rw [Row.eval_eq_sum]
    exact hsolves M σ

/-- A definition over variables without rows stands for itself. -/
theorem expand_of_nonbasic {t : Tableau} {r : Row}
    (h : ∀ u, r.contains u = true → t.row? u = none) : t.expand r.entries = r := by
  have hfold : ∀ (l : List (Var × ℚ)) (q : Row), (∀ e ∈ l, t.row? e.1 = none) →
      l.foldl t.addExpanded q = l.foldl (fun row e => row.add e.1 e.2) q := by
    intro l
    induction l with
    | nil => intro q _; rfl
    | cons e rest ih =>
      intro q hl
      rw [List.foldl_cons, List.foldl_cons, addExpanded_of_nonbasic (hl e List.mem_cons_self)]
      exact ih _ fun d hd => hl d (List.mem_cons_of_mem e hd)
  refine (hfold _ _ fun e he => h e.1 ?_).trans (Row.ofList_entries r)
  exact Row.contains_of_mem_entries he

theorem erase_ejected_of_not {t : Tableau} {v : Var} (h : t.isEjected v = false) :
    { t with ejected := t.ejected.erase v } = t := by
  have hnone : t.ejected.get? v = none := by
    rw [isEjected, SortedMap.contains, Option.isSome_eq_false_iff, Option.isNone_iff_eq_none] at h
    exact h
  have herase : t.ejected.erase v = t.ejected := by
    refine SortedMap.ext_get? fun u => ?_
    rw [SortedMap.get?_erase]
    split
    · rename_i huv
      rw [huv, hnone]
    · rfl
  rw [herase]

/-! ## The empty tableau -/

@[simp] theorem numVariables_clear (t : Tableau) : t.clear.numVariables = t.numVariables :=
  Arena.size_map _ _

@[simp] theorem row?_clear (t : Tableau) (v : Var) : t.clear.row? v = none := by
  rw [row?_eq, clear, Arena.get?_map]
  cases t.byVar.get? v.id <;> rfl

/-- Of a cleared tableau only the room and the flag for checks are left. -/
theorem clear_congr {t t' : Tableau} (hroom : t'.numVariables = t.numVariables)
    (hchecks : t'.debugChecks = t.debugChecks) : t'.clear = t.clear := by
  have hbyVar : t'.byVar.map (fun _ => ({} : TableauEntry)) = t.byVar.map fun _ => {} := by
    refine Arena.ext_get? fun k => ?_
    rw [Arena.get?_map, Arena.get?_map]
    by_cases hk : k < t.byVar.size
    · obtain ⟨e, he⟩ := Arena.get?_isSome hk
      obtain ⟨e', he'⟩ := Arena.get?_isSome (hk.trans_eq hroom.symm)
      rw [he, he']
      rfl
    · have hle := Nat.le_of_not_lt hk
      rw [Arena.get?_eq_none_iff.mpr hle, Arena.get?_eq_none_iff.mpr (hroom.trans_le hle)]
  rw [clear, clear, hbyVar, hchecks]

theorem total_clear (t : Tableau) (w : Row → ℕ) : t.clear.total w = 0 :=
  Finset.sum_eq_zero fun i _ => by rw [row?_clear, Option.elim_none]

theorem consistent_clear (t : Tableau) : t.clear.Consistent where
  nonbasic hr := by
    rw [row?_clear] at hr
    cases hr
  inRange hr := by
    rw [row?_clear] at hr
    cases hr
  uses_iff {v b} := by
    constructor
    · intro hu
      unfold Uses columnSet clear at hu
      rw [Arena.get?_map] at hu
      cases hk : t.byVar.get? v.id <;> rw [hk] at hu <;> cases hu
    · rintro ⟨r, hr, _⟩
      rw [row?_clear] at hr
      cases hr
  numRows := (total_clear t _).symm
  numEntries := (total_clear t _).symm

end LinearArithmetic.Tableau
