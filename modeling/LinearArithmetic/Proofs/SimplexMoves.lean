import LinearArithmetic.Proofs.Model
import LinearArithmetic.Proofs.Pivot

/-!
# Moves of the simplex procedure

Moving a variable that is not basic shifts every basic variable of its column, so the values keep
solving the tableau. A move changes neither the tableau nor a bound nor a committed value, and it
marks every basic variable that it shifts.
-/

namespace LinearArithmetic

namespace Tableau

variable {M : Type} [AddCommGroup M] [Module ℚ M]

/-- The values after a variable that is not basic has moved by a distance. -/
def shift (t : Tableau) (σ : Var → M) (v : Var) (d : M) (u : Var) : M :=
  match t.row? u with
  | some r => σ u + r.coefficient v • d
  | none => if u = v then σ u + d else σ u

theorem shift_of_row {t : Tableau} {u : Var} {r : Row} (hr : t.row? u = some r) (σ : Var → M)
    (v : Var) (d : M) : t.shift σ v d u = σ u + r.coefficient v • d := by
  simp only [shift, hr]

theorem shift_of_none {t : Tableau} {u : Var} (hu : t.row? u = none) (σ : Var → M) (v : Var)
    (d : M) : t.shift σ v d u = if u = v then σ u + d else σ u := by
  simp only [shift, hu]

theorem shift_congr (t : Tableau) {σ τ : Var → M} {u : Var} (h : σ u = τ u) (v : Var) (d : M) :
    t.shift σ v d u = t.shift τ v d u := by
  rw [shift, shift, h]

/-- The rows that do not mention the variable that moves keep their values. -/
theorem Consistent.shift_of_not_mem {t : Tableau} (h : t.Consistent) {v u : Var}
    (hu : u ∉ t.column v) (huv : u ≠ v) (σ : Var → M) (d : M) : t.shift σ v d u = σ u := by
  cases hr : t.row? u with
  | none => rw [shift_of_none hr, if_neg huv]
  | some r =>
    have hzero : r.coefficient v = 0 := by
      by_contra hne
      exact hu (mem_column_iff.mpr (h.uses_iff.mpr ⟨r, hr, Row.contains_iff.mpr hne⟩))
    rw [shift_of_row hr, hzero, zero_smul, add_zero]

theorem Consistent.exists_row_of_mem_column {t : Tableau} (h : t.Consistent) {v b : Var}
    (hb : b ∈ t.column v) : ∃ r, t.row? b = some r := by
  obtain ⟨r, hr, _⟩ := h.uses_iff.mp (mem_column_iff.mp hb)
  exact ⟨r, hr⟩

/-- A move leads from solution to solution. -/
theorem Consistent.solves_shift {t : Tableau} (h : t.Consistent) {σ : Var → M} (hσ : t.Solves σ)
    (v : Var) (d : M) : t.Solves (t.shift σ v d) := by
  intro b r hr
  rw [shift_of_row hr, hσ b r hr]
  have hcongr : r.eval (t.shift σ v d) = r.eval (Function.update σ v (σ v + d)) := by
    refine Row.eval_congr fun u hu => ?_
    rw [shift_of_none (h.nonbasic hr hu)]
    by_cases huv : u = v
    · subst huv
      simp
    · simp [huv]
  rw [hcongr, Row.eval_update, add_sub_cancel_left]

end Tableau

namespace Simplex

/-- What moves and pivots leave alone: the room, the bounds and the committed values. -/
structure Frame (s s' : Simplex) : Prop where
  room : s'.model.numVariables = s.model.numVariables
  trail : s'.model.trail = s.model.trail
  safe : s'.model.safeOf = s.model.safeOf
  bounds : s'.model.boundOf = s.model.boundOf
  lemmas : s'.lemmas = s.lemmas
  rule : s'.rule = s.rule
  threshold : s'.blandThreshold = s.blandThreshold

theorem Frame.refl (s : Simplex) : Frame s s := ⟨rfl, rfl, rfl, rfl, rfl, rfl, rfl⟩

theorem Frame.trans {s₁ s₂ s₃ : Simplex} (h : Frame s₁ s₂) (k : Frame s₂ s₃) : Frame s₁ s₃ where
  room := k.room.trans h.room
  trail := k.trail.trans h.trail
  safe := k.safe.trans h.safe
  bounds := k.bounds.trans h.bounds
  lemmas := k.lemmas.trans h.lemmas
  rule := k.rule.trans h.rule
  threshold := k.threshold.trans h.threshold

/-- The tableau is consistent, and the model has every variable that it mentions. -/
structure Grounded (s : Simplex) : Prop where
  tableau : s.tableau.Consistent
  lt_of_mentions : ∀ {v}, s.tableau.Mentions v → v.id < s.model.numVariables

/-- Only the room of the model matters. -/
theorem Grounded.congr {s s' : Simplex} (h : s.Grounded) (ht : s'.tableau = s.tableau)
    (hroom : s'.model.numVariables = s.model.numVariables) : s'.Grounded where
  tableau := by
    rw [ht]
    exact h.tableau
  lt_of_mentions hv := by
    rw [ht] at hv
    rw [hroom]
    exact h.lt_of_mentions hv

theorem Grounded.currentRowValue_eq_ok {s : Simplex} (h : s.Grounded) {b : Var} {r : Row}
    (hr : s.tableau.row? b = some r) : s.currentRowValue b = .ok (r.eval s.model.valueOf) := by
  rw [currentRowValue, Tableau.row_eq_ok hr]
  exact Row.valueUnder_eq_ok fun u hu =>
    Model.value_eq_ok (h.lt_of_mentions (.inr ⟨b, r, hr, hu⟩))

/-- The tableau is consistent and has room for the variables of the model. -/
structure Coherent (s : Simplex) : Prop where
  tableau : s.tableau.Consistent
  room : s.tableau.numVariables = s.model.numVariables

theorem Coherent.lt_of_mentions {s : Simplex} (h : s.Coherent) {v : Var}
    (hv : s.tableau.Mentions v) : v.id < s.model.numVariables := by
  rw [← h.room]
  exact h.tableau.lt_of_mentions hv

theorem Coherent.grounded {s : Simplex} (h : s.Coherent) : s.Grounded :=
  ⟨h.tableau, h.lt_of_mentions⟩

theorem contains_mark {s : Simplex} {u v : Var} :
    (s.mark v).suspects.contains u = true ↔ u = v ∨ s.suspects.contains u = true := by
  rw [mark, SortedMap.contains, SortedMap.get?_insert]
  by_cases h : u = v
  · simp [h]
  · simp [h, SortedMap.contains]

theorem coefficient?_eq_ok {s : Simplex} {b v : Var} {r : Row} (hr : s.tableau.row? b = some r) :
    s.tableau.coefficient? b v = .ok (r.coefficient? v) := by
  rw [Tableau.coefficient?, Tableau.row_eq_ok hr]
  rfl

theorem Frame.mark (s : Simplex) (v : Var) : Frame s (s.mark v) :=
  ⟨rfl, rfl, rfl, rfl, rfl, rfl, rfl⟩

theorem Frame.assigned {s : Simplex} {v : Var} (hv : v.id < s.model.numVariables) (x : DeltaRat) :
    Frame s { s with model := s.model.assigned v x } :=
  ⟨Model.numVariables_assigned _ _ _, rfl, Model.safeOf_assigned hv x, Model.boundOf_assigned _ _ x,
    rfl, rfl, rfl⟩

/-- Some basic variables have been shifted along with a move of `v`, and marked. -/
structure Shifts (v : Var) (d : DeltaRat) (basics : List Var) (s s' : Simplex) : Prop where
  frame : Frame s s'
  tableau : s'.tableau = s.tableau
  values : ∀ u, s'.model.valueOf u =
    if u ∈ basics then s.tableau.shift s.model.valueOf v d u else s.model.valueOf u
  saved : ∀ u, u ∉ basics → s'.model.savedOf u = s.model.savedOf u
  suspects : ∀ u, s.suspects.contains u = true → s'.suspects.contains u = true
  marked : ∀ u, s'.model.valueOf u ≠ s.model.valueOf u → s'.suspects.contains u = true

theorem Shifts.nil (v : Var) (d : DeltaRat) (s : Simplex) : Shifts v d [] s s :=
  ⟨.refl s, rfl, by simp, fun _ _ => rfl, fun _ h => h, fun _ h => absurd rfl h⟩

theorem Shifts.cons {v b : Var} {d : DeltaRat} {rest : List Var} {s s₁ s' : Simplex}
    (h : Shifts v d [b] s s₁) (k : Shifts v d rest s₁ s') (hb : b ∉ rest) :
    Shifts v d (b :: rest) s s' where
  frame := h.frame.trans k.frame
  tableau := k.tableau.trans h.tableau
  values u := by
    rw [k.values, h.tableau]
    by_cases hub : u = b
    · subst hub
      rw [if_neg hb, h.values, if_pos (List.mem_singleton_self u), if_pos List.mem_cons_self]
    · have hsame : s₁.model.valueOf u = s.model.valueOf u := by
        rw [h.values, if_neg (mt List.mem_singleton.mp hub)]
      rw [s.tableau.shift_congr hsame, hsame]
      simp [hub]
  saved u hu := by
    rw [k.saved u fun h => hu (List.mem_cons_of_mem b h),
      h.saved u fun h => hu (List.mem_singleton.mp h ▸ List.mem_cons_self)]
  suspects u hu := k.suspects u (h.suspects u hu)
  marked u hu := by
    by_cases hsame : s₁.model.valueOf u = s.model.valueOf u
    · exact k.marked u (hsame ▸ hu)
    · exact k.suspects u (h.marked u hsame)

/-- Shifting the first of some basic variables. -/
theorem Grounded.exists_shifts {s : Simplex} (h : s.Grounded) (v : Var) (d : DeltaRat) {b : Var}
    {r : Row} (hr : s.tableau.row? b = some r) :
    ∃ s₁, s₁.Grounded ∧ Shifts v d [b] s s₁ ∧
      ∀ rest, s.shiftColumn v d (b :: rest) = s₁.shiftColumn v d rest := by
  have hlt : b.id < s.model.numVariables := h.lt_of_mentions (.inl ⟨r, hr⟩)
  cases hc : r.coefficient? v with
  | none =>
    have hzero : r.coefficient v = 0 := by rw [Row.coefficient, hc]; rfl
    refine ⟨s, h, ⟨.refl s, rfl, fun u => ?_, fun _ _ => rfl, fun _ hu => hu,
      fun u hu => absurd rfl hu⟩, fun rest => ?_⟩
    · split
      · rename_i hub
        rw [List.mem_singleton.mp hub, Tableau.shift_of_row hr, hzero, zero_smul, add_zero]
      · rfl
    · rw [shiftColumn, List.foldlM_cons, coefficient?_eq_ok hr, ok_bind, hc]
      rfl
  | some c =>
    let x := s.model.valueOf b + c • d
    let s₁ : Simplex := ({ s with model := s.model.assigned b x } : Simplex).mark b
    have hvalue : s₁.model.valueOf = Function.update s.model.valueOf b x :=
      Model.valueOf_assigned hlt x
    refine ⟨s₁, h.congr rfl (Model.numVariables_assigned _ _ _),
      ⟨(Frame.assigned hlt x).trans (.mark _ b), rfl, fun u => ?_, fun u hu => ?_, fun u hu => ?_,
        fun u hu => ?_⟩,
      fun rest => ?_⟩
    · rw [hvalue]
      by_cases hub : u = b
      · subst hub
        rw [Function.update_self, if_pos (List.mem_singleton_self u), Tableau.shift_of_row hr,
          Row.coefficient_eq_of_some hc]
      · rw [Function.update_of_ne hub, if_neg (mt List.mem_singleton.mp hub)]
    · exact Model.savedOf_assigned_of_ne hlt x fun hub => hu (List.mem_singleton.mpr hub)
    · exact contains_mark.mpr (.inr hu)
    · refine contains_mark.mpr (.inl ?_)
      by_contra hub
      rw [hvalue, Function.update_of_ne hub] at hu
      exact hu rfl
    · rw [shiftColumn, List.foldlM_cons, coefficient?_eq_ok hr, ok_bind, hc]
      simp only [Model.value_eq_ok hlt, ok_bind, DeltaRat.scale_eq_smul, Model.setValue_eq_ok hlt]
      rfl

/-- Shifting some basic variables along with a move of `v`. -/
theorem shiftColumn_spec {s : Simplex} (h : s.Grounded) (v : Var) (d : DeltaRat)
    (basics : List Var) (hb : ∀ b ∈ basics, ∃ r, s.tableau.row? b = some r)
    (hnodup : basics.Nodup) :
    ∃ s', s.shiftColumn v d basics = .ok s' ∧ Shifts v d basics s s' := by
  induction basics generalizing s with
  | nil => exact ⟨s, rfl, .nil v d s⟩
  | cons b rest ih =>
    obtain ⟨hbrest, hrest⟩ := List.nodup_cons.mp hnodup
    obtain ⟨r, hr⟩ := hb b List.mem_cons_self
    obtain ⟨s₁, h₁, hone, hok₁⟩ := h.exists_shifts v d hr
    obtain ⟨s', hok, hshifts⟩ := ih h₁
      (fun u hu => hone.tableau ▸ hb u (List.mem_cons_of_mem b hu)) hrest
    exact ⟨s', (hok₁ rest).trans hok, hone.cons hshifts hbrest⟩

/-- A variable that is not basic has moved, and the basic variables of its column with it. -/
structure Moved (v : Var) (x : DeltaRat) (s s' : Simplex) : Prop where
  frame : Frame s s'
  tableau : s'.tableau = s.tableau
  values : s'.model.valueOf = s.tableau.shift s.model.valueOf v (x - s.model.valueOf v)
  saved : ∀ u, u ≠ v → s.tableau.row? u = none → s'.model.savedOf u = s.model.savedOf u
  suspects : ∀ u, s.suspects.contains u = true → s'.suspects.contains u = true
  marked : ∀ u, u ≠ v → s'.model.valueOf u ≠ s.model.valueOf u → s'.suspects.contains u = true

/-- Moving a variable that is not basic. -/
theorem move_spec {s : Simplex} (h : s.Grounded) {v : Var} (hv : s.tableau.row? v = none)
    (hlt : v.id < s.model.numVariables) (x : DeltaRat) :
    ∃ s', s.move v x = .ok s' ∧ Moved v x s s' := by
  obtain ⟨s₁, hok, hshifts⟩ := shiftColumn_spec h v (x - s.model.valueOf v) (s.tableau.column v)
    (fun b hb => h.tableau.exists_row_of_mem_column hb) (SortedMap.nodup_keys _)
  have hlt₁ : v.id < s₁.model.numVariables := by rwa [hshifts.frame.room]
  have hvalue : (s₁.model.assigned v x).valueOf = Function.update s₁.model.valueOf v x :=
    Model.valueOf_assigned hlt₁ x
  refine ⟨{ s₁ with model := s₁.model.assigned v x }, ?_, hshifts.frame.trans (.assigned hlt₁ x),
    hshifts.tableau, funext fun u => ?_, fun u huv hu => ?_, hshifts.suspects, fun u huv hu => ?_⟩
  · rw [move, Tableau.isBasic_eq_false_iff.mpr hv, Model.value_eq_ok hlt]
    simp only [Bool.false_eq_true, if_false, pure_eq_ok, ok_bind, hok, Model.setValue_eq_ok hlt₁]
  · rw [hvalue]
    by_cases huv : u = v
    · subst huv
      rw [Function.update_self, Tableau.shift_of_none hv, if_pos rfl, add_sub_cancel]
    · rw [Function.update_of_ne huv, hshifts.values]
      split
      · rfl
      · exact (h.tableau.shift_of_not_mem ‹_› huv _ _).symm
  · rw [Model.savedOf_assigned_of_ne hlt₁ x huv]
    refine hshifts.saved u fun hcol => ?_
    obtain ⟨r, hr⟩ := h.tableau.exists_row_of_mem_column hcol
    rw [hu] at hr
    cases hr
  · refine hshifts.marked u ?_
    rwa [hvalue, Function.update_of_ne huv] at hu

end Simplex

end LinearArithmetic
