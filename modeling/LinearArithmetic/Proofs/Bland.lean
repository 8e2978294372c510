import LinearArithmetic.Proofs.Repair

/-!
# Bland's rule

Under Bland's rule a variable that leaves the basis does not come back before one with a larger
number has moved. So a run of pivots in which only the first `n` variables take part is shorter
than `3 ^ n`: the last of them comes in at most once before it leaves, and never after that. For
the same reason no run of pivots is gone through twice in a row, and none comes back to a basis
with the values that it had there. A basis may well come up again with other values.
-/

namespace LinearArithmetic.Simplex

/-! ## Runs of pivots -/

/-- What every pivot needs and keeps: the values solve the tableau, and every variable that
violates a bound is marked. -/
structure Steady (s : Simplex) : Prop where
  grounded : s.Grounded
  solves : s.tableau.Solves s.model.valueOf
  ordered : s.model.Ordered
  queued : s.Queued

theorem Pivots.steady {bland : Bool} {s s' : Simplex} {b e : Var} (h : Pivots bland s s' b e)
    (hs : s.Steady) : s'.Steady :=
  ⟨h.grounded, h.solves, hs.ordered.congr h.frame.bounds, h.queued hs.ordered hs.queued⟩

/-- A run of pivots under Bland's rule; each is noted by the variables that leave and enter. -/
inductive BlandRun : Simplex → List (Var × Var) → Simplex → Prop
  | nil (s : Simplex) : BlandRun s [] s
  | cons {s s' t : Simplex} {b e : Var} {w : List (Var × Var)} (h : Pivots true s s' b e)
      (rest : BlandRun s' w t) : BlandRun s ((b, e) :: w) t

theorem BlandRun.split {s t : Simplex} {w₁ w₂ : List (Var × Var)} (h : BlandRun s (w₁ ++ w₂) t) :
    ∃ u, BlandRun s w₁ u ∧ BlandRun u w₂ t := by
  induction w₁ generalizing s with
  | nil => exact ⟨s, .nil s, h⟩
  | cons p w₁ ih =>
    cases h with
    | cons hp rest =>
      obtain ⟨u, h₁, h₂⟩ := ih rest
      exact ⟨u, .cons hp h₁, h₂⟩

/-- A run, split at one of its pivots. -/
theorem BlandRun.split_cons {s t : Simplex} {w₁ w₂ : List (Var × Var)} {b e : Var}
    (h : BlandRun s (w₁ ++ (b, e) :: w₂) t) :
    ∃ s₁ s₂, BlandRun s w₁ s₁ ∧ Pivots true s₁ s₂ b e ∧ BlandRun s₂ w₂ t := by
  obtain ⟨s₁, h₁, h₂⟩ := h.split
  cases h₂ with
  | cons hp rest => exact ⟨s₁, _, h₁, hp, rest⟩

section Run

variable {s t : Simplex} {w : List (Var × Var)}

theorem BlandRun.steady (h : BlandRun s w t) (hs : s.Steady) : t.Steady := by
  induction h with
  | nil s => exact hs
  | cons hp _ ih => exact ih (hp.steady hs)

theorem BlandRun.rebased (h : BlandRun s w t) : Rebased s.tableau t.tableau := by
  induction h with
  | nil s => exact .refl _
  | cons hp _ ih => exact hp.rebased.trans ih

theorem BlandRun.bounds (h : BlandRun s w t) : t.model.boundOf = s.model.boundOf := by
  induction h with
  | nil s => rfl
  | cons hp _ ih => rw [ih, hp.frame.bounds]

/-- A basic variable stays basic until it leaves. -/
theorem BlandRun.basic (h : BlandRun s w t) {v : Var} (hv : s.tableau.row? v ≠ none)
    (hw : ∀ p ∈ w, p.1 ≠ v) : t.tableau.row? v ≠ none := by
  induction h with
  | nil s => exact hv
  | cons hp _ ih =>
    refine ih (fun hnone => ?_) fun p hp => hw p (List.mem_cons_of_mem _ hp)
    rcases ((hp.nonbasic v).mp hnone).2 with rfl | h
    · exact hw _ List.mem_cons_self rfl
    · exact hv h

/-- A variable that is not basic stays so, and keeps its value, until it enters. -/
theorem BlandRun.resting (h : BlandRun s w t) {v : Var} (hv : s.tableau.row? v = none)
    (hw : ∀ p ∈ w, p.2 ≠ v) :
    t.tableau.row? v = none ∧ t.model.valueOf v = s.model.valueOf v := by
  induction h with
  | nil s => exact ⟨hv, rfl⟩
  | cons hp _ ih =>
    have hne := (hw _ List.mem_cons_self).symm
    obtain ⟨hnone, hval⟩ := ih ((hp.nonbasic v).mpr ⟨hne, .inr hv⟩)
      fun p hp => hw p (List.mem_cons_of_mem _ hp)
    exact ⟨hnone, by rw [hval, hp.rests v hne hv]⟩

/-- The variables of a pivot are in range. -/
theorem Pivots.lt {bland : Bool} {b e : Var} (h : Pivots bland s t b e) (hs : s.Grounded) :
    b.id < s.tableau.numVariables ∧ e.id < s.tableau.numVariables := by
  obtain ⟨r, side, bound, hc, _⟩ := h.chosen
  exact ⟨Tableau.lt_of_row? hc.row, hs.tableau.inRange hc.row hc.entry⟩

/-- The entering variable was not basic. -/
theorem Pivots.row?_entering {bland : Bool} {b e : Var} (h : Pivots bland s t b e)
    (hs : s.Grounded) : s.tableau.row? e = none := by
  obtain ⟨r, side, bound, hc, _⟩ := h.chosen
  exact hs.tableau.nonbasic hc.row hc.entry

/-- The leaving variable was basic. -/
theorem Pivots.row?_leaving {bland : Bool} {b e : Var} (h : Pivots bland s t b e) :
    s.tableau.row? b ≠ none := by
  obtain ⟨r, side, bound, hc, _⟩ := h.chosen
  rw [hc.row]
  exact Option.some_ne_none r

theorem Pivots.ne {bland : Bool} {b e : Var} (h : Pivots bland s t b e) (hs : s.Grounded) :
    b ≠ e := by
  rintro rfl
  exact h.row?_leaving (h.row?_entering hs)

theorem BlandRun.lt (h : BlandRun s w t) (hs : s.Steady) :
    ∀ p ∈ w, p.1.id < s.tableau.numVariables ∧ p.2.id < s.tableau.numVariables := by
  induction h with
  | nil s => exact fun p hp => absurd hp List.not_mem_nil
  | cons hp _ ih =>
    intro q hq
    rcases List.mem_cons.mp hq with rfl | hq
    · exact hp.lt hs.grounded
    · rw [← hp.rebased.room]
      exact ih (hp.steady hs) q hq

end Run

/-! ## No variable comes back first -/

/-- A variable is not chosen to leave in one state and to enter in another, at the value to which
it had left, if the larger variables that are not basic have the same values in both. Which of the
states comes first does not matter. -/
theorem Chosen.not_enters {s₁ s₃ : Simplex} {v e b : Var} {r₁ r : Row} {side₁ side : Side}
    {bound₁ bound : Bound} (hc₁ : Chosen true s₁ v e r₁ side₁ bound₁)
    (hc : Chosen true s₃ b v r side bound) (hs₁ : s₁.Steady) (hs₃ : s₃.Steady)
    (hbounds : s₃.model.boundOf = s₁.model.boundOf)
    (hsolves : s₃.tableau.Solves s₁.model.valueOf) (hbv : b.id < v.id)
    (hvalv : s₃.model.valueOf v = bound₁.value)
    (hlarger : ∀ u : Var, v.id < u.id → s₃.tableau.row? u = none →
      s₃.model.valueOf u = s₁.model.valueOf u) : False := by
  -- when `v` leaves, all smaller variables are within their bounds
  have hwithin : ∀ u : Var, u.id < v.id → s₁.model.Within u := hc₁.smallest rfl hs₁.queued
  -- term by term, the row in which `v` enters stands no better there than where `v` leaves
  have hrow : side.Inside (r.eval s₁.model.valueOf) (r.eval s₃.model.valueOf) := by
    apply inside_eval
    intro f hf
    have hmem := Row.mem_entries_iff.mp hf
    have hcoef : r.coefficient f.1 = f.2 := Row.coefficient_eq_of_some hmem
    have hne : f.2 ≠ 0 := Row.ne_zero_of_coefficient? hmem
    rcases Nat.lt_trichotomy f.1.id v.id with hlt | heq | hgt
    · -- a smaller variable is blocked, by a bound that it respects where `v` leaves
      obtain ⟨block, hblock⟩ := hc.first rfl f hf hlt
      obtain ⟨hblock, hin⟩ := blocking?_eq_some hblock
      exact inside_smul hne (hwithin f.1 hlt _ block (by rwa [← hbounds])) hin
    · -- `v` is free to move away from the bound on which it rests
      have hfv : f.1 = v := Var.eq_of_id_eq heq
      have hfree := hc.free
      rw [← hfv, hcoef] at hfree
      rw [hfv]
      have hside : side₁ = (moveSide side f.2).opposite := by
        refine (Side.eq_or_eq_opposite side₁ (moveSide side f.2)).resolve_left fun h => ?_
        have hbeyond := blocking?_eq_none hfree (b := bound₁) (by
          rw [hbounds, ← h, hfv]
          exact hc₁.bounded)
        rw [hfv, hvalv, Side.beyond_eq_false_iff.mpr (Side.inside_refl _ _)] at hbeyond
        cases hbeyond
      refine inside_smul hne (x := bound₁.value) ?_ ?_
      · have hbeyond := hc₁.beyond
        rw [hside] at hbeyond
        exact Side.inside_of_beyond hbeyond
      · rw [hvalv]
        exact Side.inside_refl _ _
    · -- a larger variable has the same value in both states
      have hnone : s₃.tableau.row? f.1 = none :=
        hs₃.grounded.tableau.nonbasic hc.row (Row.contains_iff.mpr (hcoef ▸ hne))
      rw [hlarger f.1 hgt hnone]
      exact Side.inside_refl _ _
  -- so `b`, which is smaller, would be out of its bounds where `v` leaves
  rw [← hsolves b r hc.row, ← hs₃.solves b r hc.row] at hrow
  have hbounded := hc.bounded
  rw [hbounds] at hbounded
  have hin := Side.inside_trans (hwithin b hbv side bound hbounded) hrow
  rw [← Side.beyond_eq_false_iff, hc.beyond] at hin
  cases hin

/-- The variable in whose row another enters is not that one. -/
theorem Pivots.id_lt {s s' : Simplex} {bland : Bool} {b v : Var} (h : Pivots bland s s' b v)
    (hs : s.Steady) (hle : b.id ≤ v.id) : b.id < v.id :=
  Nat.lt_of_le_of_ne hle fun hid => h.ne hs.grounded (Var.eq_of_id_eq hid)

/-- A variable that takes no part in a run, and is not basic after it, has kept its value. -/
theorem BlandRun.untouched {s t : Simplex} {w : List (Var × Var)} (h : BlandRun s w t) {u : Var}
    (hw : ∀ p ∈ w, p.1 ≠ u ∧ p.2 ≠ u) (hu : t.tableau.row? u = none) :
    t.model.valueOf u = s.model.valueOf u := by
  have hnone : s.tableau.row? u = none := by
    by_contra hbasic
    exact h.basic hbasic (fun p hp => (hw p hp).1) hu
  exact (h.resting hnone fun p hp => (hw p hp).2).2

/-- No pivot moves a variable that is larger than all that it names. -/
theorem ne_of_le {w : List (Var × Var)} {v u : Var}
    (hle : ∀ p ∈ w, p.1.id ≤ v.id ∧ p.2.id ≤ v.id) (hu : v.id < u.id) :
    ∀ p ∈ w, p.1 ≠ u ∧ p.2 ≠ u := by
  intro p hp
  have hp := hle p hp
  constructor
  · rintro rfl
    omega
  · rintro rfl
    omega

/-- A variable that has left does not enter again while no larger one has moved. -/
theorem not_returns {s₁ s₂ s₃ s₄ : Simplex} {w : List (Var × Var)} {v e b : Var}
    (hs : s₁.Steady) (hleave : Pivots true s₁ s₂ v e) (hrun : BlandRun s₂ w s₃)
    (henter : Pivots true s₃ s₄ b v) (hw : ∀ p ∈ w, p.2 ≠ v)
    (hle : ∀ p ∈ (v, e) :: w ++ [(b, v)], p.1.id ≤ v.id ∧ p.2.id ≤ v.id) : False := by
  obtain ⟨r₁, side₁, bound₁, hc₁, hval₁⟩ := hleave.chosen
  obtain ⟨r, side, bound, hc, _⟩ := henter.chosen
  have hs₃ : s₃.Steady := hrun.steady (hleave.steady hs)
  have hall : BlandRun s₁ ((v, e) :: w) s₃ := .cons hleave hrun
  -- between the two pivots `v` rests at the bound that it had violated
  obtain ⟨_, hvalv⟩ := hrun.resting
    ((hleave.nonbasic v).mpr ⟨hleave.ne hs.grounded, .inl rfl⟩) hw
  rw [hval₁] at hvalv
  apply hc₁.not_enters hc hs hs₃ hall.bounds ((hall.rebased.solves_iff _ _).mpr hs.solves)
    (henter.id_lt hs₃ (hle (b, v) (by simp)).1) hvalv
  intro u hu hnone
  apply hall.untouched _ hnone
  intro p hp
  exact ne_of_le hle hu p (List.mem_append_left _ hp)

/-! ## Counting pivots -/

/-- The first pivot of a run in which a variable takes the part that `f` names. -/
theorem exists_first {w : List (Var × Var)} {f : Var × Var → Var} {v : Var}
    (hw : ¬ ∀ p ∈ w, f p ≠ v) :
    ∃ w₁ b e w₂, w = w₁ ++ (b, e) :: w₂ ∧ f (b, e) = v ∧ ∀ p ∈ w₁, f p ≠ v := by
  cases hfind : w.find? fun p => f p = v with
  | none => exact absurd (fun p hp => by simpa using List.find?_eq_none.mp hfind p hp) hw
  | some p =>
    obtain ⟨hpv, w₁, w₂, rfl, hfirst⟩ := List.find?_eq_some_iff_append.mp hfind
    exact ⟨w₁, p.1, p.2, w₂, rfl, by simpa using hpv, fun q hq => by simpa using hfirst q hq⟩

/-- A basic variable does not enter before it has left. -/
theorem BlandRun.not_enters {s t : Simplex} {w : List (Var × Var)} (h : BlandRun s w t)
    (hs : s.Steady) {v : Var} (hv : s.tableau.row? v ≠ none) (hw : ∀ p ∈ w, p.1 ≠ v) :
    ∀ p ∈ w, p.2 ≠ v := by
  rintro ⟨b, e⟩ hp rfl
  obtain ⟨w₁, w₂, rfl⟩ := List.append_of_mem hp
  obtain ⟨s₁, s₂, h₁, hpivot, _⟩ := h.split_cons
  have hbasic := h₁.basic hv fun q hq => hw q (List.mem_append_left _ hq)
  exact hbasic (hpivot.row?_entering (h₁.steady hs).grounded)

/-- A variable that is not basic does not leave before it has entered. -/
theorem BlandRun.not_leaves {s t : Simplex} {w : List (Var × Var)} (h : BlandRun s w t) {v : Var}
    (hv : s.tableau.row? v = none) (hw : ∀ p ∈ w, p.2 ≠ v) : ∀ p ∈ w, p.1 ≠ v := by
  rintro ⟨b, e⟩ hp rfl
  obtain ⟨w₁, w₂, rfl⟩ := List.append_of_mem hp
  obtain ⟨s₁, s₂, h₁, hpivot, _⟩ := h.split_cons
  obtain ⟨hnone, _⟩ := h₁.resting hv fun q hq => hw q (List.mem_append_left _ hq)
  exact hpivot.row?_leaving hnone

/-- The last variable does not come back after it has left. -/
theorem BlandRun.stays_out {s₁ s₂ t : Simplex} {w : List (Var × Var)} {v e : Var}
    (h : BlandRun s₂ w t) (hs : s₁.Steady) (hleave : Pivots true s₁ s₂ v e)
    (hle : ∀ p ∈ (v, e) :: w, p.1.id ≤ v.id ∧ p.2.id ≤ v.id) : ∀ p ∈ w, p.2 ≠ v := by
  by_contra henters
  obtain ⟨w₁, b, e', w₂, rfl, rfl, hfirst⟩ := exists_first henters
  obtain ⟨s₃, s₄, h₁, henter, _⟩ := h.split_cons
  apply not_returns hs hleave h₁ henter hfirst
  intro q hq
  apply hle
  simp only [List.cons_append, List.mem_cons, List.mem_append, List.not_mem_nil, or_false] at hq ⊢
  tauto

/-- Runs of the variables before `v` have fewer than `m` pivots. -/
def ShortBefore (v : Var) (m : Nat) : Prop :=
  ∀ (s t : Simplex) (w : List (Var × Var)), BlandRun s w t → s.Steady →
    (∀ p ∈ w, p.1.id < v.id ∧ p.2.id < v.id) → w.length < m

section Last

variable {v : Var} {m : Nat} (hm : ShortBefore v m)

include hm

/-- A run in which the last variable takes no part. -/
theorem ShortBefore.length_lt {s t : Simplex} {w : List (Var × Var)} (h : BlandRun s w t)
    (hs : s.Steady) (hw : ∀ p ∈ w, p.1.id ≤ v.id ∧ p.2.id ≤ v.id) (hleave : ∀ p ∈ w, p.1 ≠ v)
    (henter : ∀ p ∈ w, p.2 ≠ v) :
    w.length < m :=
  hm s t w h hs fun p hp =>
    ⟨Nat.lt_of_le_of_ne (hw p hp).1 fun h => hleave p hp (Var.eq_of_id_eq h),
      Nat.lt_of_le_of_ne (hw p hp).2 fun h => henter p hp (Var.eq_of_id_eq h)⟩

/-- A run in which the last variable does not leave: it enters once at most. -/
theorem ShortBefore.length_lt_of_stays {s t : Simplex} {w : List (Var × Var)}
    (h : BlandRun s w t) (hs : s.Steady) (hw : ∀ p ∈ w, p.1.id ≤ v.id ∧ p.2.id ≤ v.id)
    (hleave : ∀ p ∈ w, p.1 ≠ v) : w.length < 2 * m := by
  by_cases henter : ∀ p ∈ w, p.2 ≠ v
  · have := hm.length_lt h hs hw hleave henter
    omega
  · obtain ⟨w₁, b, e, w₂, rfl, rfl, hfirst⟩ := exists_first henter
    obtain ⟨s₁, s₂, h₁, hp, h₂⟩ := h.split_cons
    have hs₁ := h₁.steady hs
    have hmem₁ : ∀ q ∈ w₁, q ∈ w₁ ++ (b, e) :: w₂ := fun q hq => List.mem_append_left _ hq
    have hmem₂ : ∀ q ∈ w₂, q ∈ w₁ ++ (b, e) :: w₂ := fun q hq =>
      List.mem_append_right _ (List.mem_cons_of_mem _ hq)
    have hlen₁ : w₁.length < m := hm.length_lt h₁ hs
      (fun q hq => hw q (hmem₁ q hq)) (fun q hq => hleave q (hmem₁ q hq)) hfirst
    -- once it has entered it is basic, and stays so
    have hbasic := h₂.not_enters (hp.steady hs₁) (fun hnone => ((hp.nonbasic e).mp hnone).1 rfl)
      fun q hq => hleave q (hmem₂ q hq)
    have hlen₂ : w₂.length < m := hm.length_lt h₂ (hp.steady hs₁)
      (fun q hq => hw q (hmem₂ q hq)) (fun q hq => hleave q (hmem₂ q hq)) hbasic
    simp only [List.length_append, List.length_cons]
    omega

/-- A run in which the last variable takes part: once it has left it does not come back. -/
theorem ShortBefore.length_lt_of_le {s t : Simplex} {w : List (Var × Var)} (h : BlandRun s w t)
    (hs : s.Steady) (hw : ∀ p ∈ w, p.1.id ≤ v.id ∧ p.2.id ≤ v.id) : w.length < 3 * m := by
  by_cases hleave : ∀ p ∈ w, p.1 ≠ v
  · have := hm.length_lt_of_stays h hs hw hleave
    omega
  · obtain ⟨w₁, b, e, w₂, rfl, rfl, hfirst⟩ := exists_first hleave
    obtain ⟨s₁, s₂, h₁, hp, h₂⟩ := h.split_cons
    have hs₁ := h₁.steady hs
    have hmem₁ : ∀ q ∈ w₁, q ∈ w₁ ++ (b, e) :: w₂ := fun q hq => List.mem_append_left _ hq
    have hmem₂ : ∀ q ∈ w₂, q ∈ w₁ ++ (b, e) :: w₂ := fun q hq =>
      List.mem_append_right _ (List.mem_cons_of_mem _ hq)
    have hlen₁ : w₁.length < 2 * m :=
      hm.length_lt_of_stays h₁ hs (fun q hq => hw q (hmem₁ q hq)) hfirst
    -- once it has left it stays out
    have henter := h₂.stays_out hs₁ hp fun q hq => hw q (List.mem_append_right _ hq)
    have hnone := (hp.nonbasic b).mpr ⟨hp.ne hs₁.grounded, .inl rfl⟩
    have hlen₂ : w₂.length < m := hm.length_lt h₂ (hp.steady hs₁)
      (fun q hq => hw q (hmem₂ q hq)) (h₂.not_leaves hnone henter) henter
    simp only [List.length_append, List.length_cons]
    omega

end Last

/-- A run of the first `n` variables has fewer than `3 ^ n` pivots. -/
theorem shortBefore (n : Nat) : ShortBefore ⟨n⟩ (3 ^ n) := by
  induction n with
  | zero =>
    intro s t w h hs hw
    cases w with
    | nil => exact Nat.one_pos
    | cons p w => exact absurd (hw p List.mem_cons_self).1 (Nat.not_lt_zero _)
  | succ n ih =>
    intro s t w h hs hw
    rw [Nat.pow_succ, Nat.mul_comm]
    exact ih.length_lt_of_le h hs fun p hp =>
      ⟨Nat.le_of_lt_succ (hw p hp).1, Nat.le_of_lt_succ (hw p hp).2⟩

/-! ## No cycles -/

theorem BlandRun.snoc {s t u : Simplex} {w : List (Var × Var)} {b e : Var} (h : BlandRun s w t)
    (hp : Pivots true t u b e) : BlandRun s (w ++ [(b, e)]) u := by
  induction h with
  | nil s => exact .cons hp (.nil u)
  | cons hq _ ih => exact .cons hq (ih hp)

theorem BlandRun.append {s t u : Simplex} {w w' : List (Var × Var)} (h : BlandRun s w t)
    (h' : BlandRun t w' u) : BlandRun s (w ++ w') u := by
  induction h with
  | nil s => exact h'
  | cons hp _ ih => exact .cons hp (ih h')

/-- The largest variable that takes part in a run. -/
theorem exists_largest {w : List (Var × Var)} (hw : w ≠ []) :
    ∃ v : Var, (∃ p ∈ w, p.1 = v ∨ p.2 = v) ∧ ∀ p ∈ w, p.1.id ≤ v.id ∧ p.2.id ≤ v.id := by
  have hne : w.map Prod.fst ++ w.map Prod.snd ≠ [] := by simpa using hw
  obtain ⟨v, hv⟩ := Option.ne_none_iff_exists'.mp fun hnone =>
    hne (List.argmax_eq_none (f := Var.id).mp hnone)
  refine ⟨v, ?_, fun p hp => ⟨List.le_of_mem_argmax ?_ hv, List.le_of_mem_argmax ?_ hv⟩⟩
  · rcases List.mem_append.mp (List.argmax_mem hv) with hmem | hmem
    · obtain ⟨p, hp, rfl⟩ := List.mem_map.mp hmem
      exact ⟨p, hp, .inl rfl⟩
    · obtain ⟨p, hp, rfl⟩ := List.mem_map.mp hmem
      exact ⟨p, hp, .inr rfl⟩
  · exact List.mem_append_left _ (List.mem_map_of_mem hp)
  · exact List.mem_append_right _ (List.mem_map_of_mem hp)

section Cycles

variable {s t : Simplex} {w : List (Var × Var)}

/-- After the largest variable of a run has left, it is not basic any more, and rests at the value
to which it left. -/
theorem BlandRun.rests_after {s' : Simplex} {v e : Var} (h : BlandRun s' w t) (hs : s.Steady)
    (hleave : Pivots true s s' v e)
    (hle : ∀ p ∈ (v, e) :: w, p.1.id ≤ v.id ∧ p.2.id ≤ v.id) :
    (∀ p ∈ w, p.1 ≠ v) ∧ t.tableau.row? v = none ∧ t.model.valueOf v = s'.model.valueOf v := by
  have hnone := (hleave.nonbasic v).mpr ⟨hleave.ne hs.grounded, .inl rfl⟩
  have hout := h.stays_out hs hleave hle
  exact ⟨h.not_leaves hnone hout, h.resting hnone hout⟩

/-- No run of pivots is gone through twice in a row. -/
theorem BlandRun.not_twice (h : BlandRun s (w ++ w) t) (hs : s.Steady) : w = [] := by
  by_contra hw
  obtain ⟨v, hv, hle⟩ := exists_largest hw
  have hle₂ : ∀ p ∈ w ++ w, p.1.id ≤ v.id ∧ p.2.id ≤ v.id := by
    intro p hp
    exact hle p ((List.mem_append.mp hp).elim id id)
  by_cases hleaves : ∃ p ∈ w, p.1 = v
  · -- the largest variable leaves, and so cannot leave once more
    obtain ⟨⟨b, e⟩, hp, rfl⟩ := hleaves
    obtain ⟨w₁, w₂, hsplit⟩ := List.append_of_mem hp
    rw [hsplit, List.append_assoc, List.cons_append, ← hsplit] at h hle₂
    obtain ⟨s₁, s₂, h₁, hleave, h₂⟩ := h.split_cons
    obtain ⟨hstays, _⟩ := h₂.rests_after (h₁.steady hs) hleave fun q hq =>
      hle₂ q (List.mem_append_right _ hq)
    exact hstays _ (List.mem_append_right _ hp) rfl
  · -- it only enters, stays basic, and so cannot enter once more
    push Not at hleaves
    obtain ⟨⟨b, e⟩, hp, hpv⟩ := hv
    obtain rfl : e = v := hpv.resolve_left (hleaves _ hp)
    obtain ⟨w₁, w₂, hsplit⟩ := List.append_of_mem hp
    rw [hsplit, List.append_assoc, List.cons_append, ← hsplit] at h
    obtain ⟨s₁, s₂, h₁, henter, h₂⟩ := h.split_cons
    have hbasic : s₂.tableau.row? e ≠ none := fun hnone => ((henter.nonbasic e).mp hnone).1 rfl
    refine h₂.not_enters (henter.steady (h₁.steady hs)) hbasic ?_ _
      (List.mem_append_right _ hp) rfl
    intro q hq
    apply hleaves
    rw [hsplit] at hq ⊢
    simp only [List.mem_append, List.mem_cons] at hq ⊢
    tauto

/-- No run of pivots comes back to its basis with the values that the variables outside of the
basis had there. -/
theorem BlandRun.not_restored (h : BlandRun s w t) (hs : s.Steady) (hw : w ≠ [])
    (hbasis : ∀ u, t.tableau.row? u = none ↔ s.tableau.row? u = none) :
    ∃ u, s.tableau.row? u = none ∧ t.model.valueOf u ≠ s.model.valueOf u := by
  obtain ⟨v, hv, hle⟩ := exists_largest hw
  by_contra! hsame
  by_cases hleaves : ∃ p ∈ w, p.1 = v
  · obtain ⟨⟨b, e⟩, hp, rfl⟩ := hleaves
    obtain ⟨w₁, w₂, rfl⟩ := List.append_of_mem hp
    obtain ⟨s₁, s₂, h₁, hleave, h₂⟩ := h.split_cons
    have hs₁ := h₁.steady hs
    obtain ⟨_, hnone, hrests⟩ := h₂.rests_after hs₁ hleave fun q hq =>
      hle q (List.mem_append_right _ hq)
    -- the largest variable is not basic at the end, so it was not at the start and has entered
    have hstart := (hbasis b).mp hnone
    have henters : ¬ ∀ q ∈ w₁, q.2 ≠ b := fun hnot =>
      hleave.row?_leaving (h₁.resting hstart hnot).1
    obtain ⟨w₀, b', e', w₁', rfl, he', hfirst⟩ := exists_first henters
    obtain rfl : b = e' := he'.symm
    obtain ⟨s₃, s₄, h₀, henter, h₁'⟩ := h₁.split_cons
    obtain ⟨r₁, side₁, bound₁, hc₁, hval₁⟩ := hleave.chosen
    obtain ⟨r, side, bound, hc, _⟩ := henter.chosen
    -- it enters at the value to which it leaves
    have hvalv : s₃.model.valueOf b = bound₁.value := by
      rw [(h₀.resting hstart hfirst).2, ← hsame b hstart, hrests, hval₁]
    have hbetween : BlandRun s₃ ((b', b) :: w₁') s₁ := .cons henter h₁'
    have hin : ∀ q ∈ (b', b) :: w₁', q.1.id ≤ b.id ∧ q.2.id ≤ b.id := fun q hq =>
      hle q (List.mem_append_left _ (List.mem_append_right _ hq))
    refine hc₁.not_enters hc hs₁ (h₀.steady hs) hbetween.bounds.symm
      ((hbetween.rebased.solves_iff _ _).mp hs₁.solves)
      (henter.id_lt (h₀.steady hs) (hin _ List.mem_cons_self).1) hvalv ?_
    intro u hu hnone'
    exact ((hbetween.resting hnone' fun q hq => (ne_of_le hin hu q hq).2).2).symm
  · -- a variable that only enters is basic at the end and was not at the start
    push Not at hleaves
    obtain ⟨⟨b, e⟩, hp, hpv⟩ := hv
    obtain rfl : e = v := hpv.resolve_left (hleaves _ hp)
    obtain ⟨w₁, w₂, rfl⟩ := List.append_of_mem hp
    obtain ⟨s₁, s₂, h₁, henter, h₂⟩ := h.split_cons
    have hbasic : s₂.tableau.row? e ≠ none := fun hnone => ((henter.nonbasic e).mp hnone).1 rfl
    have hend := h₂.basic hbasic fun q hq =>
      hleaves q (List.mem_append_right _ (List.mem_cons_of_mem _ hq))
    have hstart : s.tableau.row? e ≠ none := fun hnone => hend ((hbasis e).mpr hnone)
    exact h.not_enters hs hstart hleaves _ hp rfl

end Cycles

end LinearArithmetic.Simplex
