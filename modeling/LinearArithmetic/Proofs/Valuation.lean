import LinearArithmetic.Proofs.Framed

/-!
# The values of all variables

No value is kept for an eliminated variable: it has the value of its row. The values of the
variables in use determine those of all active ones, so rows can come and go without a change of
values.
-/

namespace LinearArithmetic.Theory

/-- The values of all variables, eliminated ones valued through their rows. -/
noncomputable def currentOf (s : Theory) : Var → DeltaRat :=
  extended s.simplex.model.valueOf s.eliminated

theorem currentOf_of_not_mem {s : Theory} {u : Var} (hu : u ∉ s.eliminated.map Prod.fst) :
    s.currentOf u = s.simplex.model.valueOf u :=
  extended_of_not_mem hu _

theorem currentOf_of_not_dormant {s : Theory} {u : Var} (hu : ¬ s.Dormant u) :
    s.currentOf u = s.simplex.model.valueOf u :=
  currentOf_of_not_mem fun hmem => hu (.inr hmem)

theorem currentOf_congr {s s' : Theory}
    (hvalues : s'.simplex.model.valueOf = s.simplex.model.valueOf)
    (helim : s'.eliminated = s.eliminated) : s'.currentOf = s.currentOf := by
  rw [currentOf, currentOf, hvalues, helim]

/-- The value of a variable can be computed under values that differ at eliminated variables. -/
theorem Arranged.value_eq_ok {s : Theory} (h : s.Arranged) {m : Model}
    (hroom : m.numVariables = s.simplex.model.numVariables)
    (hm : ∀ u, u ∉ s.eliminated.map Prod.fst → m.valueOf u = s.simplex.model.valueOf u) {v : Var}
    (hv : v.id < s.infos.size) : (s.setModel m).value v = .ok (s.currentOf v) := by
  have hlt : ∀ u : Var, u.id < s.infos.size → m.value u = .ok (m.valueOf u) := fun u hu =>
    Model.value_eq_ok (by rw [hroom, h.room]; exact hu)
  have hok := extendValues_eq_ok hlt (fun e he u hu => ((h.eliminated e he).2 u hu).lt) hv
  rw [currentOf, ← h.triangular.extended_eq (σ := m.valueOf) (h.triangular.solved_extended _)]
  · exact hok
  · intro u hu
    rw [hm u hu, extended_of_not_mem hu]

/-- The values of all variables satisfy every row. -/
theorem Framed.solves_currentOf {s : Theory} (h : s.Framed) : s.Solves s.currentOf :=
  h.solves_extended h.values

/-- The value of an active slack variable is that of its definition. -/
theorem Framed.currentOf_eq_eval {s : Theory} (h : s.Framed) (hb : s.Balanced) {v : Var} {r : Row}
    (hr : s.definition? v = some r) (hv : s.Active v) : s.currentOf v = r.eval s.currentOf := by
  obtain ⟨i, hi, hdef⟩ := definition?_eq_some_iff.mp hr
  obtain ⟨j, hj, hleaf | hmat⟩ := hv
  · exact absurd ⟨j, hj, hleaf⟩ (not_isLeaf_of_definition? hr)
  · rw [hi] at hj
    exact (hb _ _).mp h.solves_currentOf v i r hi hdef (Option.some.inj hj ▸ hmat)

/-- Values under which the rows of the eliminated variables hold are the current ones, if they are
so where a variable is in use. -/
theorem Arranged.currentOf_eq {s : Theory} (h : s.Arranged) {σ : Var → DeltaRat}
    (hσ : Solved s.eliminated σ)
    (hvalues : ∀ u, ¬ s.Dormant u → σ u = s.simplex.model.valueOf u) {u : Var}
    (hu : s.Active u) : s.currentOf u = σ u := by
  classical
  let τ : Var → DeltaRat := fun w => if s.Active w then σ w else s.currentOf w
  have hτ : Solved s.eliminated τ := by
    intro e he
    obtain ⟨hactive, hrow⟩ := h.eliminated e he
    refine (if_pos hactive).trans ((hσ e he).trans ?_)
    exact Row.eval_congr fun w hw => (if_pos (hrow w hw)).symm
  have heq : s.currentOf = τ := h.triangular.extended_eq hτ fun w hw => by
    by_cases hactive : s.Active w
    · rw [← hvalues w (not_or.mpr ⟨not_not.mpr hactive, hw⟩)]
      exact (if_pos hactive).symm
    · rw [← currentOf_of_not_mem hw]
      exact (if_neg hactive).symm
  rw [heq]
  exact if_pos hu

/-- In the second state, what was active is so with the same definition, and what was in use has
the same value. -/
structure Upholds (s s' : Theory) : Prop where
  definitions : ∀ v r, s.definition? v = some r → s'.definition? v = some r
  active : ∀ v, s.Active v → s'.Active v
  values : ∀ u, ¬ s.Dormant u → s'.currentOf u = s.simplex.model.valueOf u

/-- All definitions that held before still do, and they determine the values of the eliminated
variables. -/
theorem Upholds.currentOf_eq {s s' : Theory} (h : Upholds s s') (hs : s.Arranged)
    (hb : s.Balanced) (hs' : s'.Framed) (hb' : s'.Balanced) {v : Var} (hv : s.Active v) :
    s'.currentOf v = s.currentOf v := by
  have hdefined : s.Defined s'.currentOf := by
    intro u i r hi hdef hmat
    exact hs'.currentOf_eq_eval hb'
      (h.definitions u r (definition?_eq_some_iff.mpr ⟨i, hi, hdef⟩))
      (h.active u ⟨i, hi, .inr hmat⟩)
  exact (hs.currentOf_eq ((hb _ _).mpr hdefined).2 h.values hv).symm

end LinearArithmetic.Theory
