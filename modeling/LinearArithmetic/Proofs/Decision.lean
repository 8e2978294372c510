import LinearArithmetic.Proofs.Termination

/-!
# The repair decides the bounds

A repair that is started with every violated variable basic and marked ends. It ends either with
values that satisfy the rows and every bound, or with a conflict: no values that satisfy the rows
satisfy the bounds that it names. The bounds and the solutions of the tableau stay as they are.
-/

namespace LinearArithmetic.Simplex

/-- The outcome of a repair, from the state it started in. -/
structure Decided (s s' : Simplex) (conflict : Option Conflict) : Prop where
  consistent : s'.tableau.Consistent
  solves_iff : ∀ (M : Type) [AddCommGroup M] [Module ℚ M] (σ : Var → M),
    s'.tableau.Solves σ ↔ s.tableau.Solves σ
  bounds : s'.model.boundOf = s.model.boundOf
  satisfied : conflict = none → (∀ v, s'.model.Within v) ∧
    s'.tableau.Solves s'.model.valueOf ∧ s'.model.hasUncommitted = false
  refuted : ∀ c, conflict = some c → s'.model.valueOf = s.model.safeOf ∧
    ∀ σ : Var → DeltaRat, s.tableau.Solves σ →
      ¬ ∀ side v β, s.model.boundOf side v = some β → β.reason ∈ c.constraints →
        side.Inside β.value (σ v)

theorem Repaired.decided {s s' : Simplex} {conflict : Option Conflict}
    (h : Repaired s s' conflict) (hord : s.model.Ordered) (hq : s.Queued) :
    Decided s s' conflict where
  consistent := h.grounded.tableau
  solves_iff := h.rebased.solves_iff
  bounds := h.kept.bounds
  satisfied hnone :=
    ⟨h.within hnone hord hq, h.solves, Model.hasUncommitted_eq_false_iff.mpr h.committed⟩
  refuted c hc := by
    obtain ⟨hvalue, hstuck⟩ := h.stuck c hc
    refine ⟨hvalue, fun σ hσ => ?_⟩
    apply hstuck.not_inside
    rw [h.rebased.solves_iff]
    exact hσ

/-- The repair has an outcome, with any pivot rule and threshold: values within all bounds, or
bounds that no solution of the tableau satisfies. -/
theorem repair_decides {s : Simplex} (h : s.Grounded) (hvalues : s.tableau.Solves s.model.valueOf)
    (hsafe : s.tableau.Solves s.model.safeOf) (hord : s.model.Ordered)
    (hnonbasic : ∀ v, s.tableau.isBasic v = false → s.model.Within v)
    (hmarked : ∀ v, s.tableau.isBasic v = true → ¬ s.model.Within v →
      s.suspects.contains v = true) :
    ∃ s' conflict, s.repair = .ok (s', conflict) ∧ Decided s s' conflict := by
  have hq : s.Queued := queued_of_marked hnonbasic hmarked
  obtain ⟨⟨s', conflict⟩, hok, hrep⟩ :=
    (repair_spec h hvalues hsafe hord).exists_ok fun _ hnot => hnot hq
  exact ⟨s', conflict, hok, hrep.decided hord hq⟩

/-- The sum `v2` of `v0` and `v1` is to be at least three, while both are at most one. -/
def overdrawn : Simplex where
  tableau := ((({} : Tableau).addRow ⟨2⟩ [(⟨0⟩, 1), (⟨1⟩, 1)]).toOption).getD {}
  model :=
    { byVar := ⟨[{ upper := some ⟨.ofRat 1, ⟨0⟩⟩ }, { upper := some ⟨.ofRat 1, ⟨1⟩⟩ },
        { lower := some ⟨.ofRat 3, ⟨2⟩⟩ }]⟩ }
  suspects := (∅ : SortedSet Var).insert ⟨2⟩ ()
  blandThreshold := 0

theorem repair_decides_overdrawn : ∃ s', overdrawn.repair = .ok (s', some ⟨[⟨1⟩, ⟨0⟩, ⟨2⟩]⟩) ∧
    Decided overdrawn s' (some ⟨[⟨1⟩, ⟨0⟩, ⟨2⟩]⟩) := by
  have hzero : ∀ v, overdrawn.model.valueOf v = 0 ∧ overdrawn.model.safeOf v = 0
    | ⟨0⟩ | ⟨1⟩ | ⟨2⟩ | ⟨_ + 3⟩ => ⟨rfl, rfl⟩
  have hsolves : ∀ σ : Var → DeltaRat, (∀ v, σ v = 0) → overdrawn.tableau.Solves σ := by
    intro σ hσ b r _
    rw [Row.eval_eq_sum, hσ]
    simp [hσ]
  have hgrounded : overdrawn.Grounded :=
    Coherent.grounded ⟨by decide +kernel, by decide +kernel⟩
  have hordered : overdrawn.model.Ordered
    | ⟨0⟩, l, u, hl, _ | ⟨1⟩, l, u, hl, _ | ⟨_ + 3⟩, l, u, hl, _ => nomatch hl
    | ⟨2⟩, l, u, _, hu => nomatch hu
  have hbasic : overdrawn.tableau.isBasic ⟨2⟩ = true := by decide +kernel
  have hnonbasic : ∀ v, overdrawn.tableau.isBasic v = false → overdrawn.model.Within v
    | ⟨0⟩, _ | ⟨1⟩, _ => Model.violation?_eq_none_iff.mp (by decide +kernel)
    | ⟨2⟩, h => absurd hbasic (by rw [h]; exact Bool.false_ne_true)
    | ⟨_ + 3⟩, _ => Model.violation?_eq_none_iff.mp rfl
  have hmarked : ∀ v, overdrawn.tableau.isBasic v = true → ¬ overdrawn.model.Within v →
      overdrawn.suspects.contains v = true
    | ⟨2⟩, _, _ => rfl
    | ⟨0⟩, h, hv | ⟨1⟩, h, hv => absurd (Model.violation?_eq_none_iff.mp (by decide +kernel)) hv
    | ⟨_ + 3⟩, _, hv => absurd (Model.violation?_eq_none_iff.mp rfl) hv
  obtain ⟨s', conflict, hok, hdecided⟩ := repair_decides hgrounded
    (hsolves _ fun v => (hzero v).1) (hsolves _ fun v => (hzero v).2) hordered hnonbasic hmarked
  have hconflict : overdrawn.repair.map Prod.snd = .ok (some ⟨[⟨1⟩, ⟨0⟩, ⟨2⟩]⟩) := by
    decide +kernel
  rw [hok] at hconflict
  cases hconflict
  exact ⟨s', hok, hdecided⟩

end LinearArithmetic.Simplex
