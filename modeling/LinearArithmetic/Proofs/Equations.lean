import LinearArithmetic.Proofs.Run

/-!
# Rows and definitions

In every state of a run, and in every state that a check goes through, the rows of the tableau
together with those of the eliminated variables have the same solutions as the definitions of the
slack variables whose rows have been added, and both the current values and those of the last commit
are among the solutions.
-/

namespace LinearArithmetic.Theory

/-! ## The course of a check -/

/-- The states that a check goes through: it processes the oldest queued fact, or makes a step of
the repair. -/
inductive Stage (s : Theory) : Theory → Prop where
  | start : Stage s s
  | processed {s₁ s₂ : Theory} {f : Fact} {rest : List Fact} {conflict : Option Term}
      (h : Stage s s₁) (next : s₁.pending = f :: rest)
      (step : (s₁.taking f rest).assertFact f.literal = .ok (s₂, conflict)) : Stage s s₂
  | repaired {s₁ : Theory} {pivots : Nat} {x : Simplex} {found : Simplex.RepairStep}
      (h : Stage s s₁) (step : s₁.simplex.repairStep pivots = .ok (x, found)) :
      Stage s { s₁ with simplex := x }

/-- A step of the repair keeps the equations, and the values fit. -/
theorem Sane.resolves_repairStep {s : Theory} (hs : s.Sane) {pivots : Nat} {x : Simplex}
    {found : Simplex.RepairStep} (h : s.simplex.repairStep pivots = .ok (x, found)) :
    s.Resolves x := by
  have hcoh := hs.framed.coherent
  rcases Simplex.repairStep_spec hcoh.grounded hs.framed.values pivots with
    ⟨x', hok, ht, hm, _, _⟩ | ⟨x', c, hok, ht, hm, _, _⟩ |
    ⟨x', b, e, hok, hp⟩
  · obtain ⟨rfl, _⟩ := Prod.mk.inj (Except.ok.inj (hok.symm.trans h))
    exact {
      coherent := ⟨ht ▸ hcoh.tableau, by rw [ht, hm, Model.numVariables_commit, hcoh.room]⟩
      rebased := ht ▸ .refl _
      room := by rw [hm, Model.numVariables_commit]
      trail := by rw [hm, Model.trail_commit]
      bounds := by rw [hm, Model.boundOf_commit]
      values := by
        rw [ht, hm, Model.valueOf_commit]
        exact hs.framed.values
      safe := by
        rw [ht, hm, (Model.committed_commit _).safeOf_eq, Model.valueOf_commit]
        exact hs.framed.values
      dormant := fun v _ => by rw [hm, Model.committed_commit] }
  · obtain ⟨rfl, _⟩ := Prod.mk.inj (Except.ok.inj (hok.symm.trans h))
    have hrev := hs.resolves_revert
    exact {
      coherent := ⟨ht ▸ hcoh.tableau, by rw [ht, hm]; exact hrev.coherent.room⟩
      rebased := ht ▸ .refl _
      room := by rw [hm]; exact hrev.room
      trail := by rw [hm]; exact hrev.trail
      bounds := by rw [hm]; exact hrev.bounds
      values := by rw [ht, hm]; exact hrev.values
      safe := by rw [ht, hm]; exact hrev.safe
      dormant := fun v hv => by rw [hm]; exact hrev.dormant v hv }
  · obtain ⟨rfl, _⟩ := Prod.mk.inj (Except.ok.inj (hok.symm.trans h))
    exact {
      coherent := ⟨hp.grounded.tableau, hp.rebased.room.trans (hcoh.room.trans hp.frame.room.symm)⟩
      rebased := hp.rebased
      room := hp.frame.room
      trail := hp.frame.trail
      bounds := hp.frame.bounds
      values := hp.solves
      safe := by
        rw [hp.frame.safe]
        exact (hp.rebased.solves_iff _ _).mpr hs.framed.safe
      dormant := fun v hv => by
        rw [hp.saved v (hs.framed.not_mentions_of_dormant hv), hs.framed.dormant v hv] }

/-- Every state that a check goes through is sane. -/
theorem Stage.sane {s s' : Theory} (h : Stage s s') (hs : s.Sane) : s'.Sane := by
  induction h with
  | start => exact hs
  | @processed s₁ s₂ f rest conflict _ next step ih =>
    have hlin : ∀ g ∈ f :: rest, g.literal.Linear := fun g hg =>
      ih.recorded.linear g (List.mem_append_right _ (next ▸ hg))
    have htaken := (ih.taking hlin).1
    obtain ⟨s₃, c, hok, hhandles⟩ := htaken.assertFact_spec (hlin f List.mem_cons_self)
      ⟨f, by simp [Theory.taking], rfl⟩
    cases hok.symm.trans step
    exact hhandles.sane
  | repaired _ step ih => exact (ih.resolves_repairStep step).sane ih

/-- A check goes on from where it started. -/
theorem Stage.continues {s s' : Theory} (h : Stage s s') (hs : s.Sane) : Continues s s' := by
  induction h with
  | start => exact .refl s
  | @processed s₁ s₂ f rest conflict before next step ih =>
    have hs₁ := before.sane hs
    have hlin : ∀ g ∈ f :: rest, g.literal.Linear := fun g hg =>
      hs₁.recorded.linear g (List.mem_append_right _ (next ▸ hg))
    obtain ⟨htaken, hproceeds⟩ := hs₁.taking hlin
    obtain ⟨s₃, c, hok, hhandles⟩ := htaken.assertFact_spec (hlin f List.mem_cons_self)
      ⟨f, by simp [Theory.taking], rfl⟩
    cases hok.symm.trans step
    exact ih.trans (hproceeds.toContinues.trans hhandles.proceeds.toContinues)
  | repaired before step ih =>
    exact ih.trans ((before.sane hs).resolves_repairStep step).continues

/-! ## The equations -/

/-- The assignment gives every variable a value, eliminated ones through their rows, and the values
satisfy every row and every definition. -/
def Fits (s : Theory) (value : Var → Checked DeltaRat) : Prop :=
  ∃ τ : Var → DeltaRat,
    (∀ v : Var, v.id < s.infos.size → extendValues value s.eliminated v = .ok (τ v)) ∧
      s.Solves τ ∧ s.Defined τ

/-- The rows and the definitions have the same solutions, and the values are among them. -/
structure Equivalent (s : Theory) : Prop where
  solutions : ∀ σ : Var → ℚ, s.Solves σ ↔ s.Defined σ
  current : s.Fits s.simplex.model.value
  safe : s.Fits s.simplex.model.safeValue

theorem Sane.fits {s : Theory} (hs : s.Sane) {value : Var → Checked DeltaRat}
    {σ : Var → DeltaRat} (hσ : s.simplex.tableau.Solves σ)
    (hvalue : ∀ v : Var, v.id < s.infos.size → value v = .ok (σ v)) : s.Fits value := by
  have ha := hs.framed.toArranged
  have hsolves : s.Solves (extended σ s.eliminated) := ha.solves_extended hσ
  refine ⟨_, fun v hv => ?_, hsolves, (hs.balanced _ _).mp hsolves⟩
  exact extendValues_eq_ok hvalue (fun e he u hu => ((ha.eliminated e he).2 u hu).lt) hv

theorem Sane.equivalent {s : Theory} (hs : s.Sane) : s.Equivalent where
  solutions := hs.balanced ℚ
  current := hs.fits hs.framed.values fun v hv => Model.value_eq_ok (by rwa [hs.framed.room])
  safe := hs.fits hs.framed.safe fun v hv => Model.safeValue_eq_ok (by rwa [hs.framed.room])

/-- In every state of a run, also in the middle of a check, the rows in the tableau and those of
eliminated variables say what the definitions say, and the values satisfy them. -/
theorem equivalent_of_run {o : Options} {ops : List Operation} {as : List Answer} {s s' : Theory}
    (hrun : (start o).run ops = .ok (s, as)) (hstage : Stage s s') : s'.Equivalent :=
  (hstage.sane (running_of_run hrun).sane).equivalent

/-- The presolver eliminates a leaf of the sum `x + y`, whose bound it has added to the tableau. -/
theorem equivalent_of_presolved :
    ∃ s as, (start {}).run [.push, .assert (.rel .le (.sum [.var "x", .var "y"]) (.const 1)),
        .presolve] = .ok (s, as) ∧
      s.eliminated.length = 1 ∧ Stage s s ∧ s.Equivalent := by
  have h : ((start {}).run [.push, .assert (.rel .le (.sum [.var "x", .var "y"]) (.const 1)),
      .presolve] >>= fun p => Except.ok p.1.eliminated.length) = .ok 1 := by decide +kernel
  obtain ⟨⟨s, as⟩, hrun, hlength⟩ := bind_eq_ok.mp h
  exact ⟨s, as, hrun, Except.ok.inj hlength, .start, equivalent_of_run hrun .start⟩

end LinearArithmetic.Theory
