import LinearArithmetic.Proofs.Verdicts

/-!
# After a conflict

A conflict leaves the bounds of its scope in place and puts the values back, and the fact that it
was found with may not have become a bound. So the next check has to wait until the scope is left,
or it can overlook what was inconsistent. In between everything else may be done. The next repair
then sees every violated bound, unless a reset has moved values onto the bounds of the conflict and
the variables that it marked have left the basis since.

As long as facts have had their effect and violations are in sight, conflicts are not forgotten:
literals that were found inconsistent once are found inconsistent whenever they are asserted.
-/

namespace LinearArithmetic

/-- The members of a conjunction; any other term stands alone. -/
def Term.members : Term → List Term
  | conj ts => ts
  | t => [t]

theorem Term.members_all {ls : List Term} (hne : ls ≠ [])
    (hlit : ∀ l ∈ ls, l.isLiteral = true) : (all ls).members = ls := by
  match ls with
  | [] => exact absurd rfl hne
  | [l] =>
    have hl : l.isLiteral = true := hlit l (List.mem_singleton_self l)
    cases l with
    | conj ts => cases hl
    | _ => rfl
  | _ :: _ :: _ => rfl

namespace Theory

/-! ## Violations in sight -/

section Sighted

variable {o : Options} {ops : List Operation} {as : List Answer} {s : Theory}

/-- When a check is due, the repair sees every violated bound, and so a check that reports no
conflict leaves none. -/
theorem queued_of_run (hrun : (start o).run ops = .ok (s, as))
    (hheeds : Journal.HeedsAll {} ops as) (hready : (Journal.of ops as).conflict = none)
    (hsight : Sight.of ops as ≠ .lost) :
    s.simplex.Queued ∧ ∀ effort, ∃ s' r, s.check effort = .ok (s', r) ∧
      (r.conflicts = [] → s'.Inside) := by
  have hr := running_of_run hrun
  have hh := healthy_of_heeded hrun hheeds
  have hq : s.simplex.Queued :=
    (hh.fit hready (Nat.le_refl _)).sees.queued hr.sane.recorded hsight
  refine ⟨hq, fun effort => ?_⟩
  obtain ⟨s', r, hcheck⟩ := hh.exists_check hr.sane hready hsight effort
  have hv := verdict_of_run hrun hcheck
  exact ⟨s', r, hcheck, fun hnone => (hv.accepts hnone).within hq⟩

/-- A check of `x + y ≤ 10`, and a scope with a conflict of `20 ≤ x` and `x ≤ 0`. The reset moves
`x` to `20` before the scope is left. -/
def displaced : List Operation :=
  [.assert (.rel .le (.sum [.var "x", .var "y"]) (.const 10)), .check .standard, .push,
    .assert (.rel .ge (.var "x") (.const 20)), .assert (.rel .le (.var "x") (.const 0)),
    .check .standard, .reset, .pop 1]

/-- The variable of the sum violates its bound, and is seen by the repair. -/
theorem queued_of_displaced :
    ∃ s as, (start {}).run displaced = .ok (s, as) ∧ ¬ s.simplex.model.Within ⟨2⟩ ∧
      s.simplex.Queued ∧ ∀ effort, ∃ s' r, s.check effort = .ok (s', r) ∧
        (r.conflicts = [] → s'.Inside) := by
  have h : ((start {}).run displaced >>= fun p =>
      Except.ok ((p.1.simplex.model.look ⟨2⟩).violation?.isNone,
        decide (Journal.HeedsAll {} displaced p.2), (Journal.of displaced p.2).conflict,
        Sight.of displaced p.2)) = .ok (false, true, none, .watched) := by decide +kernel
  obtain ⟨⟨s, as⟩, hrun, h⟩ := bind_eq_ok.mp h
  simp only [Except.ok.injEq, Prod.mk.injEq, decide_eq_true_eq] at h
  obtain ⟨hviolated, hheeds, hready, hsight⟩ := h
  have hlost : Sight.of displaced as ≠ .lost := by
    rw [hsight]
    exact Sight.noConfusion
  refine ⟨s, as, hrun, ?_, queued_of_run hrun hheeds hready hlost⟩
  rw [← Model.isNone_violation?_iff, hviolated]
  exact Bool.false_ne_true

/-- The same run with a presolving step, which takes the variable of the sum out of the basis. -/
def overlooked : List Operation := displaced ++ [.presolve]

/-- The violated variable is not basic any more, and the next check accepts its value. -/
theorem unseen_of_overlooked :
    ∃ s as s', (start {}).run overlooked = .ok (s, as) ∧ Journal.HeedsAll {} overlooked as ∧
      (Journal.of overlooked as).conflict = none ∧ ¬ s.simplex.model.Within ⟨2⟩ ∧
        s.simplex.tableau.row? ⟨2⟩ = none ∧ s.check .standard = .ok (s', {}) ∧
          ¬ s'.simplex.model.Within ⟨2⟩ := by
  have h : ((start {}).run overlooked >>= fun p => p.1.check .standard >>= fun q =>
      Except.ok (p.1.simplex.tableau.isBasic ⟨2⟩ ||
          (p.1.simplex.model.look ⟨2⟩).violation?.isNone ||
          (q.1.simplex.model.look ⟨2⟩).violation?.isNone,
        decide (Journal.HeedsAll {} overlooked p.2), (Journal.of overlooked p.2).conflict, q.2)) =
      .ok (false, true, none, {}) := by decide +kernel
  obtain ⟨⟨s, as⟩, hrun, h⟩ := bind_eq_ok.mp h
  obtain ⟨⟨s', r⟩, hcheck, h⟩ := bind_eq_ok.mp h
  simp only [Except.ok.injEq, Prod.mk.injEq, decide_eq_true_eq, Bool.or_eq_false_iff] at h
  obtain ⟨⟨⟨hbasic, hviolated⟩, hviolated'⟩, hheeds, hready, rfl⟩ := h
  rw [← Bool.not_eq_true, Model.isNone_violation?_iff] at hviolated hviolated'
  exact ⟨s, as, s', hrun, hheeds, hready, hviolated, Tableau.isBasic_eq_false_iff.mp hbasic,
    hcheck, hviolated'⟩

end Sighted

/-! ## Conflicts that come back -/

/-- The conflicts that an answer reports. -/
def Answer.conflicts : Answer → List Term
  | .sent r => r.conflicts
  | _ => []

/-- The conflicts that the answers of a run report. -/
def reported (as : List Answer) : List Term := as.flatMap Answer.conflicts

/-- The literals of a conflict are refuted. -/
theorem Verdict.refuted {effort : Effort} {s s' : Theory} {r : Report}
    (h : Verdict effort s s' r) {x : Term} (hx : x ∈ r.conflicts) : Refuted (· ∈ x.members) := by
  obtain ⟨ls, rfl, hcore, hrefuted, hblamed⟩ := h.blames x hx
  have hne : ls ≠ [] := by
    rintro rfl
    obtain ⟨l, hl, _⟩ := hcore.unsat fun _ => 0
    cases hl
  have hlit : ∀ l ∈ ls, l.isLiteral = true := by
    intro l hl
    obtain ⟨f, hf, rfl⟩ := hblamed l hl
    exact (h.sane.recorded.linear f (List.mem_append_left _ hf)).isRelational
  rwa [Term.members_all hne hlit]

/-- Only checks report conflicts. -/
theorem Sane.refuted_of_step {s s' : Theory} (hs : s.Sane) {op : Operation} {a : Answer}
    (h : s.step op = .ok (s', a)) {x : Term} (hx : x ∈ a.conflicts) :
    Refuted (· ∈ x.members) := by
  have hnone : a.conflicts = [] → Refuted (· ∈ x.members) := by
    intro hnil
    rw [hnil] at hx
    cases hx
  cases op with
  | check effort =>
    obtain ⟨r, rfl, hv⟩ := hs.verdict_of_step h
    exact hv.refuted hx
  | register t | assert t | explain t =>
    rcases orRefuse_eq_ok h with ⟨b, _, heq⟩ | ⟨why, _, rfl, rfl⟩
    · obtain ⟨rfl, rfl⟩ := Prod.mk.inj heq
      exact hnone rfl
    · exact hnone rfl
  | propagate | push =>
    obtain ⟨rfl, rfl⟩ := Prod.mk.inj (Except.ok.inj h)
    exact hnone rfl
  | pop _ | restart | presolve | reset | eliminate _ =>
    rw [step] at h
    obtain ⟨p, _, heq⟩ := bind_eq_ok.mp h
    obtain ⟨rfl, rfl⟩ := Prod.mk.inj (Except.ok.inj heq)
    exact hnone rfl

/-- The literals of every conflict of a run are refuted. -/
theorem Running.refuted {s s' : Theory} {j : Journal} (hr : Running s j) {ops : List Operation}
    {as : List Answer} (h : s.run ops = .ok (s', as)) {x : Term} (hx : x ∈ reported as) :
    Refuted (· ∈ x.members) := by
  induction ops generalizing s j as with
  | nil =>
    obtain ⟨rfl, rfl⟩ := Prod.mk.inj (Except.ok.inj h)
    cases hx
  | cons op ops ih =>
    obtain ⟨s₁, a, as', hstep, hrun, rfl⟩ := run_cons_eq_ok h
    rw [reported, List.flatMap_cons] at hx
    rcases List.mem_append.mp hx with hx | hx
    · exact hr.sane.refuted_of_step hstep hx
    · exact ih ((hr.sane.step_spec hr.committed hstep).running hr) hrun hx

section Recurring

variable {o : Options} {ops : List Operation} {as : List Answer} {s : Theory}

/-- Refuted literals are not accepted when every processed fact has had its effect and the repair
sees every violation. -/
theorem conflicts_of_refuted (hrun : (start o).run ops = .ok (s, as))
    (hrefuted : Refuted (Journal.of ops as).Asserts) (hcomplete : s.now.Complete s)
    (hqueued : s.simplex.Queued) (effort : Effort) :
    ∃ s' r, s.check effort = .ok (s', r) ∧ r.conflicts ≠ [] := by
  have hs := (running_of_run hrun).sane
  obtain ⟨⟨s', r⟩, hcheck, hv⟩ := (hs.check_spec effort).exists_ok fun _ hnot => hnot hqueued
  have hiff := conflicts_iff_of_fit hrun hcheck (hv.fit hcomplete hqueued)
  exact ⟨s', r, hcheck, hiff.mpr hrefuted⟩

/-- A check reports a conflict whenever the literals of an earlier conflict are asserted, unless a
fact was taken off the queue without having its effect, or the repair does not see a violation. -/
theorem recurs_of_run (hrun : (start o).run ops = .ok (s, as)) {x : Term} (hx : x ∈ reported as)
    (hstill : ∀ l ∈ x.members, (Journal.of ops as).Asserts l) (hcomplete : s.now.Complete s)
    (hqueued : s.simplex.Queued) (effort : Effort) :
    ∃ s' r, s.check effort = .ok (s', r) ∧ r.conflicts ≠ [] := by
  have hrefuted : Refuted (Journal.of ops as).Asserts :=
    ((running_start o).refuted hrun hx).mono hstill
  exact conflicts_of_refuted hrun hrefuted hcomplete hqueued effort

/-- No row can make up for `5 ≤ x`, `0 ≤ y` and `x + y ≤ 3`. Another literal is asserted after the
conflict. -/
def cornered : List Operation :=
  [.assert (.rel .ge (.var "x") (.const 5)), .assert (.rel .ge (.var "y") (.const 0)),
    .check .standard, .assert (.rel .le (.sum [.var "x", .var "y"]) (.const 3)), .check .standard,
    .push, .register (.rel .lt (.var "y") (.const 2)), .assert (.rel .ge (.var "y") (.const 1))]

/-- The next check reports a conflict again. -/
theorem recurs_of_cornered :
    ∃ s as s' r, (start {}).run cornered = .ok (s, as) ∧
      reported as = [.conj [.rel .le (.sum [.var "x", .var "y"]) (.const 3),
        .rel .ge (.var "x") (.const 5), .rel .ge (.var "y") (.const 0)]] ∧
          s.check .full = .ok (s', r) ∧ r.conflicts ≠ [] := by
  have h : ((start {}).run cornered >>= fun p =>
      Except.ok (reported p.2, decide (p.1.now.Complete p.1), decide p.1.simplex.Queued,
        (Journal.of cornered p.2).facts.map Fact.literal)) =
      .ok ([.conj [.rel .le (.sum [.var "x", .var "y"]) (.const 3),
        .rel .ge (.var "x") (.const 5), .rel .ge (.var "y") (.const 0)]], true, true,
        [.rel .ge (.var "x") (.const 5), .rel .ge (.var "y") (.const 0),
          .rel .le (.sum [.var "x", .var "y"]) (.const 3), .rel .ge (.var "y") (.const 1)]) := by
    decide +kernel
  obtain ⟨⟨s, as⟩, hrun, h⟩ := bind_eq_ok.mp h
  simp only [Except.ok.injEq, Prod.mk.injEq, decide_eq_true_eq] at h
  obtain ⟨hreported, hcomplete, hqueued, hfacts⟩ := h
  have hx : Term.conj [.rel .le (.sum [.var "x", .var "y"]) (.const 3),
      .rel .ge (.var "x") (.const 5), .rel .ge (.var "y") (.const 0)] ∈ reported as := by
    rw [hreported]
    exact List.mem_singleton_self _
  obtain ⟨s', r, hcheck, hconflict⟩ := recurs_of_run hrun hx
    (fun l hl => by
      rw [Journal.asserts_iff_mem, hfacts]
      exact (by decide : ∀ l ∈ [Term.rel .le (.sum [.var "x", .var "y"]) (.const 3),
        .rel .ge (.var "x") (.const 5), .rel .ge (.var "y") (.const 0)], _) l hl)
    hcomplete hqueued .full
  exact ⟨s, as, s', r, hrun, hreported, hcheck, hconflict⟩

/-- A check of `5 ≤ x` and `x ≤ 3`, which are inconsistent. The second fact never becomes a bound,
and the repair does not see that `x` is put back below the first. -/
def contradicted : List Operation :=
  [.assert (.rel .ge (.var "x") (.const 5)), .assert (.rel .le (.var "x") (.const 3)),
    .check .standard]

/-- Without leaving the scope another check accepts the literals. -/
theorem accepts_of_contradicted :
    ∃ s as s', (start {}).run contradicted = .ok (s, as) ∧
      reported as = [.conj [.rel .le (.var "x") (.const 3), .rel .ge (.var "x") (.const 5)]] ∧
        (∀ l ∈ [Term.rel .le (.var "x") (.const 3), .rel .ge (.var "x") (.const 5)],
          (Journal.of contradicted as).Asserts l) ∧ s.check .standard = .ok (s', {}) := by
  have h : ((start {}).run contradicted >>= fun p => p.1.check .standard >>= fun q =>
      Except.ok (reported p.2, (Journal.of contradicted p.2).facts.map Fact.literal, q.2)) =
      .ok ([.conj [.rel .le (.var "x") (.const 3), .rel .ge (.var "x") (.const 5)]],
        [.rel .ge (.var "x") (.const 5), .rel .le (.var "x") (.const 3)], {}) := by decide +kernel
  obtain ⟨⟨s, as⟩, hrun, h⟩ := bind_eq_ok.mp h
  obtain ⟨⟨s', r⟩, hcheck, h⟩ := bind_eq_ok.mp h
  simp only [Except.ok.injEq, Prod.mk.injEq] at h
  obtain ⟨hreported, hfacts, rfl⟩ := h
  refine ⟨s, as, s', hrun, hreported, fun l hl => ?_, hcheck⟩
  rw [Journal.asserts_iff_mem, hfacts]
  exact List.mem_reverse.mp hl

/-- When every conflict is left before the next check, no fact is taken off the queue for good
without having its effect, and a conflict recurs as long as no violation has got lost. -/
theorem conflicts_of_heeded (hrun : (start o).run ops = .ok (s, as))
    (hheeds : Journal.HeedsAll {} ops as) (hready : (Journal.of ops as).conflict = none)
    (hsight : Sight.of ops as ≠ .lost) {x : Term} (hx : x ∈ reported as)
    (hstill : ∀ l ∈ x.members, (Journal.of ops as).Asserts l) (effort : Effort) :
    ∃ s' r, s.check effort = .ok (s', r) ∧ r.conflicts ≠ [] := by
  have hrec := (running_of_run hrun).sane.recorded
  have hfit := (healthy_of_heeded hrun hheeds).fit hready (Nat.le_refl _)
  have hrefuted : Refuted (Journal.of ops as).Asserts :=
    ((running_start o).refuted hrun hx).mono hstill
  have hcomplete := hfit.complete
  rw [hrec.levelled.ledgerAt_level] at hcomplete
  exact conflicts_of_refuted hrun hrefuted hcomplete (hfit.sees.queued hrec hsight) effort

end Recurring

end Theory

end LinearArithmetic
