import LinearArithmetic.Proofs.Run

/-!
# Conflicts

Every conflict that a check reports is a literal or a conjunction of distinct literals that were
asserted, that no values of the leaves make true together, and of which none can be left out.
-/

namespace LinearArithmetic.Theory

variable {o : Options} {ops : List Operation} {as : List Answer} {s s' : Theory} {effort : Effort}
  {r : Report}

/-- A check of a run that gives a result. -/
theorem verdict_of_run (hrun : (start o).run ops = .ok (s, as))
    (hcheck : s.check effort = .ok (s', r)) : Verdict effort s s' r := by
  have h := (running_of_run hrun).sane.check_spec effort
  rw [hcheck] at h
  exact h

/-- The facts that a check has processed were asserted. -/
theorem asserts_of_processed (hrun : (start o).run ops = .ok (s, as))
    (hcheck : s.check effort = .ok (s', r)) {f : Fact} (hf : f ∈ s'.processed.toList) :
    (Journal.of ops as).Asserts f.literal := by
  have hfacts := (verdict_of_run hrun hcheck).facts.trans (running_of_run hrun).facts
  exact ⟨f, hfacts ▸ List.mem_append_left _ hf, rfl⟩

/-- A reported conflict is a conjunction of asserted literals, each once and at least one. Whatever
the leaves are, one of them is false, and all the others can be true together. -/
theorem core_of_conflict (hrun : (start o).run ops = .ok (s, as))
    (hcheck : s.check effort = .ok (s', r)) {x : Term} (hx : x ∈ r.conflicts) :
    ∃ ls, x = .all ls ∧ ls ≠ [] ∧ Core ls ∧
      ∀ l ∈ ls, l.isLiteral = true ∧ (Journal.of ops as).Asserts l := by
  have hv := verdict_of_run hrun hcheck
  obtain ⟨ls, rfl, hcore, _, hblamed⟩ := hv.blames x hx
  refine ⟨ls, rfl, ?_, hcore, fun l hl => ?_⟩
  · rintro rfl
    obtain ⟨l, hl, _⟩ := hcore.unsat fun _ => 0
    cases hl
  · obtain ⟨f, hf, rfl⟩ := hblamed l hl
    exact ⟨(hv.sane.recorded.linear f (List.mem_append_left _ hf)).isRelational,
      asserts_of_processed hrun hcheck hf⟩

/-- What a check reports after the operations of a run. -/
def reportAfter (o : Options) (ops : List Operation) (effort : Effort) : Checked Report := do
  let (s, _) ← (start o).run ops
  let (_, r) ← s.check effort
  return r

theorem reportAfter_eq_ok (h : reportAfter o ops effort = .ok r) :
    ∃ s as s', (start o).run ops = .ok (s, as) ∧ s.check effort = .ok (s', r) := by
  obtain ⟨⟨s, as⟩, hrun, h⟩ := bind_eq_ok.mp h
  obtain ⟨⟨s', r'⟩, hcheck, h⟩ := bind_eq_ok.mp h
  cases Except.ok.inj h
  exact ⟨s, as, s', hrun, hcheck⟩

/-- Assertions of `1 ≤ x`, `1 ≤ y` and `x + y ≤ 1`, the last two in a scope. -/
def crowdedSum : List Operation :=
  [.assert (.rel .ge (.var "x") (.const 1)), .push, .assert (.rel .ge (.var "y") (.const 1)),
    .assert (.rel .le (.sum [.var "x", .var "y"]) (.const 1))]

/-- The row of the sum and the bounds of its summands are a conflict. -/
theorem core_of_crowdedSum :
    ∃ s as s' x, (start {}).run crowdedSum = .ok (s, as) ∧
      s.check .standard = .ok (s', { conflicts := [x] }) ∧
        ∃ ls, x = .all ls ∧ ls ≠ [] ∧ Core ls ∧
          ∀ l ∈ ls, l.isLiteral = true ∧ (Journal.of crowdedSum as).Asserts l := by
  have h : reportAfter {} crowdedSum .standard = .ok { conflicts :=
      [.conj [.rel .le (.sum [.var "x", .var "y"]) (.const 1), .rel .ge (.var "x") (.const 1),
        .rel .ge (.var "y") (.const 1)]] } := by decide +kernel
  obtain ⟨s, as, s', hrun, hcheck⟩ := reportAfter_eq_ok h
  exact ⟨s, as, s', _, hrun, hcheck, core_of_conflict hrun hcheck (List.mem_singleton_self _)⟩

end LinearArithmetic.Theory
