import LinearArithmetic.Proofs.Equations

/-!
# One constraint for each meaning

A constraint is stored once, as a statement on one variable, and a variable stands for one
combination of leaves up to a factor. So literals have the same constraint exactly when they are
equivalent, and constraints that are negations of each other exactly when one is true where the
other is false.
-/

namespace LinearArithmetic

namespace Statement

/-- Statements that compare the same variable with rationals are equal if they hold at the same
rationals. -/
theorem Representable.eq_of_holds_iff {s t : Statement} (hs : s.Representable)
    (ht : t.Representable) (hvar : s.var = t.var)
    (h : ∀ q : ℚ, s.Holds (.ofRat q) ↔ t.Holds (.ofRat q)) : s = t := by
  obtain ⟨v, k, ⟨c, i⟩⟩ := s
  obtain ⟨w, l, ⟨d, j⟩⟩ := t
  obtain rfl : v = w := hvar
  have hc := h c
  have hd := h d
  have hmid := h ((c + d) / 2)
  have hbig := h (max c d + 1)
  have hsmall := h (min c d - 1)
  have hbigger := h (max c d + 2)
  cases k <;> cases l <;>
    simp only [Representable, Holds, DeltaRat.ofRat, DeltaRat.le_def] at * <;> grind

end Statement

namespace Theory

variable {s : Theory}

/-- Literals have the same constraint exactly when they are equivalent. -/
theorem Sane.eq_iff_holds (hs : s.Sane) {t u : Term} {c d : ConstraintId}
    (ht : s.database.lookup t = some c) (hu : s.database.lookup u = some d) :
    c = d ↔ ∀ ρ, t.Holds ρ ↔ u.Holds ρ := by
  obtain ⟨_, k, hk, hlive, _⟩ := hs.linked.valid.known t c ht
  obtain ⟨_, l, hl, hlive', _⟩ := hs.linked.valid.known u d hu
  have hdt := hs.linked.denotes t c k ht hk
  have hdu := hs.linked.denotes u d l hu hl
  have hrk := hs.linked.valid.representable c k hk
  have hrl := hs.linked.valid.representable d l hl
  have ha := hs.framed.toArranged
  constructor
  · rintro rfl ρ
    obtain rfl := Option.some.inj (hk.symm.trans hl)
    rw [hdt.holds, hdu.holds]
  · intro h
    -- where the first variable has a value that makes the first statement hold, the second one
    -- stays within the second statement, and that has room for no line
    obtain ⟨q, hq⟩ := hrk.exists_holds
    have hvar : l.statement.var = k.statement.var := by
      refine hs.named.eq_of_level_set ha hdt.inRange hdu.inRange (x := q)
        (P := fun x => l.statement.Holds (.ofRat x)) (fun a b hb => hrl.exists_not_holds a hb)
        fun ρ hρ => ?_
      rw [← hdu.holds, ← h, hdt.holds, hρ]
      exact hq
    have hst : k.statement = l.statement := by
      refine hrk.eq_of_holds_iff hrl hvar.symm fun x => ?_
      obtain ⟨ρ, hρ⟩ := hs.named.exists_interpret ha hdt.inRange x
      have hiff := (hdt.holds ρ).symm.trans ((h ρ).trans (hdu.holds ρ))
      rwa [hvar, hρ] at hiff
    exact hs.linked.valid.eq_of_statement_eq hk hl hlive hlive' hst

/-- Two literals have the same constraint exactly if they are true of the same values of the leaves,
and one has the constraint of the negation of the other exactly if one is true where the other is
false. -/
theorem canonical_of_run {o : Options} {ops : List Operation} {as : List Answer} {s s' : Theory}
    (hrun : (start o).run ops = .ok (s, as)) (hstage : Stage s s') {t u : Term}
    {c d : ConstraintId} (ht : s'.database.lookup t = some c)
    (hu : s'.database.lookup u = some d) :
    ∃ k, s'.database.get d = .ok k ∧ (c = d ↔ ∀ ρ, t.Holds ρ ↔ u.Holds ρ) ∧
      (c = k.negation ↔ ∀ ρ, t.Holds ρ ↔ ¬ u.Holds ρ) := by
  have hs := hstage.sane (running_of_run hrun).sane
  obtain ⟨hlit, k, hk, _, hneg⟩ := hs.linked.valid.known u d hu
  refine ⟨k, Database.get_eq_ok hk, hs.eq_iff_holds ht hu, ?_⟩
  rw [hs.eq_iff_holds ht hneg]
  simp only [Term.holds_negate hlit]

/-- The atoms `2x + y > 3` and `-x ≥ y/2 - 3/2`. -/
def bothSides : List Operation :=
  [.register (.rel .gt (.sum [.prod [.const 2, .var "x"], .var "y"]) (.const 3)),
    .register (.rel .ge (.prod [.const (-1), .var "x"])
      (.sum [.prod [.const (1 / 2), .var "y"], .const (-3 / 2)]))]

/-- The second atom has the constraint of the negation of the first one. -/
theorem canonical_of_bothSides :
    ∃ s as, (start {}).run bothSides = .ok (s, as) ∧ s.database.numConstraints = 2 ∧
      ∃ k, s.database.get ⟨1⟩ = .ok k ∧
        ((⟨0⟩ : ConstraintId) = k.negation ↔ ∀ ρ,
          (Term.rel .gt (.sum [.prod [.const 2, .var "x"], .var "y"]) (.const 3)).Holds ρ ↔
            ¬ (Term.rel .ge (.prod [.const (-1), .var "x"])
              (.sum [.prod [.const (1 / 2), .var "y"], .const (-3 / 2)])).Holds ρ) := by
  have h : ((start {}).run bothSides >>= fun p => Except.ok (p.1.database.numConstraints,
      p.1.database.lookup (.rel .gt (.sum [.prod [.const 2, .var "x"], .var "y"]) (.const 3)),
      p.1.database.lookup (.rel .ge (.prod [.const (-1), .var "x"])
        (.sum [.prod [.const (1 / 2), .var "y"], .const (-3 / 2)])))) =
      .ok (2, some ⟨0⟩, some ⟨1⟩) := by decide +kernel
  obtain ⟨⟨s, as⟩, hrun, hfound⟩ := bind_eq_ok.mp h
  simp only [Except.ok.injEq, Prod.mk.injEq] at hfound
  obtain ⟨hnum, hfirst, hsecond⟩ := hfound
  obtain ⟨k, hk, _, hneg⟩ := canonical_of_run hrun .start hfirst hsecond
  exact ⟨s, as, hrun, hnum, k, hk, hneg⟩

end Theory

end LinearArithmetic
