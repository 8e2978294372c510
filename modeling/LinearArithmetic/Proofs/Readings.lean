import LinearArithmetic.Proofs.Equations
import LinearArithmetic.Proofs.EvaluationDepth
import LinearArithmetic.Proofs.Satisfaction

/-!
# Numbers and truth values

A term has a number or a truth value, and an evaluation decides by the shape of the term which of
the two to compute. For an `ite` without a value of its own the first branch decides. So every term
with a number evaluates to it, unless the first branch is itself an `ite` without a value of its
own, or a formula that the condition passes over.
-/

namespace LinearArithmetic

namespace Term

theorem IsLeaf.isArithmetic {t : Term} (h : t.IsLeaf) : t.isArithmetic = true := by
  cases t with
  | var _ | ite _ _ _ | prod _ => rfl
  | _ => exact h.elim

/-- An evaluation takes the `ite` for a formula: it has no value of its own, nor has its first
branch, which is an `ite` again or not of an arithmetic kind. -/
def TakenForFormula (own : Term → Bool) (t : Term) : Prop :=
  ∃ c a b, t = ite c a b ∧ own t = false ∧ own a = false ∧
    ((∃ c' a' b', a = ite c' a' b') ∨ a.isArithmetic = false)

section Evaluate

variable {owned : Term → Option ℚ}

theorem isFormulaBranch_iff {t : Term} : t.isFormulaBranch owned = true ↔
    (owned t).isSome = false ∧ ((∃ c a b, t = ite c a b) ∨ t.isArithmetic = false) := by
  cases t <;> simp [isFormulaBranch, isArithmetic]

/-- A term with a number is of an arithmetic kind. -/
theorem isArithmetic_of_rationalValue (hleaf : ∀ t q, owned t = some q → t.IsLeaf) {t : Term}
    {q : ℚ} (h : t.rationalValue owned = .ok q) : t.isArithmetic = true := by
  cases ho : owned t with
  | some x => exact (hleaf t x ho).isArithmetic
  | none =>
    obtain ⟨n, hn⟩ := t.exists_depth
    rw [rationalValue, hn] at h
    cases t with
    | var _ | const _ | sum _ | prod _ | ite _ _ _ => rfl
    | _ =>
      simp only [rationalWithin, ho] at h
      cases h

/-- A term of an arithmetic kind is evaluated as a formula only if it is taken for one. -/
theorem evaluate_arithmetic {t : Term} (h : t.isArithmetic = true) :
    (t.TakenForFormula (fun u => (owned u).isSome) →
        t.evaluate owned = ModelValue.truth <$> t.truthValue owned) ∧
      (¬ t.TakenForFormula (fun u => (owned u).isSome) →
        t.evaluate owned = ModelValue.rational <$> t.rationalValue owned) := by
  cases t with
  | var _ | const _ | sum _ | prod _ =>
    refine ⟨?_, fun _ => rfl⟩
    rintro ⟨c, a, b, heq, -⟩
    cases heq
  | ite c a b =>
    have hiff : (ite c a b).TakenForFormula (fun u => (owned u).isSome) ↔
        ((owned (ite c a b)).isNone && a.isFormulaBranch owned) = true := by
      rw [Bool.and_eq_true, isFormulaBranch_iff, ← Option.not_isSome, Bool.not_eq_true']
      constructor
      · rintro ⟨_, _, _, heq, htaken⟩
        cases heq
        exact htaken
      · exact fun htaken => ⟨c, a, b, rfl, htaken⟩
    exact ⟨fun ht => by rw [evaluate, if_pos (hiff.mp ht)],
      fun ht => by rw [evaluate, if_neg fun hc => ht (hiff.mpr hc)]⟩
  | _ => cases h

end Evaluate

end Term

namespace Theory

/-- The leaf has a variable. -/
def owns (s : Theory) (t : Term) : Bool := (s.varOf? t).isSome

theorem owns_iff {s : Theory} {t : Term} : s.owns t = true ↔ t ∈ s.leaves.map Prod.fst := by
  rw [owns, varOf?, List.lookup_isSome_iff, List.mem_map]
  exact exists_congr fun e => and_congr_right fun _ => by rw [beq_iff_eq, eq_comm]

theorem Sane.isLeaf_of_owns {s : Theory} (hs : s.Sane) {t : Term} (ht : s.owns t = true) :
    t.IsLeaf := by
  obtain ⟨v, hv⟩ := Option.isSome_iff_exists.mp ht
  exact hs.named.leaf t v ((hs.named.leaves t v).mp hv)

section Values

variable {s : Theory} {values : List (Term × ℚ)}

theorem rationalValue_eq (h : s.leafValues = .ok values) (t : Term) :
    s.rationalValue t = (t.rationalValue fun u => values.lookup u).mapError .refusal := by
  rw [rationalValue, h]
  rfl

theorem evaluate_eq (h : s.leafValues = .ok values) (t : Term) :
    s.evaluate t = (t.evaluate fun u => values.lookup u).mapError .refusal := by
  rw [evaluate, h]
  rfl

theorem rationalValue_eq_ok {t : Term} {q : ℚ} (h : s.leafValues = .ok values) :
    s.rationalValue t = .ok q ↔ (t.rationalValue fun u => values.lookup u) = .ok q := by
  rw [rationalValue_eq h, mapError_eq_ok]

/-- Without values of the leaves, no term has one. -/
theorem leafValues_of_rationalValue {t : Term} {q : ℚ} (h : s.rationalValue t = .ok q) :
    ∃ values, s.leafValues = .ok values := by
  cases hvalues : s.leafValues with
  | ok values => exact ⟨values, rfl⟩
  | error f =>
    rw [rationalValue, hvalues] at h
    cases h

variable (hs : s.Sane) (h : s.leafValues = .ok values)

include hs h

/-- The values of the leaves are those of their variables for some value of the infinitesimal. -/
theorem Sane.exists_valuesAt : ∃ d, values = s.valuesAt d := by
  obtain ⟨d, _, hd⟩ := bind_eq_ok.mp h
  refine ⟨d, Except.ok.inj (hd.symm.trans (Checked.mapM_eq_ok fun e he => ?_))⟩
  simp only [hs.value_eq_ok (hs.named.listed e he), ok_bind, pure_eq_ok]

/-- The leaves with values are those with variables. -/
theorem Sane.isSome_lookup (t : Term) : (values.lookup t).isSome = s.owns t := by
  obtain ⟨d, rfl⟩ := hs.exists_valuesAt h
  rw [lookup_valuesAt, Option.isSome_map, owns]

theorem Sane.isLeaf_of_lookup {t : Term} {q : ℚ} (ht : values.lookup t = some q) : t.IsLeaf :=
  hs.isLeaf_of_owns (by rw [← hs.isSome_lookup h, ht, Option.isSome_some])

end Values

/-- A term with a number evaluates to it if it is not taken for a formula, and to no number
otherwise. -/
theorem evaluate_of_rationalValue {o : Options} {ops : List Operation} {as : List Answer}
    {s s' : Theory} (hrun : (start o).run ops = .ok (s, as)) (hstage : Stage s s') {t : Term}
    {q : ℚ} (hvalue : s'.rationalValue t = .ok q) :
    (¬ t.TakenForFormula s'.owns → s'.evaluate t = .ok (.rational q)) ∧
      (t.TakenForFormula s'.owns → ∀ x, s'.evaluate t ≠ .ok (.rational x)) := by
  have hs := hstage.sane (running_of_run hrun).sane
  obtain ⟨values, hvalues⟩ := leafValues_of_rationalValue hvalue
  have hown : (fun u => (values.lookup u).isSome) = s'.owns := funext (hs.isSome_lookup hvalues)
  rw [rationalValue_eq_ok hvalues] at hvalue
  obtain ⟨hformula, hnumber⟩ := Term.evaluate_arithmetic
    (Term.isArithmetic_of_rationalValue (fun _ _ => hs.isLeaf_of_lookup hvalues) hvalue)
  rw [hown] at hformula hnumber
  rw [evaluate_eq hvalues]
  refine ⟨fun ht => by rw [hnumber ht, hvalue]; rfl, fun ht x => ?_⟩
  rw [hformula ht]
  cases t.truthValue fun u => values.lookup u <;> rintro ⟨⟩

/-- Both branches are `ite` terms. -/
def branching : Term :=
  .ite (.rel .ge (.var "x") (.const 2)) (.ite (.bool true) (.var "x") (.const 0))
    (.ite (.rel .ge (.var "x") (.const 1)) (.prod [.var "x", .var "x"]) (.const 0))

/-- The first branch has a variable, the second one none. -/
theorem evaluate_branching :
    ∃ s as, (start {}).run [.assert (.rel .ge (.var "x") (.const 1)),
        .register (.rel .le (.ite (.bool true) (.var "x") (.const 0)) (.const 5)),
        .check .full] = .ok (s, as) ∧
      s.evaluate branching = .ok (.rational 1) := by
  have h : ((start {}).run [.assert (.rel .ge (.var "x") (.const 1)),
      .register (.rel .le (.ite (.bool true) (.var "x") (.const 0)) (.const 5)),
      .check .full] >>= fun p => Except.ok (p.1.rationalValue branching,
        p.1.owns (.ite (.bool true) (.var "x") (.const 0)))) = .ok (.ok 1, true) := by
    decide +kernel
  obtain ⟨⟨s, as⟩, hrun, h⟩ := bind_eq_ok.mp h
  simp only [Except.ok.injEq, Prod.mk.injEq] at h
  obtain ⟨hvalue, hown⟩ := h
  refine ⟨s, as, hrun, (evaluate_of_rationalValue hrun .start hvalue).1 ?_⟩
  rintro ⟨c, a, b, heq, _, ha, _⟩
  cases heq
  exact Bool.false_ne_true (ha.symm.trans hown)

/-- The first branch is an `ite` without a variable. -/
def nested : Term :=
  .ite (.rel .ge (.var "x") (.const 1))
    (.ite (.rel .ge (.var "x") (.const 2)) (.const 2) (.var "x")) (.const 0)

/-- A term with a number that does not evaluate to it. -/
theorem evaluate_nested :
    ∃ s as, (start {}).run [.assert (.rel .ge (.var "x") (.const 1)), .check .full] =
        .ok (s, as) ∧
      s.rationalValue nested = .ok 1 ∧
      s.evaluate nested = .error (.refusal (.noValue (.var "x"))) := by
  have h : ((start {}).run [.assert (.rel .ge (.var "x") (.const 1)), .check .full] >>=
      fun p => Except.ok (p.1.rationalValue nested, p.1.evaluate nested)) =
      .ok (.ok 1, .error (.refusal (.noValue (.var "x")))) := by decide +kernel
  obtain ⟨⟨s, as⟩, hrun, h⟩ := bind_eq_ok.mp h
  simp only [Except.ok.injEq, Prod.mk.injEq] at h
  exact ⟨s, as, hrun, h⟩

end Theory

end LinearArithmetic
