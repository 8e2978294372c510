import LinearArithmetic.Proofs.Restoration
import LinearArithmetic.Proofs.Satisfaction

/-!
# Runs without faults

An operation ends in a fault only when its caller breaks a precondition. As long as the search
leaves its conflicts, no more scopes than are open, eliminates variables without constraints and
does not restart too often, every operation succeeds, and so does the whole run. The values of terms
can be asked for whenever no conflict waits.
-/

namespace LinearArithmetic

namespace Theory

/-! ## The preconditions of operations -/

/-- What an operation needs from the state: the scopes that it leaves are open, no constraint
mentions the variable that it eliminates, and the counters of restarts have room. -/
def Permits (s : Theory) : Operation → Prop
  | .pop levels => levels ≤ s.level
  | .eliminate v => s.database.hasConstraints v = false
  | .restart => s.CountsRestart
  | _ => True

/-- The preconditions of every operation of a run are met when it is made, as far as the run
comes. -/
def Disciplined : Theory → Journal → List Operation → Prop
  | _, _, [] => True
  | s, j, op :: ops => j.Allows op ∧ s.Permits op ∧
      ∀ s' a, s.step op = .ok (s', a) → Disciplined s' (j.note op a) ops

instance decidableCountsRestart (s : Theory) : Decidable s.CountsRestart :=
  inferInstanceAs (Decidable (_ ∨ _))

instance decidablePermits (s : Theory) (op : Operation) : Decidable (s.Permits op) := by
  cases op <;> unfold Permits <;> infer_instance

instance decidableAllows (j : Journal) (op : Operation) : Decidable (j.Allows op) :=
  match op with
  | .propagate | .explain _ => isTrue trivial
  | .pop levels =>
    have : Decidable (∀ n, j.conflict = some n → j.level - levels < n) :=
      match j.conflict with
      | none => isTrue fun _ hn => by cases hn
      | some m =>
        decidable_of_iff (j.level - levels < m)
          ⟨fun hlt _ hn => by cases hn; exact hlt, fun hall => hall m rfl⟩
    this
  | .register _ | .assert _ | .check _ | .push | .restart | .presolve | .reset | .eliminate _ =>
    inferInstanceAs (Decidable (j.conflict = none))

instance decidableDisciplined (s : Theory) (j : Journal) (ops : List Operation) :
    Decidable (s.Disciplined j ops) :=
  match ops with
  | [] => isTrue trivial
  | op :: ops =>
    have : Decidable (∀ s' a, s.step op = .ok (s', a) → Disciplined s' (j.note op a) ops) :=
      match s.step op with
      | .error _ => isTrue fun _ _ h => by cases h
      | .ok (s', a) =>
        have := decidableDisciplined s' (j.note op a) ops
        decidable_of_iff (Disciplined s' (j.note op a) ops)
          ⟨fun hd _ _ h => by cases h; exact hd, fun hall => hall s' a rfl⟩
    inferInstanceAs (Decidable (_ ∧ _ ∧ _))

/-! ## Explanations -/

/-- A constraint with a proof has an explanation. -/
theorem Sane.exists_explain {s : Theory} (hs : s.Sane) {c : ConstraintId} {k : Constraint}
    (hc : s.database.stored c = some k) (hp : k.proof ≠ none) :
    ∃ t, s.database.explain c = .ok t := by
  have hmarks : (s.database.marksOf c).proof = k.proof := by rw [Database.marksOf_of_stored hc]; rfl
  obtain ⟨as, has⟩ := Option.ne_none_iff_exists'.mp hp
  cases as with
  | nil =>
    obtain ⟨t, ht, _⟩ := hs.recorded.selfExplained (hmarks.trans has)
    exact ⟨_, ht.explain_eq⟩
  | cons a as =>
    obtain ⟨rfl, ha, _⟩ := hs.recorded.sound_now.implied c k a as hc (hmarks.trans has)
    obtain ⟨t, ht, _⟩ := hs.recorded.selfExplained ha
    refine ⟨.all [t], ?_⟩
    rw [Database.explain, Database.explanationLiterals_of_antecedent hc has ht]
    rfl

/-- A literal is explained, or refused since it is not known to hold. -/
theorem Sane.explain_spec {s : Theory} (hs : s.Sane) (t : Term) :
    (∃ u, s.explain t = .ok u) ∨ ∃ why, s.explain t = .error (.refusal why) := by
  rw [explain]
  cases hlook : s.database.lookup t with
  | none => exact .inr ⟨.unknownLiteral t, rfl⟩
  | some c =>
    obtain ⟨_, k, hc, _⟩ := hs.linked.valid.known t c hlook
    simp only [Database.hasProof_eq_ok hc, Except.mapError, bind, Except.bind]
    cases hp : k.proof with
    | none => exact .inr ⟨.unknownLiteral t, rfl⟩
    | some as =>
      obtain ⟨u, hu⟩ := hs.exists_explain hc (by rw [hp]; exact Option.some_ne_none as)
      exact .inl ⟨u, by rw [hu]; rfl⟩

/-! ## Values -/

/-- Where the leaves have values, a term has one or is refused. -/
theorem mapError_ne_fault {α : Type} (x : Except Refusal α) (f : Fault) :
    x.mapError Failure.refusal ≠ .error (.fault f) := by
  cases x <;> simp [Except.mapError]

theorem Sane.values_ne_fault {s : Theory} (hs : s.Sane) (hin : s.Inside)
    (hdefault : 0 < s.options.defaultDelta) (t : Term) (f : Fault) :
    s.rationalValue t ≠ .error (.fault f) ∧ s.evaluate t ≠ .error (.fault f) := by
  obtain ⟨values, d, hvalues, _⟩ := hs.leafValues_spec hin hdefault
  rw [rationalValue, evaluate, hvalues]
  exact ⟨mapError_ne_fault _ f, mapError_ne_fault _ f⟩

/-! ## Operations -/

theorem exists_orRefuse {α : Type} (s : Theory) (answer : α → Theory × Answer)
    {x : Except Failure α} (h : (∃ why, x = .error (.refusal why)) ∨ ∃ a, x = .ok a) :
    ∃ s' a, s.orRefuse answer x = .ok (s', a) := by
  rcases h with ⟨why, rfl⟩ | ⟨a, rfl⟩
  · exact ⟨_, _, rfl⟩
  · exact ⟨_, _, rfl⟩

/-- An operation succeeds when its preconditions are met. -/
theorem Running.exists_step {s : Theory} {j : Journal} (hr : Running s j) (hh : Healthy s j .inside)
    {op : Operation} (hallows : j.Allows op) (hpermits : s.Permits op) :
    ∃ s' a, s.step op = .ok (s', a) := by
  have hs := hr.sane
  cases op with
  | register t =>
    exact s.exists_orRefuse _ ((hs.register_spec t).imp_right (Exists.imp fun _ => And.left))
  | assert t =>
    exact s.exists_orRefuse _ ((hs.assertLiteral_spec t).imp_right (Exists.imp fun _ => And.left))
  | check effort =>
    obtain ⟨s', r, hok⟩ := hh.exists_check hs hallows nofun effort
    exact ⟨s', .sent r, by rw [step, hok]; rfl⟩
  | propagate => exact ⟨_, _, rfl⟩
  | explain t => exact s.exists_orRefuse _ (hs.explain_spec t).symm
  | push => exact ⟨_, _, rfl⟩
  | pop levels =>
    obtain ⟨s', hok, _⟩ := hs.pop_spec hpermits
    exact ⟨s', .done, by rw [step, hok]; rfl⟩
  | restart =>
    obtain ⟨s', hok, _⟩ := (hs.restart_spec hr.committed).exists_ok fun _ h => h hpermits
    exact ⟨s', _, by rw [step, hok]; rfl⟩
  | presolve =>
    obtain ⟨s', n, hok, _⟩ := hs.presolve_spec hr.committed
    exact ⟨s', .count n, by rw [step, hok]; rfl⟩
  | reset =>
    obtain ⟨s', hok, _⟩ := hs.resetTableau_spec hr.committed
    exact ⟨s', .done, by rw [step, hok]; rfl⟩
  | eliminate v =>
    obtain ⟨s', b, hok, _⟩ := hs.eliminate_spec hr.committed hpermits
    exact ⟨s', .decided b, by rw [step, hok]; rfl⟩

/-! ## Runs -/

/-- A disciplined run succeeds, and leaves its conflicts. -/
theorem Disciplined.exists_run {s : Theory} {j : Journal} {ops : List Operation}
    (h : s.Disciplined j ops) (hr : Running s j) (hh : Healthy s j .inside) :
    ∃ s' as, s.run ops = .ok (s', as) ∧ j.AllowsAll ops as := by
  induction ops generalizing s j with
  | nil => exact ⟨s, [], rfl, trivial⟩
  | cons op ops ih =>
    obtain ⟨hallows, hpermits, hrest⟩ := h
    obtain ⟨s₁, a, hstep⟩ := hr.exists_step hh hallows hpermits
    have ht := hr.sane.step_spec hr.committed hstep
    obtain ⟨s₂, as, hrun, hall⟩ :=
      ih (hrest s₁ a hstep) (ht.running hr) (ht.healthy_of_allows hr hh hallows)
    refine ⟨s₂, a :: as, ?_, hallows, hall⟩
    simp only [run, hstep, ok_bind, hrun, pure_eq_ok]

/-- A disciplined run has no fault, and neither have the values of terms while no conflict waits. -/
theorem run_ne_fault {o : Options} (hdefault : 0 < o.defaultDelta) {ops : List Operation}
    (h : (start o).Disciplined {} ops) :
    ∃ s as, (start o).run ops = .ok (s, as) ∧ ((Journal.of ops as).conflict = none →
      ∀ t f, s.rationalValue t ≠ .error (.fault f) ∧ s.evaluate t ≠ .error (.fault f)) := by
  obtain ⟨s, as, hrun, hallows⟩ := h.exists_run (running_start o) (healthy_start o)
  refine ⟨s, as, hrun, fun hready t f => ?_⟩
  have hs := (running_of_run hrun).sane
  have hin := ((healthy_of_run hrun hallows).fit hready (Nat.le_refl _)).inside_now hs.recorded
  exact hs.values_ne_fault hin ((running_start o).options hrun ▸ hdefault) t f

/-- A conflict in a scope, which is explained and left, and then each of the operations that move
rows about. -/
def busyScope : List Operation :=
  [.register (.rel .le (.sum [.var "x", .var "y"]) (.const 1)), .push,
    .assert (.rel .lt (.var "y") (.const 0)), .assert (.rel .ge (.var "y") (.const 1)),
    .check .standard, .explain (.rel .lt (.var "y") (.const 0)), .propagate, .pop 1, .presolve,
    .eliminate ⟨0⟩, .assert (.rel .le (.sum [.var "x", .var "y"]) (.const 1)),
    .assert (.rel .ge (.var "x") (.const 5)), .check .full, .restart, .reset]

/-- A reset at the first restart, and all checks on the way. -/
def checkedOptions : Options := { initialResetPeriod := 1, debugChecks := true }

/-- The busy scope is left without a fault, and without one of the checks for debugging. -/
theorem run_ne_fault_of_busyScope :
    ∃ s as, (start checkedOptions).run busyScope = .ok (s, as) ∧
      ∀ t f, s.rationalValue t ≠ .error (.fault f) ∧ s.evaluate t ≠ .error (.fault f) := by
  have hdisciplined : (start checkedOptions).Disciplined {} busyScope := by
    decide +kernel
  obtain ⟨s, as, hrun, hvalues⟩ :=
    run_ne_fault (o := checkedOptions) (by decide +kernel) hdisciplined
  have hready : ((start checkedOptions).run busyScope).map
      (fun p => (Journal.of busyScope p.2).conflict) = .ok none := by decide +kernel
  rw [hrun] at hready
  exact ⟨s, as, hrun, hvalues (Except.ok.inj hready)⟩

end Theory

end LinearArithmetic
