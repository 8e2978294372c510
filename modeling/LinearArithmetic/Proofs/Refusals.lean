import LinearArithmetic.Proofs.Equations
import LinearArithmetic.Theory.InPlace

/-!
# Refused terms

Registering and asserting only look at the state until the last point at which they can be
refused, so a refusal leaves the whole state as it was. Apart from this, work in place is that of
the operations of a run.
-/

namespace LinearArithmetic

namespace InPlace

variable {α β : Type}

theorem bind_apply (x : InPlace α) (f : α → InPlace β) (s : Theory) :
    (x >>= f) s = x s >>= fun p => match p.1 with
      | .ok a => f a p.2
      | .error why => .ok (.error why, p.2) := by
  change x s >>= (fun p => ExceptT.bindCont f p.1 p.2) = _
  refine bind_congr fun p => ?_
  obtain ⟨r, s₁⟩ := p
  cases r <;> rfl

/-! ## Refusals without effect -/

/-- The work does not change the state. -/
def ReadOnly (x : InPlace α) : Prop := ∀ s r s₁, x s = .ok (r, s₁) → s₁ = s

/-- The work is not refused. -/
def Sure (x : InPlace α) : Prop := ∀ s why s₁, x s ≠ .ok (.error why, s₁)

/-- A refusal leaves the state as it was. -/
def Harmless (x : InPlace α) : Prop := ∀ s why s₁, x s = .ok (.error why, s₁) → s₁ = s

theorem Sure.harmless {x : InPlace α} (h : Sure x) : Harmless x :=
  fun s why s₁ hx => absurd hx (h s why s₁)

/-- As long as nothing has been changed, a refusal changes nothing. -/
theorem ReadOnly.bind {x : InPlace α} {f : α → InPlace β} (h : ReadOnly x)
    (hf : ∀ a, Harmless (f a)) : Harmless (x >>= f) := by
  intro s why s₁ hx
  obtain ⟨⟨r, s₂⟩, hr, hx⟩ := bind_eq_ok.mp ((bind_apply x f s).symm.trans hx)
  obtain rfl := h s r s₂ hr
  cases r with
  | ok a => exact hf a s₂ why s₁ hx
  | error e =>
    obtain ⟨-, rfl⟩ := Prod.mk.inj (Except.ok.inj hx)
    rfl

/-- Work that is not refused can follow. -/
theorem refused_bind_iff {x : InPlace α} {f : α → InPlace β} (hf : ∀ a, Sure (f a)) {s : Theory}
    {why : Refusal} {s₁ : Theory} :
    (x >>= f) s = .ok (.error why, s₁) ↔ x s = .ok (.error why, s₁) := by
  rw [bind_apply]
  constructor
  · intro hx
    obtain ⟨⟨r, s₂⟩, hr, hx⟩ := bind_eq_ok.mp hx
    cases r with
    | ok a => exact absurd hx (hf a s₂ why s₁)
    | error e =>
      obtain ⟨heq, rfl⟩ := Prod.mk.inj (Except.ok.inj hx)
      rw [hr, Except.error.inj heq]
  · intro hx
    rw [hx, ok_bind]

theorem Sure.bind {x : InPlace α} {f : α → InPlace β} (h : Sure x) (hf : ∀ a, Sure (f a)) :
    Sure (x >>= f) :=
  fun s why s₁ hx => h s why s₁ ((refused_bind_iff hf).mp hx)

theorem Harmless.bind {x : InPlace α} {f : α → InPlace β} (h : Harmless x)
    (hf : ∀ a, Sure (f a)) : Harmless (x >>= f) :=
  fun s why s₁ hx => h s why s₁ ((refused_bind_iff hf).mp hx)

theorem readOnly_accept (x : Except Refusal α) : ReadOnly (accept x) := by
  intro s r s₁ h
  exact (Prod.mk.inj (Except.ok.inj h)).2.symm

theorem readOnly_inspect (f : Theory → Checked α) : ReadOnly (inspect f) := by
  intro s r s₁ h
  obtain ⟨a, _, h⟩ := bind_eq_ok.mp h
  exact (Prod.mk.inj (Except.ok.inj h)).2.symm

theorem sure_pure (a : α) : Sure (pure a : InPlace α) := by
  rintro s why s₁ ⟨⟩

theorem sure_inspect (f : Theory → Checked α) : Sure (inspect f) := by
  intro s why s₁ h
  obtain ⟨a, _, h⟩ := bind_eq_ok.mp h
  cases h

theorem sure_change (f : Theory → Checked (Theory × α)) : Sure (change f) := by
  intro s why s₁ h
  obtain ⟨a, _, h⟩ := bind_eq_ok.mp h
  cases h

/-- Adding a literal whose atom has been classified is not refused. -/
theorem exists_of_addLiteral {db : Database} {literal : Term} {st : Statement}
    {r : Except Refusal (Database × ConstraintId)}
    (h : db.addLiteral literal (fun _ => .ok st) = .ok r) : ∃ p, r = .ok p := by
  rw [Database.addLiteral] at h
  split at h
  · cases h
  · obtain ⟨⟨db', c⟩, _, h⟩ := bind_eq_ok.mp h
    dsimp only at h
    split at h
    · obtain ⟨k, _, h⟩ := bind_eq_ok.mp h
      exact ⟨_, (Except.ok.inj h).symm⟩
    · exact ⟨_, (Except.ok.inj h).symm⟩

theorem sure_addLiteral (literal : Term) (st : Statement)
    {f : Database × ConstraintId → InPlace α} (hf : ∀ p, Sure (f p)) :
    Sure (inspect (fun s => s.database.addLiteral literal fun _ => .ok st) >>= fun r =>
      accept r >>= f) := by
  intro s why s₁ h
  rw [bind_apply, inspect] at h
  obtain ⟨⟨r, s₂⟩, hr, h⟩ := bind_eq_ok.mp h
  obtain ⟨x, hx, hr⟩ := bind_eq_ok.mp hr
  obtain ⟨rfl, rfl⟩ := Prod.mk.inj (Except.ok.inj hr)
  obtain ⟨p, rfl⟩ := exists_of_addLiteral hx
  exact hf p _ _ _ h

theorem harmless_classify (atom : Term) : Harmless (classify atom) :=
  (readOnly_accept _).bind fun _ => (sure_change _).harmless

/-- The last refusal is that of a comparison which is not linear; from then on the state changes. -/
theorem harmless_registerLiteral (literal : Term) : Harmless (registerLiteral literal) := by
  refine (readOnly_inspect _).bind fun c? => ?_
  cases c? with
  | some c => exact (sure_pure _).harmless
  | none =>
    refine (readOnly_accept _).bind fun _ => (readOnly_inspect _).bind fun b? => ?_
    split
    · exact (sure_pure _).harmless
    · refine (harmless_classify _).bind fun k => ?_
      cases k with
      | constant b => exact sure_change _
      | constraint st => exact sure_addLiteral literal st fun _ => sure_change _

theorem sure_preregister (c : ConstraintId) : Sure (preregister c) := by
  refine (sure_inspect _).bind fun k => (sure_inspect _).bind fun negation => ?_
  split
  · exact sure_pure _
  · exact sure_change _

section Literal

variable {t : Term} (ht : t.isLiteral = true) {s s₁ : Theory} {why : Refusal}

include ht

/-- Registering and asserting a literal are refused where its constraint is. -/
theorem register_refused_iff :
    register t s = .ok (.error why, s₁) ↔ registerLiteral t s = .ok (.error why, s₁) := by
  rw [register, if_pos ht]
  refine refused_bind_iff fun c? => ?_
  cases c? with
  | none => exact sure_pure _
  | some c => exact sure_preregister c

theorem assertLiteral_refused_iff :
    assertLiteral t s = .ok (.error why, s₁) ↔ registerLiteral t s = .ok (.error why, s₁) := by
  rw [assertLiteral, demand, if_pos ht]
  exact refused_bind_iff fun _ => sure_change _

end Literal

theorem harmless_register (t : Term) : Harmless (register t) := by
  by_cases ht : t.isLiteral = true
  · exact fun s why s₁ h => harmless_registerLiteral t s why s₁ ((register_refused_iff ht).mp h)
  · rw [register, if_neg ht]
    exact (readOnly_accept _).bind fun sum =>
      ((sure_change _).bind fun _ => sure_pure _).harmless

theorem harmless_assertLiteral (t : Term) : Harmless (assertLiteral t) :=
  (readOnly_accept _).bind fun _ => (harmless_registerLiteral t).bind fun _ => sure_change _

/-! ## The operations of a run -/

/-- The outcome without the state of a refusal. -/
def outcome : Checked (Except Refusal α × Theory) → Except Failure (Theory × α)
  | .ok (.ok a, s) => .ok (s, a)
  | .ok (.error why, _) => .error (.refusal why)
  | .error f => .error (.fault f)

theorem outcome_bind (x : InPlace α) (f : α → InPlace β) (s : Theory) :
    outcome ((x >>= f) s) = outcome (x s) >>= fun p => outcome (f p.2 p.1) := by
  rw [bind_apply]
  cases x s with
  | error e => rfl
  | ok p =>
    obtain ⟨r, s₁⟩ := p
    cases r <;> rfl

theorem outcome_accept_bind (x : Except Refusal α) (f : α → InPlace β) (s : Theory) :
    outcome ((accept x >>= f) s) = x.mapError .refusal >>= fun a => outcome (f a s) := by
  rw [outcome_bind]
  cases x <;> rfl

theorem outcome_inspect_bind (g : Theory → Checked α) (f : α → InPlace β) (s : Theory) :
    outcome ((inspect g >>= f) s) = (g s).mapError .fault >>= fun a => outcome (f a s) := by
  rw [outcome_bind, inspect]
  cases g s <;> rfl

theorem outcome_change (g : Theory → Checked (Theory × α)) (s : Theory) :
    outcome (change g s) = (g s).mapError .fault := by
  rw [change]
  cases g s <;> rfl

theorem outcome_classify (atom : Term) (s : Theory) : outcome (classify atom s) = (do
    let linear ← atom.linearAtom.mapError .refusal
    (s.classify linear).mapError .fault) := by
  rw [classify, outcome_accept_bind]
  simp only [outcome_change]

theorem outcome_registerLiteral (literal : Term) (s : Theory) :
    outcome (registerLiteral literal s) = s.registerLiteral literal := by
  rw [registerLiteral, outcome_inspect_bind, Theory.registerLiteral]
  cases s.database.lookup literal with
  | some c => rfl
  | none =>
    dsimp only
    rw [mapError_ok, ok_bind, demand, outcome_accept_bind]
    cases literal.atom.isRelational with
    | false => rfl
    | true =>
      rw [if_pos rfl, mapError_ok, ok_bind, outcome_inspect_bind]
      cases s.constantAtoms.lookup literal.atom with
      | some b => rfl
      | none =>
        rw [mapError_ok, ok_bind]
        simp only [Option.isSome_none, Bool.false_eq_true, if_false, outcome_bind,
          outcome_classify, bind_assoc, Bool.not_true]
        refine bind_congr fun linear => bind_congr fun p => ?_
        obtain ⟨s₁, k⟩ := p
        cases k with
        | constant b => rfl
        | constraint st =>
          rw [outcome_inspect_bind]
          refine bind_congr fun r => ?_
          rw [outcome_accept_bind]
          cases r <;> rfl

theorem outcome_register (t : Term) (s : Theory) :
    outcome (register t s) = s.register t >>= fun s₁ => .ok (s₁, ()) := by
  rw [register, Theory.register]
  split
  · rw [outcome_bind, outcome_registerLiteral, bind_assoc]
    refine bind_congr fun p => ?_
    obtain ⟨s₁, c?⟩ := p
    cases c? with
    | none => rfl
    | some c =>
      simp only [preregister, outcome_inspect_bind, bind_assoc]
      refine bind_congr fun k => bind_congr fun negation => ?_
      split
      · rfl
      · rw [outcome_change]
        cases s₁.database.preregister c <;> rfl
  · rw [outcome_accept_bind, bind_assoc]
    refine bind_congr fun sum => ?_
    rw [outcome_bind, outcome_change, bind_assoc]
    rfl

theorem outcome_assertLiteral (t : Term) (s : Theory) :
    outcome (assertLiteral t s) = s.assertLiteral t >>= fun s₁ => .ok (s₁, ()) := by
  rw [assertLiteral, demand, outcome_accept_bind, Theory.assertLiteral]
  cases t.isLiteral with
  | false => rfl
  | true =>
    rw [if_pos rfl, mapError_ok, ok_bind, outcome_bind, outcome_registerLiteral]
    simp only [Bool.not_true, Bool.false_eq_true, if_false, bind_assoc]
    rfl

/-- The answer of an operation that has ended. -/
def answer : Except Refusal Unit → Theory.Answer
  | .ok _ => .done
  | .error why => .refused why

section Outcome

variable {x : InPlace Unit} {s : Theory} {y : Except Failure Theory}
  (h : outcome (x s) = y >>= fun s₁ => .ok (s₁, ()))

include h

theorem exists_of_outcome (hy : (∃ why, y = .error (.refusal why)) ∨ ∃ s₁, y = .ok s₁) :
    ∃ r s₁, x s = .ok (r, s₁) := by
  cases hx : x s with
  | ok p => exact ⟨p.1, p.2, rfl⟩
  | error f =>
    rw [hx] at h
    obtain ⟨why, rfl⟩ | ⟨s₁, rfl⟩ := hy <;> cases h

theorem orRefuse_of_outcome (hx : Harmless x) :
    s.orRefuse (·, .done) y = x s >>= fun p => .ok (p.2, answer p.1) := by
  cases hs : x s with
  | error f =>
    rw [hs] at h
    cases y <;> cases h
    rfl
  | ok p =>
    obtain ⟨r, s₁⟩ := p
    rw [hs] at h
    cases r with
    | ok a =>
      cases y <;> cases h
      rfl
    | error why =>
      obtain rfl := hx s why s₁ hs
      cases y <;> cases h
      rfl

end Outcome

end InPlace

namespace Theory

open InPlace

/-- Work in place ends and is the operation of a run, and if it is refused, the state is the one
that it started from. -/
structure AllOrNothing (s : Theory) (op : Operation) (x : InPlace Unit) : Prop where
  ends : ∃ r s₁, x s = .ok (r, s₁)
  step : s.step op = x s >>= fun p => .ok (p.2, answer p.1)
  refused : ∀ why s₁, x s = .ok (.error why, s₁) → s₁ = s

theorem Sane.allOrNothing_register {s : Theory} (hs : s.Sane) (t : Term) :
    s.AllOrNothing (.register t) (InPlace.register t) where
  ends := exists_of_outcome (outcome_register t s)
    ((hs.register_spec t).imp_right (Exists.imp fun _ => And.left))
  step := orRefuse_of_outcome (outcome_register t s) (harmless_register t)
  refused := harmless_register t s

theorem Sane.allOrNothing_assert {s : Theory} (hs : s.Sane) (t : Term) :
    s.AllOrNothing (.assert t) (InPlace.assertLiteral t) where
  ends := exists_of_outcome (outcome_assertLiteral t s)
    ((hs.assertLiteral_spec t).imp_right (Exists.imp fun _ => And.left))
  step := orRefuse_of_outcome (outcome_assertLiteral t s) (harmless_assertLiteral t)
  refused := harmless_assertLiteral t s

/-- A literal is asserted exactly if it could be registered. -/
theorem Sane.accepts_iff {s : Theory} (hs : s.Sane) {t : Term} (ht : t.isLiteral = true) :
    (∃ s₁, InPlace.assertLiteral t s = .ok (.ok (), s₁)) ↔
      ∃ s₁, InPlace.register t s = .ok (.ok (), s₁) := by
  have hrefused : (∃ why s₁, InPlace.assertLiteral t s = .ok (.error why, s₁)) ↔
      ∃ why s₁, InPlace.register t s = .ok (.error why, s₁) := by
    simp only [register_refused_iff ht, assertLiteral_refused_iff ht]
  obtain ⟨r, s₁, hassert⟩ := (hs.allOrNothing_assert t).ends
  obtain ⟨r', s₂, hregister⟩ := (hs.allOrNothing_register t).ends
  rw [hassert, hregister] at hrefused ⊢
  cases r with
  | ok _ =>
    cases r' with
    | ok _ => exact iff_of_true ⟨s₁, rfl⟩ ⟨s₂, rfl⟩
    | error why =>
      obtain ⟨_, _, heq⟩ := hrefused.mpr ⟨why, s₂, rfl⟩
      cases heq
  | error why =>
    cases r' with
    | ok _ =>
      obtain ⟨_, _, heq⟩ := hrefused.mp ⟨why, s₁, rfl⟩
      cases heq
    | error _ => exact iff_of_false (by rintro ⟨_, ⟨⟩⟩) (by rintro ⟨_, ⟨⟩⟩)

/-- A term that is refused changes nothing, and exactly the literals that can be registered can be
asserted. -/
theorem allOrNothing_of_run {o : Options} {ops : List Operation} {as : List Answer} {s s' : Theory}
    (hrun : (start o).run ops = .ok (s, as)) (hstage : Stage s s') (t : Term) :
    s'.AllOrNothing (.register t) (InPlace.register t) ∧
      s'.AllOrNothing (.assert t) (InPlace.assertLiteral t) ∧
        ((∃ s₁, InPlace.assertLiteral t s' = .ok (.ok (), s₁)) ↔
          t.isLiteral = true ∧ ∃ s₁, InPlace.register t s' = .ok (.ok (), s₁)) := by
  have hs := hstage.sane (running_of_run hrun).sane
  refine ⟨hs.allOrNothing_register t, hs.allOrNothing_assert t, ?_⟩
  by_cases ht : t.isLiteral = true
  · rw [hs.accepts_iff ht]
    exact ⟨fun h => ⟨ht, h⟩, fun h => h.2⟩
  · refine ⟨?_, fun h => absurd h.1 ht⟩
    rintro ⟨s₁, h⟩
    rw [InPlace.assertLiteral, demand, if_neg ht] at h
    cases h

/-- A comparison with a truth value deep inside of its second side. -/
def spoiled : Term :=
  .rel .le (.sum [.var "x", .var "z"]) (.prod [.const 2, .sum [.var "y", .bool true]])

/-- Adding up the first side neither reinstates `x`, which the presolver has eliminated, nor gets a
variable for `z`. -/
theorem allOrNothing_of_spoiled :
    ∃ s as, (start {}).run [.assert (.rel .le (.sum [.var "x", .var "y"]) (.const 10)),
        .check .full, .presolve] = .ok (s, as) ∧
      s.isEliminated ⟨0⟩ = true ∧
        s.step (.assert spoiled) = .ok (s, .refused (.notArithmetic (.bool true))) := by
  have h : ((start {}).run [.assert (.rel .le (.sum [.var "x", .var "y"]) (.const 10)),
      .check .full, .presolve] >>= fun p => InPlace.assertLiteral spoiled p.1 >>= fun q =>
        Except.ok (p.1.isEliminated ⟨0⟩, q.1)) =
      .ok (true, .error (.notArithmetic (.bool true))) := by decide +kernel
  obtain ⟨⟨s, as⟩, hrun, h⟩ := bind_eq_ok.mp h
  obtain ⟨⟨r, s₁⟩, hassert, h⟩ := bind_eq_ok.mp h
  simp only [Except.ok.injEq, Prod.mk.injEq] at h
  obtain ⟨hgone, rfl⟩ := h
  obtain ⟨_, hassertion, _⟩ := allOrNothing_of_run hrun .start spoiled
  obtain rfl := hassertion.refused _ _ hassert
  refine ⟨_, as, hrun, hgone, ?_⟩
  rw [hassertion.step, hassert, ok_bind, answer]

end Theory

end LinearArithmetic
