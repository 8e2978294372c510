import LinearArithmetic.Proofs.Propagation
import LinearArithmetic.Proofs.Satisfaction

/-!
# Complete propagation

The walk that looks for implied constraints ends at the first bound that is known, as everything
beyond it is known too. So what known bounds and equalities imply is known in every open scope,
provided that no constraint is created while another one has a proof: nobody looks for what implies
a new constraint. While a conflict waits, this is so for the scopes around its own.
-/

namespace LinearArithmetic.Theory

variable {s s' : Theory} {j : Journal}

/-- In every scope below the one of a waiting conflict, what known bounds and equalities imply is
known. -/
def Saturated (s : Theory) (j : Journal) : Prop :=
  ∀ n ≤ s.level, (∀ m, j.conflict = some m → n < m) → (s.ledgerAt n).Closed s.database

theorem Saturated.closed (h : Saturated s j) (hc : j.conflict = none) {n : Nat}
    (hn : n ≤ s.level) : (s.ledgerAt n).Closed s.database :=
  h n hn fun m hm => by
    rw [hc] at hm
    cases hm

theorem saturated_start (o : Options) : Saturated (start o) {} := by
  intro n _ _ c _ k hk
  cases hk

/-! ## Constraints known in advance -/

/-- The operation creates no constraint while another one has a proof. -/
def Foresees (s : Theory) : Operation → Prop
  | .check _ => s.ForeseesFacts s.pending
  | op => ∀ s' a, s.step op = .ok (s', a) → Foreseen s s'

/-- No operation of the run creates a constraint while another one has a proof. -/
def ForeseesAll : Theory → List Operation → Prop
  | _, [] => True
  | s, op :: ops => s.Foresees op ∧ ∀ s' a, s.step op = .ok (s', a) → s'.ForeseesAll ops

theorem Foresees.foreseen {op : Operation} {a : Answer} (h : s.Foresees op) (hs : s.Sane)
    (hstep : s.step op = .ok (s', a)) : Foreseen s s' := by
  cases op with
  | check effort =>
    obtain ⟨r, rfl, hv⟩ := hs.verdict_of_step hstep
    exact hv.foreseen h
  | _ => exact h s' a hstep

/-- Where no constraint has a proof now, none has one in an outer scope. -/
theorem Foreseen.scope (h : Foreseen s s') (hr : s.Recorded) {n : Nat} (hn : n ≤ s.level) :
    s'.database.constraints.size = s.database.constraints.size ∨
      ∀ c, ¬ (s.ledgerAt n).Proven c :=
  h.imp_right fun h c hc => unproven_iff.mp h c (hr.proven_now hn hc)

/-! ## One operation -/

theorem Maintains.saturated (h : Maintains s s') (hr : Running s j) (hf : Foreseen s s')
    (hsat : Saturated s j) : Saturated s' j := by
  intro n hn hm
  rw [h.level] at hn
  refine (hsat n hn hm).transfer (hr.sane.recorded.sound n hn) (fun c => ?_) (h.keeps n hn)
    h.inherits (hf.scope hr.sane.recorded hn)
  rw [Ledger.Proven, ((h.ledgers n hn).proofs c).1]
  exact Iff.rfl

theorem Verdict.saturated {effort : Effort} {r : Report} (h : Verdict effort s s' r)
    (hr : Running s j) (hon : s.options.propagateBounds = true)
    (hf : s.ForeseesFacts s.pending) (hsat : Saturated s j) (hc : j.conflict = none) :
    Saturated s' (j.note (.check effort) (.sent r)) := by
  intro n hn hm
  have hs := hr.sane
  rw [h.continues.level] at hn
  have hbelow : n < s.level → (s'.ledgerAt n).Closed s'.database := fun hlt =>
    (hsat.closed hc hn).transfer (hs.recorded.sound n hn)
      (fun c => by rw [h.continues.below n hlt]) (h.continues.keeps _) h.continues.inherits
      ((h.foreseen hf).scope hs.recorded hn)
  rcases em (r.conflicts = []) with hnone | hsome
  · rcases Nat.lt_or_eq_of_le hn with hlt | rfl
    · exact hbelow hlt
    · have hclosed := hsat.closed hc (Nat.le_refl _)
      rw [hs.recorded.levelled.ledgerAt_level] at hclosed
      rw [← h.continues.level, h.sane.recorded.levelled.ledgerAt_level]
      exact (h.accepts hnone).closed hon hf hclosed
  · -- the facts up to the conflict may have left the innermost scope unfinished
    refine hbelow ?_
    have hlt := hm j.level (by simp only [Journal.note, if_neg hsome])
    rwa [← hr.level] at hlt

theorem Opened.saturated (h : Opened s s') (hr : Running s j) (hsat : Saturated s j)
    (hc : j.conflict = none) : Saturated s' { j with level := j.level + 1 } := by
  intro n hn _
  rw [h.level] at hn
  rcases Nat.le_or_eq_of_le_succ hn with hle | rfl
  · rw [h.ledgers n hle]
    exact (hsat.closed hc hle).agrees h.agrees fun _ => Iff.rfl
  · have hclosed := hsat.closed hc (Nat.le_refl _)
    rw [hr.sane.recorded.levelled.ledgerAt_level] at hclosed
    rw [Nat.succ_eq_add_one, ← h.level, h.sane.recorded.levelled.ledgerAt_level, h.now]
    exact hclosed.agrees h.agrees fun _ => Iff.rfl

theorem Left.saturated {n : Nat} (h : Left n s s') (hsat : Saturated s j) (hn : n ≤ s.level)
    (hallows : ∀ m, j.conflict = some m → n < m) {j' : Journal} : Saturated s' j' := by
  intro k hk _
  rw [h.level] at hk
  rw [h.ledgers k hk]
  exact (hsat k (hk.trans hn) fun m hm => Nat.lt_of_le_of_lt hk (hallows m hm)).agrees h.agrees
    fun _ => Iff.rfl

theorem Transition.saturated {op : Operation} {a : Answer} (h : Transition s op a s')
    (hr : Running s j) (hstep : s.step op = .ok (s', a)) (hon : s.options.propagateBounds = true)
    (hf : s.Foresees op) (hsat : Saturated s j) (hallows : j.Allows op) :
    Saturated s' (j.note op a) := by
  have hforeseen := hf.foreseen hr.sane hstep
  cases h with
  | maintains quiet h _ _ _ _ =>
    rw [quiet]
    exact h.saturated hr hforeseen hsat
  | asserts h _ _ _ =>
    have hsat' : Saturated s' j := h.saturated hr hforeseen hsat
    exact hsat'
  | checks h => exact h.saturated hr hon hf hsat hallows
  | opens h => exact h.saturated hr hsat hallows
  | leaves _ h =>
    refine h.saturated hsat (Nat.sub_le _ _) fun m hm => ?_
    rw [hr.level]
    exact hallows m hm

/-! ## Runs -/

theorem Saturated.run {ops : List Operation} {as : List Answer} (hsat : Saturated s j)
    (hr : Running s j) (hon : s.options.propagateBounds = true) (h : s.run ops = .ok (s', as))
    (hallows : j.AllowsAll ops as) (hf : s.ForeseesAll ops) :
    Saturated s' (j.noteAll ops as) := by
  induction ops generalizing s j as with
  | nil =>
    obtain ⟨rfl, _⟩ := Prod.mk.inj (Except.ok.inj h)
    exact hsat
  | cons op ops ih =>
    obtain ⟨s₁, a, as', hstep, hrun, rfl⟩ := run_cons_eq_ok h
    have ht := hr.sane.step_spec hr.committed hstep
    exact ih (ht.saturated hr hstep hon hf.1 hsat hallows.1) (ht.running hr)
      (ht.options ▸ hon) hrun hallows.2 (hf.2 s₁ a hstep)

/-! ## Runs that create their constraints first -/

theorem foreseesAll_append {ops ops' : List Operation} {as : List Answer}
    (h : s.run ops = .ok (s', as)) :
    s.ForeseesAll (ops ++ ops') ↔ s.ForeseesAll ops ∧ s'.ForeseesAll ops' := by
  induction ops generalizing s as with
  | nil =>
    obtain ⟨rfl, _⟩ := Prod.mk.inj (Except.ok.inj h)
    exact (and_iff_right trivial).symm
  | cons op ops ih =>
    obtain ⟨s₁, a, as', hstep, hrun, rfl⟩ := run_cons_eq_ok h
    have hnext : ∀ P : Theory → Prop, (∀ s' a, s.step op = .ok (s', a) → P s') ↔ P s₁ := by
      refine fun P => ⟨fun hP => hP s₁ a hstep, fun hP s₂ b hstep₂ => ?_⟩
      cases hstep.symm.trans hstep₂
      exact hP
    rw [List.cons_append, ForeseesAll, ForeseesAll, hnext fun t => t.ForeseesAll (ops ++ ops'),
      hnext fun t => t.ForeseesAll ops, ih hrun, and_assoc]

theorem Transition.size_le {op : Operation} {a : Answer} (h : Transition s op a s') :
    s.database.constraints.size ≤ s'.database.constraints.size := by
  cases h with
  | maintains _ h _ _ _ _ => exact h.inherits.size
  | asserts h _ _ _ => exact h.inherits.size
  | checks h => exact h.continues.inherits.size
  | opens h => exact h.agrees.inherits.size
  | leaves _ h => exact h.agrees.inherits.size

theorem Running.size_le (hr : Running s j) {ops : List Operation} {as : List Answer}
    (h : s.run ops = .ok (s', as)) :
    s.database.constraints.size ≤ s'.database.constraints.size :=
  hr.preserve h (P := fun t => s.database.constraints.size ≤ t.database.constraints.size)
    (Nat.le_refl _) fun _ _ _ ht hle => hle.trans ht.size_le

theorem Sane.foresees_of_size (hs : s.Sane) {op : Operation} {a : Answer}
    (hstep : s.step op = .ok (s', a))
    (hsize : s'.database.constraints.size = s.database.constraints.size) : s.Foresees op := by
  cases op with
  | check effort =>
    obtain ⟨r, rfl, hv⟩ := hs.verdict_of_step hstep
    exact hv.foresees hsize
  | _ =>
    intro s₁ b hstep₁
    cases hstep.symm.trans hstep₁
    exact .inl hsize

/-- A run that ends with the number of constraints it began with has created none. -/
theorem Running.foreseesAll_of_size (hr : Running s j) {ops : List Operation} {as : List Answer}
    (h : s.run ops = .ok (s', as))
    (hsize : s'.database.constraints.size = s.database.constraints.size) : s.ForeseesAll ops := by
  induction ops generalizing s j as with
  | nil => trivial
  | cons op ops ih =>
    obtain ⟨s₁, a, as', hstep, hrun, rfl⟩ := run_cons_eq_ok h
    have ht := hr.sane.step_spec hr.committed hstep
    have hle := ht.size_le
    have hle' := (ht.running hr).size_le hrun
    refine ⟨hr.sane.foresees_of_size hstep (by omega), fun s₂ b hstep₂ => ?_⟩
    cases hstep.symm.trans hstep₂
    exact ih (ht.running hr) hrun (by omega)

/-- Only checks find proofs. -/
theorem Transition.unproven {op : Operation} {a : Answer} (h : Transition s op a s') (hs : s.Sane)
    (hop : ∀ effort, op ≠ .check effort) (hu : s.Unproven) : s'.Unproven := by
  have hpreserves : Preserves s s' → s'.Unproven := fun hp =>
    unproven_iff.mpr fun c hc => unproven_iff.mp hu c (by
      rw [Ledger.Proven, marks_now, hp.proofs] at hc
      exact hc)
  cases h with
  | maintains _ h _ _ _ _ => exact hpreserves (h.preserves hs)
  | asserts h _ _ _ => exact hpreserves (h.preserves hs)
  | checks h => exact absurd rfl (hop _)
  | opens h => exact hpreserves h.preserves
  | leaves _ h =>
    refine unproven_iff.mpr fun c hc => unproven_iff.mp hu c ?_
    rw [← h.sane.recorded.levelled.ledgerAt_level, h.level, h.ledgers _ (Nat.le_refl _)] at hc
    exact hs.recorded.proven_now (Nat.sub_le _ _) hc

theorem Running.foreseesAll_of_unproven (hr : Running s j) {ops : List Operation}
    (hu : s.Unproven) (hops : ∀ op ∈ ops, ∀ effort, op ≠ .check effort) : s.ForeseesAll ops := by
  induction ops generalizing s j with
  | nil => trivial
  | cons op ops ih =>
    have hop := hops op List.mem_cons_self
    refine ⟨?_, fun s₁ a hstep => ?_⟩
    · cases op with
      | check effort => exact absurd rfl (hop effort)
      | _ => exact fun _ _ _ => .inr hu
    · have ht := hr.sane.step_spec hr.committed hstep
      exact ih (ht.running hr) (ht.unproven hr.sane hop hu) fun op' h =>
        hops op' (List.mem_cons_of_mem _ h)

/-- No operation creates a constraint while another one has a proof when all are there before the
first check. -/
theorem foreseesAll_of_early {o : Options} {ops ops' : List Operation} {as as' : List Answer}
    (h : (start o).run ops = .ok (s, as)) (hops : ∀ op ∈ ops, ∀ effort, op ≠ .check effort)
    (h' : s.run ops' = .ok (s', as'))
    (hsize : s'.database.constraints.size = s.database.constraints.size) :
    (start o).ForeseesAll (ops ++ ops') :=
  (foreseesAll_append h).mpr ⟨(running_start o).foreseesAll_of_unproven
    (fun _ _ hk => nomatch hk) hops, (running_of_run h).foreseesAll_of_size h' hsize⟩

/-! ## Checks without a conflict -/

/-- A fact that is settled and has a constraint is known to hold. -/
theorem Sane.proven_of_settles (hs : s.Sane) {t : Term} {c : ConstraintId}
    (ht : s.database.lookup t = some c) (h : s.now.Settles s t) : s.now.Proven c := by
  rcases h with hconst | ⟨c', ht', hp⟩
  · -- a literal without unknowns has no constraint
    obtain ⟨_, k, hc, hlive, _⟩ := hs.linked.valid.known t c ht
    obtain ⟨ρ, hρ⟩ := hs.linked.exists_not_says hs.named hs.framed.toArranged hc hlive
    refine absurd ?_ hρ
    rw [hs.linked.says_iff_holds ht, hs.linked.holds_iff_constantTruth hconst]
  · rw [ht] at ht'
    rwa [Option.some.inj ht']

section Check

variable {o : Options} {ops : List Operation} {as : List Answer} {effort : Effort} {r : Report}

/-- After a check without a conflict, whatever an asserted bound or equality implies is known to
hold, and whatever it refutes is known not to hold. -/
theorem saturated_of_check (hon : o.propagateBounds = true)
    (hrun : (start o).run ops = .ok (s, as)) (hallows : Journal.AllowsAll {} ops as)
    (hready : (Journal.of ops as).Allows (.check effort))
    (hforesees : (start o).ForeseesAll (ops ++ [.check effort]))
    (hcheck : s.check effort = .ok (s', r)) (hnone : r.conflicts = []) {t : Term}
    (ht : (Journal.of ops as).Asserts t)
    (hkind : ¬ t.IsDisequality) {c d : ConstraintId} {k l : Constraint}
    (hlook : s'.database.lookup t = some c) (hc : s'.database.stored c = some k)
    (hd : s'.database.stored d = some l) (hlive : l.live = true)
    (hvar : l.statement.var = k.statement.var) :
    ((∀ q, k.statement.TrueAt q → l.statement.TrueAt q) → l.hasProof = true) ∧
      ((∀ q, k.statement.TrueAt q → ¬ l.statement.TrueAt q) →
        ∃ n, s'.database.stored l.negation = some n ∧ n.hasProof = true) := by
  have hr := running_of_run hrun
  have hv := verdict_of_run hrun hcheck
  have hs := hv.sane
  have hvalid := hs.linked.valid
  obtain ⟨hforesees, hlast, _⟩ := (foreseesAll_append hrun).mp hforesees
  have hsat : Saturated s (.of ops as) :=
    (saturated_start o).run (running_start o) hon hrun hallows hforesees
  have hclosed := (hv.saturated hr ((running_start o).options hrun ▸ hon) hlast hsat hready).closed
    (by rw [Journal.note, if_pos hnone]; exact hready) (Nat.le_refl _)
  rw [hs.recorded.levelled.ledgerAt_level] at hclosed
  obtain ⟨_, hsettles⟩ := settles_of_check hrun hallows hready hcheck hnone ht
  have hproven := hs.proven_of_settles hlook hsettles
  have hbound : k.statement.kind ≠ .disequality := fun h =>
    hkind ((hs.linked.denotes t c k hlook hc).kind.mp h)
  -- what the constraint implies at all rationals is within its reach
  have hknown : ∀ e m, s'.database.stored e = some m → m.live = true →
      m.statement.var = k.statement.var →
      (∀ q, k.statement.TrueAt q → m.statement.TrueAt q) → m.hasProof = true := by
    intro e m he hmlive hmvar himp
    obtain ⟨_, _, _, hkneg, _⟩ := hvalid.negation c k hc
    obtain ⟨_, _, _, hmneg, _⟩ := hvalid.negation e m he
    have hreach := (hvalid.representable c k hc).reaches (hvalid.representable e m he) hmvar hbound
      fun q hq => (Statement.trueAt_iff_holds hmneg q).mp
        (himp q ((Statement.trueAt_iff_holds hkneg q).mpr hq))
    have hp := hclosed c hproven k hc hbound e ⟨m, he, hmlive, hreach.implies hmvar⟩
    rw [Ledger.Proven, marks_now, Database.marksOf_of_stored he] at hp
    exact Option.isSome_iff_ne_none.mpr hp
  refine ⟨hknown d l hd hlive hvar, fun hno => ?_⟩
  obtain ⟨n, hn, _, hneg, hnlive⟩ := hvalid.negation d l hd
  refine ⟨n, hn, hknown _ n hn (hnlive.trans hlive)
    ((Statement.var_of_negation? hneg).trans hvar) fun q hq => ?_⟩
  exact (Statement.trueAt_negation? hneg q).mpr (hno q hq)

/-- Literals that are known of before the first check. -/
def ladder : List Operation :=
  [.register (.rel .ge (.var "x") (.const 0)), .register (.rel .le (.var "x") (.const 3)),
    .register (.rel .eq (.var "x") (.const 4)), .register (.rel .ge (.var "x") (.const 5))]

/-- Checks of `0 ≤ x`, of `x = 4` in a scope that is left again, and an assertion of `5 ≤ x`. -/
def climb : List Operation :=
  [.assert (.rel .ge (.var "x") (.const 0)), .check .standard, .push,
    .assert (.rel .eq (.var "x") (.const 4)), .check .full, .pop 1,
    .assert (.rel .ge (.var "x") (.const 5))]

/-- The last bound refutes `x ≤ 3`. -/
theorem saturated_of_climb :
    ∃ s as s' d l n, (start {}).run (ladder ++ climb) = .ok (s, as) ∧
      s.check .full = .ok (s', {}) ∧
        s'.database.lookup (.rel .le (.var "x") (.const 3)) = some d ∧
          s'.database.stored d = some l ∧ s'.database.stored l.negation = some n ∧
            n.hasProof = true := by
  let t : Term := .rel .ge (.var "x") (.const 5)
  let u : Term := .rel .le (.var "x") (.const 3)
  have h : ((start {}).run ladder >>= fun p => p.1.run climb >>= fun q =>
      q.1.check .full >>= fun x => Except.ok (x.2, (p.2 ++ q.2).all (·.isQuiet) &&
        (Journal.of (ladder ++ climb) (p.2 ++ q.2)).facts.any (·.literal == t) &&
          x.1.database.constraints.size == p.1.database.constraints.size,
        (x.1.database.lookup t).bind fun c => (x.1.database.stored c).map (·.statement),
        (x.1.database.lookup u).bind fun c => (x.1.database.stored c).map (·.statement))) =
      .ok ({}, true, some ⟨⟨0⟩, .lower, ⟨5, 0⟩⟩, some ⟨⟨0⟩, .upper, ⟨3, 0⟩⟩) := by decide +kernel
  obtain ⟨⟨s₁, as₁⟩, hrun₁, h⟩ := bind_eq_ok.mp h
  obtain ⟨⟨s, as⟩, hrun₂, h⟩ := bind_eq_ok.mp h
  obtain ⟨⟨s', r⟩, hcheck, h⟩ := bind_eq_ok.mp h
  simp only [Except.ok.injEq, Prod.mk.injEq, Bool.and_eq_true, beq_iff_eq,
    Option.bind_eq_some_iff, Option.map_eq_some_iff] at h
  obtain ⟨rfl, ⟨⟨hquiet, hasserted⟩, hsize⟩, ⟨c, hlook, k, hc, hk⟩, d, hlook', l, hd, hl⟩ := h
  have hrun := run_append hrun₁ hrun₂
  obtain ⟨hallows, hready⟩ : Journal.AllowsAll {} (ladder ++ climb) (as₁ ++ as) ∧
      (Journal.of (ladder ++ climb) (as₁ ++ as)).conflict = none :=
    Journal.allowsAll_of_quiet rfl hquiet
  obtain ⟨e, he, het⟩ := List.any_eq_true.mp hasserted
  have hlast : s.run [.check .full] = .ok (s', [.sent {}]) := by
    simp only [run, step, hcheck, ok_bind, pure_eq_ok]
  have hforesees : (start {}).ForeseesAll ((ladder ++ climb) ++ [.check .full]) := by
    rw [List.append_assoc]
    exact foreseesAll_of_early hrun₁ (by simp [ladder]) (run_append hrun₂ hlast) hsize
  have hlive : l.live = true := by
    obtain ⟨_, l', hl', hlive, _⟩ :=
      (verdict_of_run hrun hcheck).sane.linked.valid.known u d hlook'
    rw [hd] at hl'
    rwa [Option.some.inj hl']
  obtain ⟨n, hn, hproof⟩ := (saturated_of_check rfl hrun hallows hready hforesees hcheck rfl
    ⟨e, he, beq_iff_eq.mp het⟩ (by decide) hlook hc hd hlive (by rw [hk, hl])).2 fun q hq => by
      rw [hk] at hq
      rw [hl]
      simp only [Statement.TrueAt] at hq ⊢
      grind
  exact ⟨s, as₁ ++ as, s', d, l, n, hrun, hcheck, hlook', hd, hn, hproof⟩

end Check

end LinearArithmetic.Theory
