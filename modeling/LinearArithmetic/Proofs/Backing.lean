import LinearArithmetic.Proofs.Restoration

/-!
# What bounds, disequalities and proofs refer to

Bounds and disequalities are kept with the number of the constraint that they come from, and proofs
with those of their antecedents. In every state of a run these constraints are still there, and
those of bounds and disequalities were asserted, by facts that have been processed and not been
taken back. So none of them is garbage.
-/

namespace LinearArithmetic.Theory

/-! ## Asserted constraints -/

/-- The constraint has been asserted: it is live, and it explains itself with the literal of a
processed fact, which leads to it. -/
structure Founded (s : Theory) (c : ConstraintId) (k : Constraint) : Prop where
  stored : s.database.stored c = some k
  live : k.live = true
  proof : k.proof = some []
  fact : ∃ f ∈ s.processed.toList, k.explainingLiteral? = some f.literal ∧
    s.database.lookup f.literal = some c ∧ s.database.explain c = .ok (.all [f.literal])

theorem Recorded.founded {s : Theory} (h : s.Recorded) {c : ConstraintId}
    (hc : (s.database.marksOf c).proof = some []) : ∃ k, s.Founded c k := by
  obtain ⟨t, hself, hlook, f, hf, rfl⟩ := h.selfExplained hc
  have hexplain := hself.explain_eq
  obtain ⟨k, hk, hp, ht⟩ := hself
  exact ⟨k, hk, h.live hk hc, hp, f, hf, ht, hlook, hexplain⟩

theorem Recorded.founded_of_stored {s : Theory} (h : s.Recorded) {c : ConstraintId}
    {k : Constraint} (hc : (s.database.marksOf c).proof = some [])
    (hk : s.database.stored c = some k) : s.Founded c k := by
  obtain ⟨l, hl⟩ := h.founded hc
  obtain rfl := Option.some.inj (hk.symm.trans hl.stored)
  exact hl

theorem proven_iff_of_stored {s : Theory} {c : ConstraintId} {k : Constraint}
    (hk : s.database.stored c = some k) : s.now.Proven c ↔ k.hasProof = true := by
  rw [Ledger.Proven, marks_now, Database.marksOf_of_stored hk]
  exact Option.isSome_iff_ne_none.symm

/-- The antecedents of a proof were asserted. -/
theorem Recorded.self_of_antecedent {s : Theory} (h : s.Recorded) {c a : ConstraintId}
    {k : Constraint} {as : List ConstraintId} (hk : s.database.stored c = some k)
    (hp : k.proof = some as) (ha : a ∈ as) : (s.database.marksOf a).proof = some [] := by
  have hmarks : (s.now.marks c).proof = some as := by
    rw [marks_now, Database.marksOf_of_stored hk]
    exact hp
  cases as with
  | nil => cases ha
  | cons b bs =>
    obtain ⟨rfl, hself, -⟩ := h.sound_now.implied c k b bs hk hmarks
    rw [List.mem_singleton.mp ha]
    exact hself

/-! ## References -/

/-- A bound, an asserted disequality or a proof refers to the constraint. The bounds of the outer
scopes count as well, since leaving the inner ones brings them back. -/
inductive RefersTo (s : Theory) (c : ConstraintId) : Prop where
  | bound {n : Nat} {side : Side} {v : Var} {b : Bound} (hn : n ≤ s.level)
      (hb : s.simplex.model.boundsAt n side v = some b) (hc : b.reason = c)
  | disequality (hd : c ∈ s.disequalities.toList)
  | proof {k : Constraint} (hk : s.database.stored c = some k) (hp : k.hasProof = true)
  | antecedent {d : ConstraintId} {k : Constraint} {as : List ConstraintId}
      (hk : s.database.stored d = some k) (hp : k.proof = some as) (hc : c ∈ as)

/-- What is referred to is known to hold now, whatever scope it was found out in. -/
theorem RefersTo.proven {s : Theory} {c : ConstraintId} (h : s.RefersTo c) (hr : s.Recorded) :
    s.now.Proven c := by
  cases h with
  | @bound n side v b hn hb hc =>
    obtain ⟨hself, -⟩ := (hr.sound n hn).reasons side v b hb
    apply hr.proven_now hn
    rw [Ledger.Proven, ← hc, hself]
    simp
  | disequality hd =>
    obtain ⟨hself, -⟩ := hr.sound_now.disequalities c hd
    exact proven_of_self hself
  | proof hk hp => exact (proven_iff_of_stored hk).mpr hp
  | antecedent hk hp hc => exact proven_of_self (hr.self_of_antecedent hk hp hc)

theorem RefersTo.stored {s : Theory} {c : ConstraintId} (h : s.RefersTo c) (hr : s.Recorded) :
    ∃ k, s.database.stored c = some k ∧ k.live = true ∧ k.hasProof = true := by
  have hproven := h.proven hr
  obtain ⟨k, hk, hlive⟩ := hr.sound_now.stored c hproven
  exact ⟨k, hk, hlive, (proven_iff_of_stored hk).mp hproven⟩

/-- A collection leaves what is referred to as it is. -/
theorem RefersTo.stored_of_collected {s : Theory} {c : ConstraintId} (h : s.RefersTo c)
    (hr : s.Recorded) {db : Database} (hdb : Database.Collected s.database db) :
    db.stored c = s.database.stored c := by
  obtain ⟨k, hk, -, hp⟩ := h.stored hr
  rw [hk, hdb.pruned.stored_of_hasProof hk hp]

/-- The database after a reset is the one before it without its garbage. -/
theorem Sane.collected_of_resetTableau {s s' : Theory} (hs : s.Sane)
    (h : s.resetTableau = .ok s') : Database.Collected s.database s'.database := by
  have hcommitted : s.simplex.model.Committed := by
    rw [← Model.hasUncommitted_eq_false_iff]
    by_contra huncommitted
    rw [resetTableau, if_pos (by simpa using huncommitted)] at h
    cases h
  obtain ⟨vs, hex, -⟩ := hs.needed_spec
  obtain ⟨db, n, hcollect, hcollected⟩ := hs.linked.valid.collect
  have hreset :=
    hs.framed.resetTableau hcommitted hs.recorded.sound_now.ordered hex hcollect
  rw [(hreset.of_ok h).2]
  exact hcollected

/-! ## One operation -/

/-- What the first state refers to is still there in the second one: live, with the same statement,
negation and literal. -/
def KeepsReferences (s s' : Theory) : Prop :=
  ∀ c, s.RefersTo c → ∃ k k', s.database.stored c = some k ∧ s'.database.stored c = some k' ∧
    k'.live = true ∧ k'.bare = k.bare

theorem Transition.keeps_now {s s' : Theory} {op : Operation} {a : Answer}
    (h : Transition s op a s') (hs : s.Sane) : s.now.Keeps s.database s'.database := by
  rw [← hs.recorded.levelled.ledgerAt_level]
  cases h with
  | maintains _ h _ _ _ _ => exact h.keeps s.level (le_refl _)
  | asserts h _ _ _ => exact h.keeps s.level (le_refl _)
  | checks h => exact h.continues.keeps _
  | opens h => exact Ledger.keeps_of_agrees h.agrees _
  | leaves _ h => exact Ledger.keeps_of_agrees h.agrees _

theorem Transition.keepsReferences {s s' : Theory} {op : Operation} {a : Answer}
    (h : Transition s op a s') (hs : s.Sane) : s.KeepsReferences s' := by
  intro c hc
  obtain ⟨k, hk, hlive, -⟩ := hc.stored hs.recorded
  obtain ⟨k', hk', hbare⟩ := (h.keeps_now hs).stored c k (hc.proven hs.recorded) hk
  exact ⟨k, k', hk, hk', (Constraint.live_of_bare hbare).trans hlive, hbare⟩

/-! ## The states of a run -/

/-- All that bounds, asserted disequalities and proofs refer to is there and known to hold, and
collecting garbage does not touch it. -/
structure Backed (s : Theory) : Prop where
  ordered : ∀ v l u, s.simplex.model.boundOf .lower v = some l →
    s.simplex.model.boundOf .upper v = some u → l.value ≤ u.value
  /-- the reason of a bound is about the variable and the value of the bound, and bounds it on its
  side or is an equality -/
  bounds : ∀ side v b, s.simplex.model.boundOf side v = some b →
    ∃ k, s.Founded b.reason k ∧ k.statement.var = v ∧ k.statement.value = b.value ∧
      (k.statement.kind = side.kind ∨ k.statement.kind = .equality)
  disequalities : ∀ d ∈ s.disequalities.toList,
    ∃ k, s.Founded d k ∧ k.statement.kind = .disequality
  /-- a slack variable with a bound or an asserted disequality has its row -/
  materialized : ∀ v i r, s.infos.get? v.id = some i → i.definition = some r →
    ((∃ side b, s.simplex.model.boundOf side v = some b) ∨
      ∃ d ∈ s.disequalities.toList, ∃ k, s.database.stored d = some k ∧ k.statement.var = v) →
    i.materialized = true
  proofs : ∀ c k as, s.database.stored c = some k → k.proof = some as →
    k.live = true ∧ ∀ a ∈ as, ∃ l, s.Founded a l
  collected : ∃ db n, s.database.collect = .ok (db, n) ∧
    ∀ c, s.RefersTo c → db.stored c = s.database.stored c
  reset : ∀ s', s.resetTableau = .ok s' →
    ∀ c, s.RefersTo c → s'.database.stored c = s.database.stored c

/-- A slack variable that is not dormant has its row. -/
theorem materialized_of_not_dormant {s : Theory} {v : Var} {i : VarInfo} {r : Row}
    (hi : s.infos.get? v.id = some i) (hr : i.definition = some r) (hv : ¬ s.Dormant v) :
    i.materialized = true := by
  have hactive : s.Active v := by
    by_contra hnot
    exact hv (.inl hnot)
  obtain ⟨j, hj, hrole⟩ := hactive
  obtain rfl := Option.some.inj (hi.symm.trans hj)
  rcases hrole with hleaf | hmaterialized
  · rw [hr] at hleaf
    cases hleaf
  · exact hmaterialized

theorem Sane.backed {s : Theory} (hs : s.Sane) : s.Backed where
  ordered := hs.recorded.sound_now.ordered
  bounds side v b hb := by
    obtain ⟨hself, k, hk, hvar, hvalue, hkind⟩ := hs.recorded.sound_now.reasons side v b hb
    exact ⟨k, hs.recorded.founded_of_stored hself hk, hvar, hvalue, hkind⟩
  disequalities d hd := by
    obtain ⟨hself, k, hk, hkind⟩ := hs.recorded.sound_now.disequalities d hd
    exact ⟨k, hs.recorded.founded_of_stored hself hk, hkind⟩
  materialized v i r hi hr hused := by
    apply materialized_of_not_dormant hi hr
    rcases hused with ⟨side, b, hb⟩ | ⟨d, hd, k, hk, rfl⟩
    · exact hs.recorded.bounded side v b hb
    · exact hs.recorded.excluded d hd k hk
  proofs c k as hk hp := by
    have hproof : k.hasProof = true := by
      rw [Constraint.hasProof, hp]
      rfl
    obtain ⟨l, hl, hlive⟩ := hs.recorded.sound_now.stored c ((proven_iff_of_stored hk).mpr hproof)
    obtain rfl := Option.some.inj (hk.symm.trans hl)
    exact ⟨hlive, fun a ha => hs.recorded.founded (hs.recorded.self_of_antecedent hk hp ha)⟩
  collected := by
    obtain ⟨db, n, hcollect, hdb⟩ := hs.linked.valid.collect
    exact ⟨db, n, hcollect, fun c hc => hc.stored_of_collected hs.recorded hdb⟩
  reset s' h c hc := hc.stored_of_collected hs.recorded (hs.collected_of_resetTableau h)

/-- In every state of a run, and in every state that a check goes through, bounds, disequalities and
proofs are backed by constraints that are there, and no operation removes one of these. -/
theorem backed_of_run {o : Options} {ops : List Operation} {as : List Answer} {s : Theory}
    (hrun : (start o).run ops = .ok (s, as)) :
    (∀ s', Stage s s' → s'.Backed) ∧
      ∀ op s' a, s.step op = .ok (s', a) → s.KeepsReferences s' := by
  have hr := running_of_run hrun
  constructor
  · intro s' hstage
    exact (hstage.sane hr.sane).backed
  · intro op s' a hstep
    exact (hr.sane.step_spec hr.committed hstep).keepsReferences hr.sane

/-- A bound on `x + y`, which implies a weaker one, and a disequality are checked, then a bound on
`y` in a scope that is left again, and last a bound that crosses the first. -/
def leftBehind : List Operation :=
  let sum := Term.sum [.var "x", .var "y"]
  [.register (.rel .ge sum (.const (1 / 2))), .assert (.rel .ge sum (.const 1)),
    .assert (.neg (.rel .eq sum (.const 3))), .check .full,
    .push, .assert (.rel .ge (.var "y") (.const 5)), .check .full, .pop 1,
    .push, .assert (.rel .lt sum (.const 0)), .check .full]

/-- A reset removes the constraint on `y` and its negation, and no other. -/
theorem backed_of_leftBehind :
    ∃ s as s' a, (start {}).run leftBehind = .ok (s, as) ∧ s.step .reset = .ok (s', a) ∧
      (s.simplex.model.boundOf .lower ⟨2⟩).map Bound.reason = some ⟨2⟩ ∧
      (s.database.stored ⟨0⟩).map Constraint.proof = some (some [⟨2⟩]) ∧
      s.disequalities.toList = [⟨5⟩] ∧
      s.database.numConstraints = 10 ∧ s'.database.numConstraints = 8 ∧
      s.Backed ∧ s.KeepsReferences s' := by
  have h : ((start {}).run leftBehind >>= fun p => p.1.step .reset >>= fun q => Except.ok
      ((p.1.simplex.model.boundOf .lower ⟨2⟩).map Bound.reason,
        (p.1.database.stored ⟨0⟩).map Constraint.proof, p.1.disequalities.toList,
        p.1.database.numConstraints, q.1.database.numConstraints)) =
      .ok (some ⟨2⟩, some (some [⟨2⟩]), [⟨5⟩], 10, 8) := by decide +kernel
  obtain ⟨⟨s, as⟩, hrun, h⟩ := bind_eq_ok.mp h
  obtain ⟨⟨s', a⟩, hstep, h⟩ := bind_eq_ok.mp h
  simp only [Except.ok.injEq, Prod.mk.injEq] at h
  obtain ⟨hbound, hproof, hdisequalities, hbefore, hafter⟩ := h
  obtain ⟨hbacked, hkeeps⟩ := backed_of_run hrun
  exact ⟨s, as, s', a, hrun, hstep, hbound, hproof, hdisequalities, hbefore, hafter,
    hbacked s .start, hkeeps .reset s' a hstep⟩

end LinearArithmetic.Theory
