import LinearArithmetic.Proofs.Run

/-!
# Runs that leave their conflicts

When the search leaves the scope of a conflict before the next check, the facts of every open scope
have been processed completely: each is known to hold, and each known constraint has had its effect.
While a conflict waits, this is so for the scopes around its own.

The values need not be within the bounds of these scopes: a reset that is made while a conflict
waits moves them onto bounds that are gone when the scope of the conflict is left. What is left of
them to see for the next repair can be told from the operations and answers alone.
-/

namespace LinearArithmetic

/-- What there is of values beyond the bounds of the scopes around a waiting conflict. -/
inductive Sight where
  /-- there are none -/
  | inside
  /-- they are values of basic variables that are marked for the next repair -/
  | watched
  /-- the next repair may overlook some -/
  | lost
  deriving DecidableEq

namespace Sight

/-- The sight after an operation with an answer. A reset marks every basic variable. Marked
variables can get lost when variables are eliminated, as they leave the basis for them, or in a
repair that ends with a conflict. -/
def note (sight : Sight) (j : Journal) (op : Theory.Operation) (a : Theory.Answer) : Sight :=
  match sight, op, a with
  | .inside, .reset, _ | .inside, .restart, _ => if j.conflict = none then .inside else .watched
  | _, .reset, _ => .watched
  | .watched, .presolve, a | .watched, .eliminate _, a =>
    if a.eliminates = true then .lost else .watched
  | .watched, .check _, .sent r => if r.conflicts = [] then .inside else .lost
  | sight, _, _ => sight

/-- The sight after the operations of a run with their answers. -/
def noteAll : Sight → Journal → List Theory.Operation → List Theory.Answer → Sight
  | sight, j, op :: ops, a :: as => (sight.note j op a).noteAll (j.note op a) ops as
  | sight, _, _, _ => sight

/-- The sight at the end of a run. -/
def of (ops : List Theory.Operation) (as : List Theory.Answer) : Sight := inside.noteAll {} ops as

/-- An operation that respects a waiting conflict takes no value beyond its bounds. -/
theorem note_of_allows {j : Journal} {op : Theory.Operation} (h : j.Allows op)
    (a : Theory.Answer) : inside.note j op a = inside := by
  cases op with
  | reset => exact if_pos h
  | restart => exact if_pos h
  | _ => rfl

theorem noteAll_of_allowsAll {j : Journal} {ops : List Theory.Operation}
    {as : List Theory.Answer} (h : j.AllowsAll ops as) : inside.noteAll j ops as = inside := by
  induction ops generalizing j as with
  | nil => rfl
  | cons op ops ih =>
    cases as with
    | nil => rfl
    | cons a as =>
      rw [noteAll, note_of_allows h.1]
      exact ih h.2

/-- A check without a conflict takes all values within the bounds, unless it overlooks some. -/
theorem note_of_accepted {sight : Sight} (hsight : sight ≠ lost) {r : Report}
    (hnone : r.conflicts = []) {j : Journal} {effort : Effort} :
    sight.note j (.check effort) (.sent r) = inside := by
  cases sight with
  | inside => rfl
  | watched => exact if_pos hnone
  | lost => exact absurd rfl hsight

end Sight

namespace Theory

/-! ## Scopes and the values -/

/-- How the values are to the bounds of a scope. -/
def Sees (s : Theory) (n : Nat) : Sight → Prop
  | .inside => ∀ side v b, (s.ledgerAt n).bounds side v = some b →
      side.Inside b.value (s.simplex.model.valueOf v)
  | .watched => ∀ side v b, (s.ledgerAt n).bounds side v = some b →
      side.Inside b.value (s.simplex.model.valueOf v) ∨ s.simplex.Watches v
  | .lost => True

/-- The facts of a scope have had their effects, and the values are in sight. -/
structure Fit (s : Theory) (n : Nat) (sight : Sight) : Prop where
  complete : (s.ledgerAt n).Complete s
  sees : s.Sees n sight

/-- Every scope below the one of a waiting conflict fits. -/
def Healthy (s : Theory) (j : Journal) (sight : Sight) : Prop :=
  ∀ n ≤ s.level, (∀ m, j.conflict = some m → n < m) → s.Fit n sight

theorem Healthy.fit {s : Theory} {j : Journal} {sight : Sight} (h : Healthy s j sight)
    (hc : j.conflict = none) {n : Nat} (hn : n ≤ s.level) : s.Fit n sight :=
  h n hn fun m hm => by
    rw [hc] at hm
    cases hm

section Sees

variable {s s' : Theory} {m n : Nat} {sight : Sight}

/-- All values are within their bounds when the innermost scope sees so. -/
theorem Sees.inside_now (h : s.Sees s.level .inside) (hr : s.Recorded) : s.Inside := by
  intro u side b hb
  refine h side u b ?_
  rw [hr.levelled.ledgerAt_level]
  exact hb

theorem Fit.inside_now (h : s.Fit s.level .inside) (hr : s.Recorded) : s.Inside :=
  h.sees.inside_now hr

/-- What the innermost scope sees is what the next repair sees. -/
theorem Sees.queued (h : s.Sees s.level sight) (hr : s.Recorded) (hsight : sight ≠ .lost) :
    s.simplex.Queued := by
  intro u hu
  cases sight with
  | inside => exact absurd (h.inside_now hr u) hu
  | watched =>
    by_contra hnot
    refine hu fun side b hb => (h side u b ?_).resolve_right hnot
    rw [hr.levelled.ledgerAt_level]
    exact hb
  | lost => exact absurd rfl hsight

theorem Sees.watched_of_inside (h : s.Sees n .inside) : s.Sees n .watched :=
  fun side v b hb => .inl (h side v b hb)

/-- The bounds of a scope are at most as tight as those of the scopes in it. -/
theorem Recorded.exists_now (hr : s.Recorded) (hn : n ≤ s.level) {side : Side} {v : Var}
    {b : Bound} (hb : (s.ledgerAt n).bounds side v = some b) :
    ∃ b', s.simplex.model.boundOf side v = some b' ∧ side.Inside b.value b'.value :=
  (hr.extends_now hn).bounds side v b hb

theorem Recorded.awake_of_bound (hr : s.Recorded) (hn : n ≤ s.level) {side : Side} {v : Var}
    {b : Bound} (hb : (s.ledgerAt n).bounds side v = some b) : ¬ s.Dormant v := by
  obtain ⟨b', hb', _⟩ := hr.exists_now hn hb
  exact hr.bounded side v b' hb'

theorem Recorded.sees_inside (hr : s.Recorded) (h : s.Inside) (hn : n ≤ s.level) :
    s.Sees n .inside := by
  intro side v b hb
  obtain ⟨b', hb', hin⟩ := hr.exists_now hn hb
  exact Side.inside_trans hin (h v side b' hb')

theorem Recorded.sees_watched (hr : s.Recorded) (h : s.simplex.Queued) (hn : n ≤ s.level) :
    s.Sees n .watched := by
  intro side v b hb
  obtain ⟨b', hb', hin⟩ := hr.exists_now hn hb
  by_cases hw : s.simplex.model.Within v
  · exact .inl (Side.inside_trans hin (hw side b' hb'))
  · exact .inr (h v hw)

/-- Values that are inside stay so when those of variables that are awake do not change. -/
theorem Sees.of_values (h : s.Sees n .inside) (hr : s.Recorded) (hn : n ≤ s.level)
    (hbounds : (s'.ledgerAt m).bounds = (s.ledgerAt n).bounds)
    (hvalues : ∀ u, ¬ s.Dormant u → s'.simplex.model.valueOf u = s.simplex.model.valueOf u) :
    s'.Sees m .inside := by
  intro side v b hb
  rw [hbounds] at hb
  rw [hvalues v (hr.awake_of_bound hn hb)]
  exact h side v b hb

theorem Sees.steady (h : s.Sees n sight) (hr : s.Recorded) (hn : n ≤ s.level)
    (hbounds : (s'.ledgerAt m).bounds = (s.ledgerAt n).bounds) (hsteady : Steady s s') :
    s'.Sees m sight := by
  cases sight with
  | inside => exact h.of_values hr hn hbounds hsteady.values
  | watched =>
    intro side v b hb
    rw [hbounds] at hb
    have hawake := hr.awake_of_bound hn hb
    rw [hsteady.values v hawake]
    exact (h side v b hb).imp_right (hsteady.watches v hawake)
  | lost => trivial

end Sees

/-- While no conflict waits a check gives a verdict. -/
theorem Healthy.exists_check {s : Theory} {j : Journal} {sight : Sight} (h : Healthy s j sight)
    (hs : s.Sane) (hc : j.conflict = none) (hsight : sight ≠ .lost) (effort : Effort) :
    ∃ s' r, s.check effort = .ok (s', r) := by
  have hq := (h.fit hc (Nat.le_refl _)).sees.queued hs.recorded hsight
  obtain ⟨p, hok, _⟩ := (hs.check_spec effort).exists_ok fun _ hf => hf hq
  exact ⟨p.1, p.2, hok⟩

theorem healthy_start (o : Options) : Healthy (start o) {} .inside := by
  intro n hn _
  rw [level_start, Nat.le_zero] at hn
  have hnow : (start o).ledgerAt n = (start o).now := by
    rw [hn, ← level_start o, (levelled_start o).ledgerAt_level]
  refine ⟨⟨fun f hf => ?_, fun c k hk => (by cases hk)⟩, fun side v b hb => ?_⟩
  · rw [hnow] at hf
    cases hf
  · rw [hnow] at hb
    cases side <;> cases hb

/-! ## One operation -/

section Operations

variable {s s' : Theory} {j : Journal} {sight : Sight}

/-- An operation between checks keeps the values in sight, or the sight is not said to be kept. -/
theorem Maintains.sees {op : Operation} {a : Answer} (h : Maintains s s') (hr : Running s j)
    (hh : Healthy s j sight) (hmoves : s.Moves s' op a) {n : Nat} (hn : n ≤ s.level)
    (hm : ∀ m, j.conflict = some m → n < m) : s'.Sees n (sight.note j op a) := by
  have hrec := hr.sane.recorded
  have hsees := (hh n hn hm).sees
  have hbounds := (h.ledgers n hn).bounds
  have hn' : n ≤ s'.level := by rwa [h.level]
  have hsteady : Steady s s' → s'.Sees n sight := hsees.steady hrec hn hbounds
  -- without a waiting conflict no operation takes a value beyond its bounds
  have hinside : j.conflict = none → sight = .inside → s'.Sees n .inside := by
    rintro hc rfl
    have hin := (hh.fit hc (Nat.le_refl _)).sees.inside_now hrec
    exact h.sane.recorded.sees_inside (h.inside hin) hn'
  have hqueued : s'.simplex.Queued → s'.Sees n .watched := fun hq =>
    h.sane.recorded.sees_watched hq hn'
  cases op with
  | register _ | assert _ | propagate | explain _ | push | pop _ =>
    cases sight <;> exact hsteady hmoves
  | check effort => exact hmoves.elim
  | presolve | eliminate _ =>
    cases sight with
    | inside => exact hsees.of_values hrec hn hbounds hmoves.1
    | watched =>
      rw [Sight.note]
      split
      · trivial
      · rename_i hidle
        exact hsteady (hmoves.2 (Bool.eq_false_of_not_eq_true hidle))
    | lost => trivial
  | reset =>
    cases sight with
    | inside =>
      rw [Sight.note]
      split
      · exact hinside ‹_› rfl
      · exact hqueued hmoves
    | watched => exact hqueued hmoves
    | lost => exact hqueued hmoves
  | restart =>
    cases sight with
    | inside =>
      rw [Sight.note]
      split
      · exact hinside ‹_› rfl
      · exact hmoves.elim hqueued fun hs => (hsteady hs).watched_of_inside
    | watched => exact hmoves.elim hqueued hsteady
    | lost => trivial

/-- When every processed fact has had its effect and the repair sees every violation, a check
without a conflict leaves the innermost scope fit. -/
theorem Verdict.fit {effort : Effort} {r : Report} (h : Verdict effort s s' r)
    (hcomplete : s.now.Complete s) (hq : s.simplex.Queued) (hnone : r.conflicts = []) :
    s'.Fit s'.level .inside where
  complete := by
    rw [h.sane.recorded.levelled.ledgerAt_level]
    exact (h.accepts hnone).complete hcomplete
  sees := h.sane.recorded.sees_inside ((h.accepts hnone).within hq) (Nat.le_refl _)

theorem Verdict.healthy {effort : Effort} {r : Report} (h : Verdict effort s s' r)
    (hr : Running s j) (hh : Healthy s j sight) (hc : j.conflict = none) :
    Healthy s' (j.note (.check effort) (.sent r)) (sight.note j (.check effort) (.sent r)) := by
  intro n hn hm
  rw [h.continues.level] at hn
  have hs := hr.sane
  have hfit := hh.fit hc hn
  rcases em (r.conflicts = []) with hnone | hsome
  · refine ⟨?_, ?_⟩
    · -- the scopes around the innermost one have not changed
      rcases Nat.lt_or_eq_of_le hn with hlt | rfl
      · rw [h.continues.below n hlt]
        exact hfit.complete.keeps (h.continues.keeps _) (hs.recorded.sound n hn)
          h.continues.constants
      · have hcomplete := hfit.complete
        rw [hs.recorded.levelled.ledgerAt_level] at hcomplete
        rw [← h.continues.level, h.sane.recorded.levelled.ledgerAt_level]
        exact (h.accepts hnone).complete hcomplete
    · by_cases hsight : sight = .lost
      · rw [hsight]
        trivial
      · -- a repair that sees every violation ends inside the bounds
        rw [Sight.note_of_accepted hsight hnone]
        have hq := (hh.fit hc (Nat.le_refl _)).sees.queued hs.recorded hsight
        exact h.sane.recorded.sees_inside ((h.accepts hnone).within hq) (by rwa [h.continues.level])
  · -- the values are those from before the check
    have hlt : n < s.level := by
      have hlt := hm j.level (by simp only [Journal.note, if_neg hsome])
      rwa [← hr.level] at hlt
    have hledger := h.continues.below n hlt
    refine ⟨?_, ?_⟩
    · rw [hledger]
      exact hfit.complete.keeps (h.continues.keeps _) (hs.recorded.sound n hn) h.continues.constants
    · cases sight with
      | inside =>
        refine hfit.sees.of_values hs.recorded hn (by rw [hledger]) fun u hu => ?_
        rw [h.reverted hsome u hu, hr.committed.safeOf_eq]
      | watched =>
        rw [Sight.note, if_neg hsome]
        trivial
      | lost => trivial

/-- A scope that stays as it was still fits. -/
theorem Fit.transfer {m n : Nat} (h : s.Fit n sight) (hs : s.Sane) (hn : n ≤ s.level)
    (hledger : s'.ledgerAt m = s.ledgerAt n) (hdb : Database.Agrees s.database s'.database)
    (hconst : s'.constantAtoms = s.constantAtoms) (hsteady : Steady s s') : s'.Fit m sight where
  complete := by
    rw [hledger]
    exact h.complete.keeps (Ledger.keeps_of_agrees hdb _) (hs.recorded.sound n hn)
      fun a b hb => by rwa [hconst]
  sees := h.sees.steady hs.recorded hn (by rw [hledger]) hsteady

theorem steady_of_parts (hvalues : s'.simplex.model.valueOf = s.simplex.model.valueOf)
    (htab : s'.simplex.tableau = s.simplex.tableau)
    (hsuspects : s'.simplex.suspects = s.simplex.suspects) : Steady s s' where
  values u _ := by rw [hvalues]
  watches u _ hw := by
    rw [Simplex.Watches, htab, hsuspects]
    exact hw

theorem Opened.healthy (h : Opened s s') (hr : Running s j) (hh : Healthy s j sight) :
    Healthy s' { j with level := j.level + 1 } sight := by
  intro n hn hm
  have hs := hr.sane
  have hsteady := steady_of_parts h.values h.tableau h.suspects
  rw [h.level] at hn
  rcases Nat.le_or_eq_of_le_succ hn with hle | rfl
  · exact (hh n hle hm).transfer hs hle (h.ledgers n hle) h.agrees h.constants hsteady
  · -- the new scope is like the one it was opened in
    refine (hh s.level (Nat.le_refl _) fun m hc => Nat.lt_of_succ_lt (hm m hc)).transfer hs
      (Nat.le_refl _) ?_ h.agrees h.constants hsteady
    rw [Nat.succ_eq_add_one, ← h.level, h.sane.recorded.levelled.ledgerAt_level, h.now,
      hs.recorded.levelled.ledgerAt_level]

theorem Left.healthy {n : Nat} (h : Left n s s') (hr : Running s j) (hh : Healthy s j sight)
    (hn : n ≤ s.level) : Healthy s' ⟨j.facts.filter fun f => f.level ≤ n, n,
      j.conflict.filter fun m => m ≤ n⟩ sight := by
  intro k hk hm
  rw [h.level] at hk
  refine (hh k (hk.trans hn) fun m hc => ?_).transfer hr.sane (hk.trans hn) (h.ledgers k hk)
    h.agrees h.constants (steady_of_parts h.values h.tableau h.suspects)
  -- a conflict that does not wait any more was in a scope that has been left
  by_cases hmn : m ≤ n
  · exact hm m (Option.filter_eq_some_iff.mpr ⟨hc, decide_eq_true hmn⟩)
  · omega

theorem Transition.healthy {op : Operation} {a : Answer} (h : Transition s op a s')
    (hr : Running s j) (hh : Healthy s j sight) (hheeds : j.Heeds op) :
    Healthy s' (j.note op a) (sight.note j op a) := by
  cases h with
  | maintains quiet h _ _ _ moves =>
    rw [quiet]
    intro n hn hm
    rw [h.level] at hn
    exact ⟨h.complete hr.sane hn (hh n hn hm).complete, h.sees hr hh moves hn hm⟩
  | @asserts t _ h _ _ steady =>
    intro n hn hm
    rw [h.level] at hn
    have hmoves : s.Moves s' (.assert t) .done := steady
    exact ⟨h.complete hr.sane hn (hh n hn hm).complete, h.sees hr hh hmoves hn hm⟩
  | checks h => exact h.healthy hr hh hheeds
  | opens h => cases sight <;> exact h.healthy hr hh
  | leaves _ h =>
    rw [hr.level] at h
    have hh' := h.healthy hr hh (by rw [hr.level]; exact Nat.sub_le _ _)
    cases sight <;> exact hh'

/-- An operation that respects a waiting conflict keeps the values inside. -/
theorem Transition.healthy_of_allows {op : Operation} {a : Answer} (h : Transition s op a s')
    (hr : Running s j) (hh : Healthy s j .inside) (hallows : j.Allows op) :
    Healthy s' (j.note op a) .inside := by
  have hh' := h.healthy hr hh hallows.heeds
  rwa [Sight.note_of_allows hallows] at hh'

end Operations

/-! ## Runs -/

theorem Healthy.run {s s' : Theory} {j : Journal} {sight : Sight} {ops : List Operation}
    {as : List Answer} (hh : Healthy s j sight) (hr : Running s j) (h : s.run ops = .ok (s', as))
    (hheeds : j.HeedsAll ops as) : Healthy s' (j.noteAll ops as) (sight.noteAll j ops as) := by
  induction ops generalizing s j sight as with
  | nil =>
    obtain ⟨rfl, rfl⟩ := Prod.mk.inj (Except.ok.inj h)
    exact hh
  | cons op ops ih =>
    obtain ⟨s₁, a, as', hstep, hrun, rfl⟩ := run_cons_eq_ok h
    have ht := hr.sane.step_spec hr.committed hstep
    exact ih (ht.healthy hr hh hheeds.1) (ht.running hr) hrun hheeds.2

theorem healthy_of_heeded {o : Options} {s : Theory} {ops : List Operation} {as : List Answer}
    (h : (start o).run ops = .ok (s, as)) (hheeds : Journal.HeedsAll {} ops as) :
    Healthy s (.of ops as) (.of ops as) :=
  (healthy_start o).run (running_start o) h hheeds

theorem healthy_of_run {o : Options} {s : Theory} {ops : List Operation} {as : List Answer}
    (h : (start o).run ops = .ok (s, as)) (hallows : Journal.AllowsAll {} ops as) :
    Healthy s (.of ops as) .inside := by
  have hh := healthy_of_heeded h hallows.heedsAll
  rwa [Sight.of, Sight.noteAll_of_allowsAll hallows] at hh

end Theory

end LinearArithmetic
