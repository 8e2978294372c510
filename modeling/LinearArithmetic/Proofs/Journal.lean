import LinearArithmetic.Proofs.Check
import LinearArithmetic.Proofs.Maintenance
import LinearArithmetic.Proofs.Scopes
import LinearArithmetic.Theory.Run

/-!
# Runs and their journals

A journal notes from the operations of a run and their answers which literals have been asserted
and not undone, how many scopes are open, and whether a conflict waits for a scope to be left. In
every run the processed and the waiting facts are those of the journal, in order.
-/

namespace LinearArithmetic

/-- What the operations and answers of a run tell about it. -/
structure Journal where
  /-- the literals that were asserted and not undone, oldest first -/
  facts : List Fact := []
  /-- the number of open scopes -/
  level : Nat := 0
  /-- the number of scopes that were open at a check whose conflict has not been left -/
  conflict : Option Nat := none

namespace Journal

/-- The journal after an operation with an answer. -/
def note (j : Journal) : Theory.Operation → Theory.Answer → Journal
  | .assert t, .done => { j with facts := j.facts ++ [⟨t, j.level⟩] }
  | .check _, .sent r => if r.conflicts = [] then j else { j with conflict := some j.level }
  | .push, _ => { j with level := j.level + 1 }
  | .pop levels, _ =>
    { facts := j.facts.filter fun f => f.level ≤ j.level - levels
      level := j.level - levels
      conflict := j.conflict.filter fun n => n ≤ j.level - levels }
  | _, _ => j

/-- The journal after the operations of a run with their answers. -/
def noteAll : Journal → List Theory.Operation → List Theory.Answer → Journal
  | j, op :: ops, a :: as => (j.note op a).noteAll ops as
  | j, _, _ => j

/-- The journal of a run. -/
def of (ops : List Theory.Operation) (as : List Theory.Answer) : Journal := noteAll {} ops as

/-- The literal was asserted, and the assertion has not been undone. -/
def Asserts (j : Journal) (t : Term) : Prop := ∃ f ∈ j.facts, f.literal = t

theorem asserts_iff_mem {j : Journal} {t : Term} :
    j.Asserts t ↔ t ∈ j.facts.map Fact.literal := by
  rw [Asserts, List.mem_map]

/-- After a conflict the search only asks for explanations and propagations before it leaves the
scope of the conflict. -/
def Allows (j : Journal) : Theory.Operation → Prop
  | .propagate | .explain _ => True
  | .pop levels => ∀ n, j.conflict = some n → j.level - levels < n
  | _ => j.conflict = none

/-- A check waits until the scope of a conflict is left; nothing else does. -/
def Heeds (j : Journal) : Theory.Operation → Prop
  | .check _ => j.conflict = none
  | _ => True

theorem Allows.heeds {j : Journal} {op : Theory.Operation} (h : j.Allows op) : j.Heeds op := by
  cases op with
  | check effort => exact h
  | _ => trivial

/-- Every operation of the run is allowed when it is made. -/
def AllowsAll : Journal → List Theory.Operation → List Theory.Answer → Prop
  | j, op :: ops, a :: as => j.Allows op ∧ (j.note op a).AllowsAll ops as
  | _, _, _ => True

/-- No check of the run is made while a conflict waits. -/
def HeedsAll : Journal → List Theory.Operation → List Theory.Answer → Prop
  | j, op :: ops, a :: as => j.Heeds op ∧ (j.note op a).HeedsAll ops as
  | _, _, _ => True

instance decidableHeeds (j : Journal) (op : Theory.Operation) : Decidable (j.Heeds op) :=
  match op with
  | .check _ => inferInstanceAs (Decidable (j.conflict = none))
  | .register _ | .assert _ | .propagate | .explain _ | .push | .pop _ | .restart | .presolve
  | .reset | .eliminate _ => isTrue trivial

instance decidableHeedsAll (j : Journal) (ops : List Theory.Operation)
    (as : List Theory.Answer) : Decidable (j.HeedsAll ops as) :=
  match ops, as with
  | op :: ops, a :: as =>
    have := decidableHeedsAll (j.note op a) ops as
    inferInstanceAs (Decidable (_ ∧ _))
  | [], _ => isTrue trivial
  | _ :: _, [] => isTrue trivial

theorem AllowsAll.heedsAll {j : Journal} {ops : List Theory.Operation}
    {as : List Theory.Answer} (h : j.AllowsAll ops as) : j.HeedsAll ops as := by
  induction ops generalizing j as with
  | nil => trivial
  | cons op ops ih =>
    cases as with
    | nil => trivial
    | cons a as => exact ⟨h.1.heeds, ih h.2⟩

end Journal

/-- The answer tells of no conflict. -/
def Theory.Answer.isQuiet : Theory.Answer → Bool
  | .sent r => r.conflicts.isEmpty
  | _ => true

/-- Without a conflict every operation is allowed. -/
theorem Journal.allowsAll_of_quiet {j : Journal} (hj : j.conflict = none)
    {ops : List Theory.Operation} {as : List Theory.Answer} (h : as.all (·.isQuiet) = true) :
    j.AllowsAll ops as ∧ (j.noteAll ops as).conflict = none := by
  induction ops generalizing j as with
  | nil => exact ⟨trivial, hj⟩
  | cons op ops ih =>
    cases as with
    | nil => exact ⟨trivial, hj⟩
    | cons a as =>
      rw [List.all_cons, Bool.and_eq_true] at h
      have hnote : (j.note op a).conflict = none := by
        cases op with
        | assert t => cases a <;> exact hj
        | check effort =>
          cases a with
          | sent r =>
            rw [note, if_pos (List.isEmpty_iff.mp h.1)]
            exact hj
          | _ => exact hj
        | pop levels =>
          rw [note, hj]
          rfl
        | _ => exact hj
      obtain ⟨hrest, hend⟩ := ih hnote h.2
      refine ⟨⟨?_, hrest⟩, hend⟩
      cases op with
      | propagate => trivial
      | explain t => trivial
      | pop levels =>
        intro n hn
        rw [hj] at hn
        cases hn
      | _ => exact hj

namespace Theory

/-- The state is one of a run with the journal. -/
structure Running (s : Theory) (j : Journal) : Prop where
  sane : s.Sane
  committed : s.simplex.model.Committed
  level : s.level = j.level
  facts : s.processed.toList ++ s.pending = j.facts
  timely : ∀ n ≤ s.level, ∀ f ∈ (s.ledgerAt n).facts, f.level ≤ n
  waiting : ∀ f ∈ s.pending, f.level ≤ s.level

/-- The facts and scopes of a state do not tell of a conflict. -/
theorem Running.of_conflict {s : Theory} {j j' : Journal} (hr : Running s j)
    (hfacts : j'.facts = j.facts) (hlevel : j'.level = j.level) : Running s j' where
  sane := hr.sane
  committed := hr.committed
  level := by rw [hlevel, hr.level]
  facts := by rw [hfacts, hr.facts]
  timely := hr.timely
  waiting := hr.waiting

/-- Operations that process nothing keep the journal. -/
theorem Maintains.running {s s' : Theory} {j : Journal} (h : Maintains s s') (hr : Running s j)
    (hpending : s'.pending = s.pending) : Running s' j where
  sane := h.sane
  committed := h.committed hr.committed
  level := h.level.trans hr.level
  facts := by
    rw [h.processed, hpending]
    exact hr.facts
  timely n hn f hf := by
    rw [h.level] at hn
    rw [(h.ledgers n hn).facts] at hf
    exact hr.timely n hn f hf
  waiting f hf := by
    rw [h.level]
    exact hr.waiting f (hpending ▸ hf)

theorem Running.assert {s s' : Theory} {j : Journal} (hr : Running s j) {t : Term}
    (h : Maintains s s') (hpending : s'.pending = s.pending ++ [⟨t, s.level⟩]) :
    Running s' { j with facts := j.facts ++ [⟨t, j.level⟩] } where
  sane := h.sane
  committed := h.committed hr.committed
  level := h.level.trans hr.level
  facts := by
    rw [h.processed, hpending, ← List.append_assoc, hr.facts, hr.level]
  timely n hn f hf := by
    rw [h.level] at hn
    rw [(h.ledgers n hn).facts] at hf
    exact hr.timely n hn f hf
  waiting f hf := by
    rw [hpending] at hf
    rw [h.level]
    rcases List.mem_append.mp hf with hf | hf
    · exact hr.waiting f hf
    · rw [List.mem_singleton.mp hf]

/-- All facts were asserted in scopes that are open. -/
theorem Running.fact_level {s : Theory} {j : Journal} (hr : Running s j) {f : Fact}
    (hf : f ∈ j.facts) : f.level ≤ s.level := by
  rw [← hr.facts] at hf
  rcases List.mem_append.mp hf with hf | hf
  · refine hr.timely s.level (Nat.le_refl _) f ?_
    rw [hr.sane.recorded.levelled.ledgerAt_level]
    exact hf
  · exact hr.waiting f hf

theorem Verdict.running {effort : Effort} {s s' : Theory} {r : Report} {j : Journal}
    (h : Verdict effort s s' r) (hr : Running s j) : Running s' j where
  sane := h.sane
  committed := h.committed
  level := h.continues.level.trans hr.level
  facts := h.facts.trans hr.facts
  timely n hn f hf := by
    rw [h.continues.level] at hn
    rcases Nat.lt_or_eq_of_le hn with hlt | rfl
    · rw [h.continues.below n hlt] at hf
      exact hr.timely n hn f hf
    · refine hr.fact_level ?_
      rw [← hr.facts, ← h.facts]
      rw [← h.continues.level, h.sane.recorded.levelled.ledgerAt_level] at hf
      exact List.mem_append_left _ hf
  waiting f hf := by
    rw [h.continues.level]
    refine hr.fact_level ?_
    rw [← hr.facts, ← h.facts]
    exact List.mem_append_right _ hf

theorem Opened.running {s s' : Theory} {j : Journal} (h : Opened s s') (hr : Running s j) :
    Running s' { j with level := j.level + 1 } where
  sane := h.sane
  committed u := by
    rw [h.saved]
    exact hr.committed u
  level := by rw [h.level, hr.level]
  facts := by
    rw [h.processed, h.pending]
    exact hr.facts
  timely n hn f hf := by
    rcases Nat.lt_or_eq_of_le hn with hlt | rfl
    · rw [h.level] at hlt
      rw [h.ledgers n (Nat.le_of_lt_succ hlt)] at hf
      exact hr.timely n (Nat.le_of_lt_succ hlt) f hf
    · rw [h.sane.recorded.levelled.ledgerAt_level, h.now] at hf
      rw [h.level]
      refine Nat.le_succ_of_le (hr.fact_level ?_)
      rw [← hr.facts]
      exact List.mem_append_left _ hf
  waiting f hf := by
    rw [h.level]
    exact Nat.le_succ_of_le (hr.waiting f (h.pending ▸ hf))

theorem Left.running {n : Nat} {s s' : Theory} {j : Journal} (h : Left n s s') (hr : Running s j)
    (hn : n ≤ s.level) (conflict : Option Nat) :
    Running s' ⟨j.facts.filter fun f => f.level ≤ n, n, conflict⟩ where
  sane := h.sane
  committed u := by
    rw [h.saved]
    exact hr.committed u
  level := h.level
  facts := by
    obtain ⟨undone, hall, hkept, hpending⟩ := h.facts
    -- the facts that were kept were asserted in scopes that stay open
    have hkeep : (s.ledgerAt n).facts.filter (fun f => f.level ≤ n) = (s.ledgerAt n).facts :=
      List.filter_eq_self.mpr fun f hf => decide_eq_true (hr.timely n hn f hf)
    rw [hkept, hpending]
    show _ = j.facts.filter fun f => f.level ≤ n
    rw [← hr.facts, hall, List.append_assoc, List.filter_append _ (undone ++ s.pending), hkeep]
  timely k hk f hf := by
    rw [h.level] at hk
    rw [h.ledgers k hk] at hf
    exact hr.timely k (hk.trans hn) f hf
  waiting f hf := by
    obtain ⟨undone, _, _, hpending⟩ := h.facts
    rw [hpending] at hf
    rw [h.level]
    exact of_decide_eq_true (List.mem_filter.mp hf).2

end Theory

end LinearArithmetic
