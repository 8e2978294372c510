import LinearArithmetic.Proofs.Equations

/-!
# The facts of a run

Which facts a run leaves can be told from its operations and answers alone: those literals that were
accepted in a scope that is still open, in the order in which they were asserted. However the facts
move between the trail and the queue, these are the processed and then the waiting ones.
-/

namespace LinearArithmetic.Theory

namespace Operation

/-- The number of open scopes after an operation that finds `n` of them open. -/
def levelAfter (n : Nat) : Operation → Nat
  | push => n + 1
  | pop levels => n - levels
  | _ => n

end Operation

/-- The least number of open scopes before, between and after operations that find `n` of them
open. -/
def lowest : Nat → List Operation → Nat
  | n, [] => n
  | n, op :: ops => min n (lowest (op.levelAfter n) ops)

/-- The literals that a run accepts in scopes it does not leave again, oldest first, each with the
number of scopes open at that time. -/
def accepted : Nat → List Operation → List Answer → List Fact
  | n, .assert t :: ops, .done :: as =>
    if n ≤ lowest n ops then ⟨t, n⟩ :: accepted n ops as else accepted n ops as
  | n, op :: ops, _ :: as => accepted (op.levelAfter n) ops as
  | _, _, _ => []

theorem lowest_le (n : Nat) (ops : List Operation) : lowest n ops ≤ n := by
  cases ops with
  | nil => exact Nat.le_refl n
  | cons op ops => exact Nat.min_le_left _ _

theorem lowest_cons_le (n : Nat) (op : Operation) (ops : List Operation) :
    lowest n (op :: ops) ≤ lowest (op.levelAfter n) ops := Nat.min_le_right _ _

/-- The journal counts the open scopes. -/
theorem level_note (j : Journal) (op : Operation) (a : Answer) :
    (j.note op a).level = op.levelAfter j.level := by
  cases op with
  | assert t => cases a <;> rfl
  | check effort =>
    cases a <;> try rfl
    simp only [Journal.note]
    split <;> rfl
  | _ => rfl

/-- An operation that is not an accepted assertion only drops facts of scopes that are left. -/
theorem facts_note {j : Journal} (hj : ∀ f ∈ j.facts, f.level ≤ j.level) {op : Operation}
    {a : Answer} (hop : ∀ t, op = .assert t → a ≠ .done) :
    (j.note op a).facts = j.facts.filter fun f => f.level ≤ op.levelAfter j.level := by
  have hall : ∀ n, j.level ≤ n → j.facts = j.facts.filter fun f => f.level ≤ n := fun n hn =>
    (List.filter_eq_self.mpr fun f hf => decide_eq_true ((hj f hf).trans hn)).symm
  cases op with
  | assert t =>
    have hne := hop t rfl
    cases a with
    | done => exact absurd rfl hne
    | _ => exact hall _ (Nat.le_refl _)
  | check effort =>
    have hnote : (j.note (.check effort) a).facts = j.facts := by
      cases a <;> try rfl
      simp only [Journal.note]
      split <;> rfl
    exact hnote.trans (hall _ (Nat.le_refl _))
  | push => exact hall _ (Nat.le_succ _)
  | pop levels => rfl
  | _ => exact hall _ (Nat.le_refl _)

theorem accepted_of_other {n : Nat} {op : Operation} {a : Answer}
    (hop : ∀ t, op = .assert t → a ≠ .done) (ops : List Operation) (as : List Answer) :
    accepted n (op :: ops) (a :: as) = accepted (op.levelAfter n) ops as := by
  cases op with
  | assert t =>
    cases a with
    | done => exact absurd rfl (hop t rfl)
    | _ => rfl
  | _ => rfl

/-- Dropping the facts of scopes that are left now is dropping none that stay to the end. -/
theorem filter_filter_level (l : List Fact) {m n : Nat} (h : m ≤ n) :
    (l.filter fun f => f.level ≤ n).filter (fun f => f.level ≤ m) =
      l.filter fun f => f.level ≤ m := by
  rw [List.filter_filter]
  refine List.filter_congr fun f _ => ?_
  rw [Bool.and_eq_left_iff_imp, decide_eq_true_eq, decide_eq_true_eq]
  exact fun hf => hf.trans h

/-- The journal of the rest of a run keeps the facts that were asserted in scopes that are not left,
and adds those that the rest accepts. -/
theorem facts_noteAll {j : Journal} (hj : ∀ f ∈ j.facts, f.level ≤ j.level)
    {ops : List Operation} {as : List Answer} (hlen : ops.length = as.length) :
    (j.noteAll ops as).facts =
      j.facts.filter (fun f => f.level ≤ lowest j.level ops) ++ accepted j.level ops as := by
  induction ops generalizing j as with
  | nil =>
    have hall : j.facts.filter (fun f => f.level ≤ j.level) = j.facts :=
      List.filter_eq_self.mpr fun f hf => decide_eq_true (hj f hf)
    obtain rfl : as = [] := List.eq_nil_of_length_eq_zero hlen.symm
    have hnone : accepted j.level [] [] = [] := rfl
    rw [lowest, hall, hnone, List.append_nil]
    rfl
  | cons op ops ih =>
    obtain ⟨a, as, rfl⟩ : ∃ a as', as = a :: as' :=
      List.exists_cons_of_length_pos (hlen ▸ Nat.succ_pos _)
    have hlen' : ops.length = as.length := Nat.succ.inj hlen
    by_cases hop : ∃ t, op = .assert t ∧ a = .done
    · obtain ⟨t, rfl, rfl⟩ := hop
      have hnote : ∀ f ∈ (j.note (.assert t) .done).facts, f.level ≤ j.level := by
        intro f hf
        rcases List.mem_append.mp hf with hf | hf
        · exact hj f hf
        · rw [List.mem_singleton.mp hf]
      have hlow : lowest j.level (.assert t :: ops) = lowest j.level ops :=
        Nat.min_eq_right (lowest_le _ _)
      rw [Journal.noteAll, ih hnote hlen', hlow]
      show (j.facts ++ [(⟨t, j.level⟩ : Fact)]).filter (fun f => f.level ≤ lowest j.level ops) ++
        accepted j.level ops as = _
      rw [List.filter_append, List.append_assoc, accepted]
      by_cases hkept : j.level ≤ lowest j.level ops <;> simp [hkept]
    · replace hop : ∀ t, op = .assert t → a ≠ .done := fun t ht ha => hop ⟨t, ht, ha⟩
      have hfacts := facts_note hj hop
      have hlevel := level_note j op a
      have hnote : ∀ f ∈ (j.note op a).facts, f.level ≤ (j.note op a).level := by
        intro f hf
        rw [hfacts] at hf
        rw [hlevel]
        exact of_decide_eq_true (List.mem_filter.mp hf).2
      have hlow : j.facts.filter (fun f => f.level ≤ lowest j.level (op :: ops)) =
          j.facts.filter fun f => f.level ≤ lowest (op.levelAfter j.level) ops := by
        refine List.filter_congr fun f hf => decide_eq_decide.mpr ?_
        exact Nat.le_min.trans (and_iff_right (hj f hf))
      rw [Journal.noteAll, ih hnote hlen', hfacts, hlevel, accepted_of_other hop, hlow,
        filter_filter_level _ (lowest_le _ _)]

/-! ## Runs -/

theorem length_of_run {s s' : Theory} {ops : List Operation} {as : List Answer}
    (h : s.run ops = .ok (s', as)) : ops.length = as.length := by
  induction ops generalizing s as with
  | nil =>
    obtain ⟨rfl, rfl⟩ := Prod.mk.inj (Except.ok.inj h)
    rfl
  | cons op ops ih =>
    obtain ⟨s₁, a, as', _, hrun, rfl⟩ := run_cons_eq_ok h
    exact congrArg Nat.succ (ih hrun)

/-- The journal of a run has the facts that the run accepts. -/
theorem facts_of_eq_accepted {o : Options} {s : Theory} {ops : List Operation} {as : List Answer}
    (h : (start o).run ops = .ok (s, as)) : (Journal.of ops as).facts = accepted 0 ops as := by
  rw [Journal.of, facts_noteAll (fun f hf => (by cases hf)) (length_of_run h)]
  rfl

/-- A check moves facts from the queue to the trail, one after the other. -/
theorem Stage.facts {s s' : Theory} (h : Stage s s') (hs : s.Sane) :
    s'.processed.toList ++ s'.pending = s.processed.toList ++ s.pending := by
  induction h with
  | start => rfl
  | @processed s₁ s₂ f rest conflict hstage next step ih =>
    have hsane := hstage.sane hs
    have hlin : ∀ g ∈ f :: rest, g.literal.Linear := fun g hg =>
      hsane.recorded.linear g (List.mem_append_right _ (next ▸ hg))
    obtain ⟨s₃, c, hok, hhandles⟩ := (hsane.taking hlin).1.assertFact_spec
      (hlin f List.mem_cons_self) ⟨f, by simp [Theory.taking], rfl⟩
    cases hok.symm.trans step
    have htaken : (s₁.taking f rest).processed.toList = s₁.processed.toList ++ [f] :=
      Trail.toList_push _ _
    have hrest : s₂.pending = rest := hhandles.pending
    rw [hhandles.processed, htaken, hrest, ← ih, next, List.append_assoc, List.singleton_append]
  | repaired _ _ ih => exact ih

/-- In every state of a run, also in the middle of a check, the facts that were processed and those
that wait are the accepted literals of the open scopes, in their order and with their levels. -/
theorem facts_of_run {o : Options} {s s' : Theory} {ops : List Operation} {as : List Answer}
    (hrun : (start o).run ops = .ok (s, as)) (hstage : Stage s s') :
    s'.processed.toList ++ s'.pending = accepted 0 ops as := by
  have hr := running_of_run hrun
  exact (hstage.facts hr.sane).trans (hr.facts.trans (facts_of_eq_accepted hrun))

/-- Assertions of `0 ≤ x`, and of `x < 0`, `0 ≤ y` and `0 ≤ z` in scopes of their own. The check
stops at the second one, and the two innermost scopes are left. -/
def interrupted : List Operation :=
  [.assert (.rel .ge (.var "x") (.const 0)), .push, .assert (.rel .ge (.var "z") (.const 0)), .push,
    .assert (.rel .lt (.var "x") (.const 0)), .push, .assert (.rel .ge (.var "y") (.const 0)),
    .check .full, .pop 2]

/-- The first fact was processed in a scope that was left, so it waits again. -/
theorem facts_of_interrupted :
    ∃ s as, (start {}).run interrupted = .ok (s, as) ∧ s.processed.toList = [] ∧
      s.pending.length = 2 ∧ s.processed.toList ++ s.pending = accepted 0 interrupted as := by
  have h : ((start {}).run interrupted >>= fun p =>
      Except.ok (p.1.processed.toList, p.1.pending.length)) = .ok ([], 2) := by decide +kernel
  obtain ⟨⟨s, as⟩, hrun, hfacts⟩ := bind_eq_ok.mp h
  obtain ⟨hprocessed, hpending⟩ := Prod.mk.inj (Except.ok.inj hfacts)
  exact ⟨s, as, hrun, hprocessed, hpending, facts_of_run hrun .start⟩

end LinearArithmetic.Theory
