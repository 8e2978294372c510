import LinearArithmetic.Proofs.History

/-!
# What leaving a scope brings back

Whatever happens in a scope, the ledgers of the scopes around it stay as they are, and what they are
about stays in the database. So when the scope is left, everything that was known when it was
opened is known again, and nothing else.
-/

namespace LinearArithmetic

/-! ## Explanations -/

namespace Database

variable {db db' : Database}

/-- A constraint without a proof has no explanation. -/
theorem explain_of_unproven {c : ConstraintId} {k : Constraint} (hc : db.stored c = some k)
    (hp : k.proof = none) : db.explain c = .error (.noProof c) := by
  have hwalk : db.explanation [c] = .error (.noProof c) := by
    rw [explanation, List.length_singleton, Nat.add_comm, walk]
    simp only [List.contains_nil, Bool.false_eq_true, if_false, get_eq_ok hc, ok_bind, hp]
    rfl
  rw [explain, explanationLiterals, hwalk]
  rfl

theorem SelfExplained.explain_eq {c : ConstraintId} {t : Term} (h : db.SelfExplained c t) :
    db.explain c = .ok (.all [t]) := by
  rw [explain, explanationLiterals_of_self (List.nodup_singleton c) (fun _ => t) fun d hd => by
    rwa [List.mem_singleton.mp hd]]
  rfl

/-- A constraint explains itself where its marks and its literal are the same. -/
theorem SelfExplained.transfer {c : ConstraintId} {t : Term} (h : db.SelfExplained c t)
    (hmarks : db'.marksOf c = db.marksOf c)
    (hstored : ∀ k, db.stored c = some k → ∃ k', db'.stored c = some k' ∧ k'.bare = k.bare) :
    db'.SelfExplained c t := by
  obtain ⟨k, hk, hp, ht⟩ := h
  obtain ⟨k', hk', hbare⟩ := hstored k hk
  rw [marksOf_of_stored hk, marksOf_of_stored hk'] at hmarks
  have hproof : k'.proof = k.proof := congrArg Marks.proof hmarks
  have hasserted : k'.asserted = k.asserted := congrArg Marks.asserted hmarks
  refine ⟨k', hk', hproof.trans hp, ?_⟩
  rw [Constraint.explainingLiteral?, hasserted, Constraint.literal_of_bare hbare]
  exact ht

end Database

namespace Theory

variable {s s' : Theory}

/-- Constraints have the same explanations where the same is known. -/
theorem Sane.explain_eq (hs : s.Sane) (hnow : s'.now = s.now)
    (hkeeps : s.now.Keeps s.database s'.database) {c : ConstraintId} {k k' : Constraint}
    (hk : s.database.stored c = some k) (hk' : s'.database.stored c = some k') :
    s'.database.explain c = s.database.explain c := by
  have hmarks : ∀ d, s'.database.marksOf d = s.database.marksOf d := fun d =>
    congrFun (congrArg Ledger.marks hnow) d
  have hself : ∀ d, (s.database.marksOf d).proof = some [] → ∃ t, s.database.SelfExplained d t ∧
      s'.database.SelfExplained d t := by
    intro d hd
    obtain ⟨t, ht, _⟩ := hs.recorded.selfExplained hd
    exact ⟨t, ht, ht.transfer (hmarks d) fun l hl => hkeeps.stored d l (proven_of_self hd) hl⟩
  have hproof : k'.proof = k.proof := by
    have heq := hmarks c
    rw [Database.marksOf_of_stored hk, Database.marksOf_of_stored hk'] at heq
    exact congrArg Marks.proof heq
  have hmk : (s.database.marksOf c).proof = k.proof := by rw [Database.marksOf_of_stored hk]; rfl
  cases hp : k.proof with
  | none =>
    rw [Database.explain_of_unproven hk hp, Database.explain_of_unproven hk' (hproof.trans hp)]
  | some as =>
    cases as with
    | nil =>
      obtain ⟨t, ht, ht'⟩ := hself c (hmk.trans hp)
      rw [ht.explain_eq, ht'.explain_eq]
    | cons a as =>
      obtain ⟨rfl, ha, _⟩ := hs.recorded.sound_now.implied c k a as hk (hmk.trans hp)
      obtain ⟨t, ht, ht'⟩ := hself a ha
      rw [Database.explain, Database.explain,
        Database.explanationLiterals_of_antecedent hk hp ht,
        Database.explanationLiterals_of_antecedent hk' (hproof.trans hp) ht']

/-! ## The scopes around -/

/-- What was known when `n` scopes were open is still on record, and what it is about is still in
the database. -/
structure Retains (n : Nat) (s s' : Theory) : Prop where
  ledger : s'.ledgerAt n = s.ledgerAt n
  keeps : (s.ledgerAt n).Keeps s.database s'.database

theorem Retains.refl (n : Nat) (s : Theory) : Retains n s s :=
  ⟨rfl, Ledger.keeps_of_agrees (.refl _) _⟩

theorem Retains.trans {n : Nat} {s₁ s₂ s₃ : Theory} (h : Retains n s₁ s₂) (k : Retains n s₂ s₃) :
    Retains n s₁ s₃ where
  ledger := k.ledger.trans h.ledger
  keeps := by
    have hk := k.keeps
    rw [h.ledger] at hk
    refine ⟨fun c l hc hl => ?_, fun t c hc ht => hk.lookup t c hc (h.keeps.lookup t c hc ht)⟩
    obtain ⟨l', hl', hb⟩ := h.keeps.stored c l hc hl
    obtain ⟨l'', hl'', hb'⟩ := hk.stored c l' hc hl'
    exact ⟨l'', hl'', hb'.trans hb⟩

/-- An operation in a scope retains what was known outside of it, unless it leaves scopes
outside. -/
theorem Transition.retains {op : Operation} {a : Answer} (h : Transition s op a s') {n : Nat}
    (hn : n < s.level) (hn' : n ≤ s'.level) : Retains n s s' := by
  cases h with
  | maintains _ h _ _ _ _ => exact ⟨h.below n hn, h.keeps n hn.le⟩
  | asserts h _ _ _ => exact ⟨h.below n hn, h.keeps n hn.le⟩
  | checks h => exact ⟨h.continues.below n hn, h.continues.keeps _⟩
  | opens h => exact ⟨h.ledgers n hn.le, Ledger.keeps_of_agrees h.agrees _⟩
  | leaves _ h => exact ⟨h.ledgers n (h.level ▸ hn'), Ledger.keeps_of_agrees h.agrees _⟩

theorem Running.level_of_step {j : Journal} (hr : Running s j) {op : Operation} {a : Answer}
    (h : s.step op = .ok (s', a)) : s'.level = op.levelAfter s.level := by
  rw [((hr.sane.step_spec hr.committed h).running hr).level, level_note, hr.level]

/-- So do the operations of a run that stays in the scope. -/
theorem Running.retains {j : Journal} (hr : Running s j) {ops : List Operation}
    {as : List Answer} (h : s.run ops = .ok (s', as)) {n : Nat} (hn : n < lowest s.level ops) :
    Retains n s s' := by
  induction ops generalizing s j as with
  | nil =>
    obtain ⟨rfl, _⟩ := Prod.mk.inj (Except.ok.inj h)
    exact .refl n s
  | cons op ops ih =>
    obtain ⟨s₁, a, as', hstep, hrun, rfl⟩ := run_cons_eq_ok h
    have ht := hr.sane.step_spec hr.committed hstep
    have hrest : n < lowest s₁.level ops :=
      hr.level_of_step hstep ▸ hn.trans_le (lowest_cons_le _ _ _)
    exact (ht.retains (hn.trans_le (lowest_le _ _)) (hrest.trans_le (lowest_le _ _)).le).trans
      (ih (ht.running hr) hrun hrest)

/-- The run ends with no fewer open scopes than the least number it reaches. -/
theorem Running.lowest_le {j : Journal} (hr : Running s j) {ops : List Operation}
    {as : List Answer} (h : s.run ops = .ok (s', as)) : lowest s.level ops ≤ s'.level := by
  induction ops generalizing s j as with
  | nil =>
    obtain ⟨rfl, _⟩ := Prod.mk.inj (Except.ok.inj h)
    exact Nat.le_refl _
  | cons op ops ih =>
    obtain ⟨s₁, a, as', hstep, hrun, rfl⟩ := run_cons_eq_ok h
    have ht := (hr.sane.step_spec hr.committed hstep).running hr
    exact (lowest_cons_le _ _ _).trans (hr.level_of_step hstep ▸ ih ht hrun)

/-! ## Segments of a run -/

theorem run_append_eq_ok {ops ops' : List Operation} {as : List Answer}
    (h : s.run (ops ++ ops') = .ok (s', as)) : ∃ s₁ as₁ as₂, s.run ops = .ok (s₁, as₁) ∧
      s₁.run ops' = .ok (s', as₂) ∧ as = as₁ ++ as₂ := by
  induction ops generalizing s as with
  | nil => exact ⟨s, [], as, rfl, h, rfl⟩
  | cons op ops ih =>
    obtain ⟨s₁, a, as', hstep, hrun, rfl⟩ := run_cons_eq_ok h
    obtain ⟨s₂, as₁, as₂, hrun₁, hrun₂, rfl⟩ := ih hrun
    exact ⟨s₂, a :: as₁, as₂, by simp only [run, hstep, ok_bind, hrun₁, pure_eq_ok], hrun₂, rfl⟩

theorem run_append {s s₁ s₂ : Theory} {ops ops' : List Operation} {as as' : List Answer}
    (h : s.run ops = .ok (s₁, as)) (h' : s₁.run ops' = .ok (s₂, as')) :
    s.run (ops ++ ops') = .ok (s₂, as ++ as') := by
  induction ops generalizing s as with
  | nil =>
    obtain ⟨rfl, rfl⟩ := Prod.mk.inj (Except.ok.inj h)
    exact h'
  | cons op ops ih =>
    obtain ⟨s₃, a, as₃, hstep, hrun, rfl⟩ := run_cons_eq_ok h
    simp only [List.cons_append, run, hstep, ok_bind, ih hrun, pure_eq_ok]

/-- The second state knows what the first one knew, and has marked nothing else. -/
structure Restored (s s' : Theory) : Prop where
  /-- the bounds, with their values and reasons -/
  bounds : s'.simplex.model.boundOf = s.simplex.model.boundOf
  /-- whether and why a constraint holds, under which literal it was asserted, and its flags -/
  marks : ∀ c k k', s.database.stored c = some k → s'.database.stored c = some k' →
    k'.marks = k.marks
  explanations : ∀ c k k', s.database.stored c = some k → s'.database.stored c = some k' →
    s'.database.explain c = s.database.explain c
  disequalities : s'.disequalities.toList = s.disequalities.toList
  /-- a new constraint has neither a proof nor a flag -/
  fresh : ∀ c k', s.database.stored c = none → s'.database.stored c = some k' → k'.marks = {}

theorem Retains.restored (h : Retains s.level s s') (hs : s.Sane) (hs' : s'.Sane)
    (hlevel : s'.level = s.level) : Restored s s' := by
  have hledger := hs.recorded.levelled.ledgerAt_level
  have hnow : s'.now = s.now := by
    rw [← hs'.recorded.levelled.ledgerAt_level, hlevel, h.ledger, hledger]
  have hkeeps := h.keeps
  rw [hledger] at hkeeps
  have hmarks : s'.database.marksOf = s.database.marksOf := congrArg Ledger.marks hnow
  refine ⟨congrArg Ledger.bounds hnow, fun c k k' hk hk' => ?_, fun c k k' hk hk' =>
    hs.explain_eq hnow hkeeps hk hk', congrArg Ledger.disequalities hnow, fun c k' hk hk' => ?_⟩
  · rw [← Database.marksOf_of_stored hk, ← Database.marksOf_of_stored hk', hmarks]
  · rw [← Database.marksOf_of_stored hk', hmarks, Database.marksOf_eq_of_unstored hk]

/-- A segment of a run that opens a scope, stays in it, and then leaves it restores what was known
before. -/
theorem restored_of_segment {o : Options} {ops mid : List Operation} {as as' : List Answer}
    {levels : Nat} (hrun : (start o).run ops = .ok (s, as))
    (hsegment : s.run (.push :: mid ++ [.pop levels]) = .ok (s', as'))
    (hinside : s.level + 1 ≤ lowest (s.level + 1) mid) (hlevel : s'.level = s.level) :
    Restored s s' := by
  have hr := running_of_run hrun
  obtain ⟨s₁, as₁, as₂, hbody, hpop, rfl⟩ := run_append_eq_ok hsegment
  obtain ⟨s₀, a, as₀, hpush, hmid, rfl⟩ := run_cons_eq_ok hbody
  obtain ⟨s₂, b, bs, hleave, hdone, rfl⟩ := run_cons_eq_ok hpop
  obtain ⟨rfl, -⟩ := Prod.mk.inj (Except.ok.inj hdone)
  obtain ⟨rfl, rfl⟩ := Prod.mk.inj (Except.ok.inj hpush)
  have hopened := hr.sane.push_spec
  have hr₀ := hopened.running hr
  rw [← hopened.level] at hinside
  have hentered : Retains s.level s s.push :=
    ⟨hopened.ledgers _ (Nat.le_refl _), Ledger.keeps_of_agrees hopened.agrees _⟩
  have hstayed : Retains s.level s.push s₁ :=
    hr₀.retains hmid (hinside.trans_lt' (hopened.level ▸ Nat.lt_succ_self _))
  have hr₁ := hr₀.run hmid
  have ht := hr₁.sane.step_spec hr₁.committed hleave
  have hleft : Retains s.level s₁ s₂ :=
    ht.retains (hinside.trans_lt' (hopened.level ▸ Nat.lt_succ_self _) |>.trans_le
      (hr₀.lowest_le hmid)) hlevel.ge
  exact ((hentered.trans hstayed).trans hleft).restored hr.sane (ht.running hr₁).sane hlevel

/-- An assertion of `0 ≤ x` in a scope, and a check. -/
def anchored : List Operation :=
  [.push, .assert (.rel .ge (.var "x") (.const 0)), .check .full]

/-- Two more bounds, a conflict and a reset of the tableau in scopes further inside. -/
def detour : List Operation :=
  [.assert (.rel .ge (.sum [.var "x", .var "y"]) (.const 1)), .check .full, .reset, .push,
    .assert (.rel .lt (.var "x") (.const 0)), .check .full]

/-- Leaving the scopes of the detour restores what the check had recorded. -/
theorem restored_of_detour :
    ∃ s as s' as', (start {}).run anchored = .ok (s, as) ∧
      s.run (.push :: detour ++ [.pop 2]) = .ok (s', as') ∧
        s.processed.toList.length = 1 ∧ s'.database.numConstraints = 4 ∧ Restored s s' := by
  have h : ((start {}).run anchored >>= fun p => p.1.run (.push :: detour ++ [.pop 2]) >>= fun q =>
      Except.ok (p.1.level, q.1.level, p.1.processed.toList.length,
        q.1.database.numConstraints)) = .ok (1, 1, 1, 4) := by decide +kernel
  obtain ⟨⟨s, as⟩, hrun, h⟩ := bind_eq_ok.mp h
  obtain ⟨⟨s', as'⟩, hsegment, h⟩ := bind_eq_ok.mp h
  simp only [Except.ok.injEq, Prod.mk.injEq] at h
  obtain ⟨hlevel, hlevel', hnum, hnum'⟩ := h
  have hinside : s.level + 1 ≤ lowest (s.level + 1) detour := by
    rw [hlevel]
    decide
  exact ⟨s, as, s', as', hrun, hsegment, hnum, hnum',
    restored_of_segment hrun hsegment hinside (hlevel'.trans hlevel.symm)⟩

end Theory

end LinearArithmetic
