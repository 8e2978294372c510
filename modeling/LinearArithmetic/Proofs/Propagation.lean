import LinearArithmetic.Proofs.Conflicts
import LinearArithmetic.Proofs.Restoration

/-!
# Propagated literals

A literal that is known to hold is explained by asserted literals that entail it, until a scope is
left that its proof depends on. The literals of implied constraints wait in a queue until they are
sent. The queue is also emptied when scopes are left, together with the literals whose proofs stay.
-/

namespace LinearArithmetic.Theory

variable {s s' : Theory} {j : Journal}

/-! ## Known literals -/

/-- The constraint of the literal has a proof. -/
def Knows (s : Theory) (t : Term) : Prop :=
  ∃ c k, s.database.lookup t = some c ∧ s.database.stored c = some k ∧ k.hasProof = true

theorem Sane.knows_iff (hs : s.Sane) {t : Term} :
    s.Knows t ↔ ∃ c, s.database.lookup t = some c ∧ s.now.Proven c := by
  refine exists_congr fun c => ⟨fun ⟨k, ht, hc, hp⟩ => ⟨ht, ?_⟩, fun ⟨ht, hp⟩ => ?_⟩
  · rw [Ledger.Proven, marks_now, Database.marksOf_of_stored hc]
    exact Option.isSome_iff_ne_none.mp hp
  · obtain ⟨_, k, hc, _⟩ := hs.linked.valid.known t c ht
    rw [Ledger.Proven, marks_now, Database.marksOf_of_stored hc] at hp
    exact ⟨k, ht, hc, Option.isSome_iff_ne_none.mpr hp⟩

/-- Explaining the literal gives a conjunction of asserted literals that entails it. -/
def Explained (s : Theory) (j : Journal) (t : Term) : Prop :=
  ∃ ls, ls ≠ [] ∧ s.explain t = .ok (.all ls) ∧
    (∀ l ∈ ls, l.isLiteral = true ∧ j.Asserts l) ∧ ∀ ρ, (∀ l ∈ ls, l.Holds ρ) → t.Holds ρ

/-- One asserted literal is behind every proof. -/
theorem Sane.exists_reason (hs : s.Sane) {t : Term} {c : ConstraintId} {k : Constraint}
    (ht : s.database.lookup t = some c) (hc : s.database.stored c = some k) (hp : k.proof ≠ none) :
    ∃ u, s.database.explain c = .ok u ∧ (∃ f ∈ s.processed.toList, f.literal = u) ∧
      ∀ ρ, u.Holds ρ → t.Holds ρ := by
  have hmarks : (s.database.marksOf c).proof = k.proof := by
    rw [Database.marksOf_of_stored hc]
    rfl
  obtain ⟨as, has⟩ := Option.ne_none_iff_exists'.mp hp
  cases as with
  | nil =>
    obtain ⟨u, hself, hu, hfact⟩ := hs.recorded.selfExplained (hmarks.trans has)
    refine ⟨u, hself.explain_eq, hfact, fun ρ hρ => ?_⟩
    rw [← hs.linked.says_iff_holds ht]
    exact (hs.linked.says_iff_holds hu ρ).mpr hρ
  | cons a as =>
    obtain ⟨rfl, ha, l, hl, himp, _⟩ :=
      hs.recorded.sound_now.implied c k a as hc (hmarks.trans has)
    obtain ⟨u, hself, hu, hfact⟩ := hs.recorded.selfExplained ha
    refine ⟨u, ?_, hfact, fun ρ hρ => ?_⟩
    · rw [Database.explain, Database.explanationLiterals_of_antecedent hc has hself]
      rfl
    · rw [← hs.linked.says_iff_holds ht, says_iff hc, himp.1]
      refine himp.2 _ ?_
      rw [← says_iff hl]
      exact (hs.linked.says_iff_holds hu ρ).mpr hρ

theorem Running.explained (hr : Running s j) {t : Term} (h : s.Knows t) : s.Explained j t := by
  obtain ⟨c, k, ht, hc, hp⟩ := h
  obtain ⟨u, hu, ⟨f, hf, rfl⟩, hentails⟩ :=
    hr.sane.exists_reason ht hc (Option.isSome_iff_ne_none.mp hp)
  refine ⟨[f.literal], List.cons_ne_nil _ _, ?_, fun l hl => ?_, fun ρ hρ => ?_⟩
  · have hproof : s.database.hasProof c = .ok true := by
      rw [Database.hasProof_eq_ok hc, ← hp]
      rfl
    simp only [explain, ht, hproof, hu, Except.mapError, bind, Except.bind, if_true]
    rfl
  · rw [List.mem_singleton.mp hl]
    refine ⟨(hr.sane.recorded.linear f (List.mem_append_left _ hf)).isRelational, f, ?_, rfl⟩
    rw [← hr.facts]
    exact List.mem_append_left _ hf
  · exact hentails ρ (hρ _ (List.mem_singleton_self _))

/-! ## Operations that prove nothing -/

/-- Constraints with proofs keep them, and no other gets one. -/
structure Preserves (s s' : Theory) : Prop where
  keeps : s.now.Keeps s.database s'.database
  proofs : ∀ c, (s'.database.marksOf c).proof = (s.database.marksOf c).proof

theorem Maintains.preserves (h : Maintains s s') (hs : s.Sane) : Preserves s s' := by
  have hkeeps := h.keeps s.level (Nat.le_refl _)
  have hmatches := h.ledgers s.level (Nat.le_refl _)
  rw [hs.recorded.levelled.ledgerAt_level] at hkeeps hmatches
  rw [← h.level, h.sane.recorded.levelled.ledgerAt_level] at hmatches
  exact ⟨hkeeps, fun c => (hmatches.proofs c).1⟩

theorem Opened.preserves (h : Opened s s') : Preserves s s' :=
  ⟨Ledger.keeps_of_agrees h.agrees _, fun c =>
    congrArg Marks.proof (congrFun (congrArg Ledger.marks h.now) c)⟩

theorem Preserves.proven (h : Preserves s s') {c : ConstraintId} (hc : s.now.Proven c) :
    s'.now.Proven c := by
  rw [Ledger.Proven, marks_now, h.proofs]
  exact hc

theorem Preserves.owes (h : Preserves s s') (hs : s.Sane) {L : Ledger} (hL : s.Owes L)
    (hqueue : s'.propagations = s.propagations) : s'.Owes L :=
  hL.congr hs.recorded.sound_now h.keeps (fun c a as => by rw [h.proofs]) (fun _ => h.proven) hqueue

theorem Preserves.knows (h : Preserves s s') (hs : s.Sane) (hs' : s'.Sane) {t : Term}
    (ht : s.Knows t) : s'.Knows t := by
  obtain ⟨c, ht, hc⟩ := hs.knows_iff.mp ht
  exact hs'.knows_iff.mpr ⟨c, h.keeps.lookup t c hc ht, h.proven hc⟩

/-! ## The queue -/

/-- The operation empties the queue of literals that wait to be sent. -/
def Operation.flushes : Operation → Bool
  | .propagate | .pop _ => true
  | _ => false

/-- Nothing waits that has a proof by now. -/
theorem owes_of_empty (h : s.propagations = []) : s.Owes s.now where
  nodup := h ▸ .nil
  mem_iff t := by
    rw [h]
    exact ⟨fun ht => (by cases ht), fun ⟨c, hc, hnew⟩ => absurd hc.proven hnew⟩
  proven _ := id

theorem Running.empty_of_flushes (hr : Running s j) {op : Operation} {a : Answer}
    (h : s.step op = .ok (s', a)) (hop : op.flushes = true) : s'.propagations = [] := by
  cases op with
  | propagate =>
    obtain ⟨rfl, -⟩ := Prod.mk.inj (Except.ok.inj h)
    rfl
  | pop levels =>
    obtain ⟨s₁, hok, heq⟩ := bind_eq_ok.mp h
    obtain ⟨rfl, -⟩ := Prod.mk.inj (Except.ok.inj heq)
    obtain ⟨s₂, hok₂, hleft⟩ := hr.sane.pop_spec (le_of_pop hok)
    cases hok₂.symm.trans hok
    exact hleft.propagations
  | _ => cases hop

/-- Any other operation queues the literals of the constraints that it finds to be implied. -/
theorem Transition.owes {op : Operation} {a : Answer} (h : Transition s op a s') (hs : s.Sane)
    (hop : op.flushes = false) {L : Ledger} (hL : s.Owes L) : s'.Owes L := by
  cases h with
  | maintains _ h _ queue _ _ =>
    refine (h.preserves hs).owes hs hL (queue.resolve_left ?_)
    rintro rfl
    cases hop
  | asserts h _ queue _ => exact (h.preserves hs).owes hs hL queue
  | checks h => exact h.continues.owes L hL
  | opens h => exact h.preserves.owes hs hL h.propagations
  | leaves => cases hop

theorem Running.owes (hr : Running s j) {ops : List Operation} {as : List Answer}
    (h : s.run ops = .ok (s', as)) (hops : ∀ op ∈ ops, op.flushes = false) {L : Ledger}
    (hL : s.Owes L) : s'.Owes L :=
  hr.preserve h hL fun hmem hr _ ht => ht.owes hr.sane (hops _ hmem)

/-- In every state of a run the queue holds the literals found to be implied since some earlier
state. -/
theorem Running.exists_owes (hr : Running s j) {ops : List Operation} {as : List Answer}
    (h : s.run ops = .ok (s', as)) (hL : ∃ L, s.Owes L) : ∃ L, s'.Owes L := by
  refine hr.preserve h (P := fun t => ∃ L, t.Owes L) hL ?_
  intro s₁ s₂ j op a _ hr hstep ht hL
  cases hop : op.flushes with
  | true => exact ⟨_, owes_of_empty (hr.empty_of_flushes hstep hop)⟩
  | false => exact hL.imp fun L => ht.owes hr.sane hop

/-- Literals that wait to be sent are known. -/
theorem Sane.knows_of_owes (hs : s.Sane) {L : Ledger} (hL : s.Owes L) {t : Term}
    (ht : t ∈ s.propagations) : s.Knows t := by
  obtain ⟨c, hc, _⟩ := (hL.mem_iff t).mp ht
  exact hs.knows_iff.mpr ⟨c, hs.lookup_of_implied hc, hc.proven⟩

/-! ## Literals that stay known -/

/-- Only leaving scopes removes a proof. -/
theorem Transition.knows {op : Operation} {a : Answer} (h : Transition s op a s') (hs : s.Sane)
    (hop : ∀ n, op ≠ .pop n) {t : Term} (ht : s.Knows t) : s'.Knows t := by
  cases h with
  | maintains _ h _ _ _ _ => exact (h.preserves hs).knows hs h.sane ht
  | asserts h _ _ _ => exact (h.preserves hs).knows hs h.sane ht
  | checks h =>
    obtain ⟨c, ht, hc⟩ := hs.knows_iff.mp ht
    exact h.sane.knows_iff.mpr ⟨c, h.continues.lookup t c ht, h.continues.more.proven hc⟩
  | opens h => exact h.preserves.knows hs h.sane ht
  | leaves => exact absurd rfl (hop _)

/-- No scope is left whose end removes the proof of the literal. -/
def Spares (t : Term) : Theory → List Operation → Prop
  | _, [] => True
  | s, op :: ops => ∀ s' a, s.step op = .ok (s', a) →
    (∀ n, op = .pop n → s'.Knows t) ∧ Spares t s' ops

theorem Running.knows (hr : Running s j) {ops : List Operation} {as : List Answer}
    (h : s.run ops = .ok (s', as)) {t : Term} (ht : s.Knows t) (hspares : s.Spares t ops) :
    s'.Knows t := by
  induction ops generalizing s j as with
  | nil =>
    obtain ⟨rfl, _⟩ := Prod.mk.inj (Except.ok.inj h)
    exact ht
  | cons op ops ih =>
    obtain ⟨s₁, a, as', hstep, hrun, rfl⟩ := run_cons_eq_ok h
    have htrans := hr.sane.step_spec hr.committed hstep
    obtain ⟨hpop, hrest⟩ := hspares s₁ a hstep
    refine ih (htrans.running hr) hrun ?_ hrest
    by_cases hop : ∃ n, op = .pop n
    · obtain ⟨n, rfl⟩ := hop
      exact hpop n rfl
    · exact htrans.knows hr.sane (not_exists.mp hop) ht

/-! ## Runs -/

section Runs

variable {o : Options} {ops : List Operation} {as : List Answer}

/-- Every name of a constraint with a proof is explained, and every literal that is sent stays
explained until a scope is left that its proof depends on. -/
theorem explained_of_run (hrun : (start o).run ops = .ok (s, as)) :
    (∀ t, s.Knows t → s.Explained (.of ops as) t) ∧
      ∀ t ∈ s.propagate.2.propagations, ∀ ops' as' s', s.propagate.1.run ops' = .ok (s', as') →
        s.propagate.1.Spares t ops' → s'.Explained
          (.of (ops ++ .propagate :: ops') (as ++ .sent s.propagate.2 :: as')) t := by
  have hr := running_of_run hrun
  refine ⟨fun t => hr.explained, fun t ht ops' as' s' hrun' hspares => ?_⟩
  have hstep : s.step .propagate = .ok (s.propagate.1, .sent s.propagate.2) := rfl
  have htrans := hr.sane.step_spec hr.committed hstep
  obtain ⟨L, hL⟩ := (running_start o).exists_owes hrun ⟨_, owes_of_empty rfl⟩
  have hknown : s.propagate.1.Knows t :=
    htrans.knows hr.sane (fun n h => (by cases h)) (hr.sane.knows_of_owes hL ht)
  have hall : (start o).run (ops ++ .propagate :: ops') =
      .ok (s', as ++ .sent s.propagate.2 :: as') :=
    run_append hrun (by simp only [run, hstep, ok_bind, hrun', pure_eq_ok])
  exact (running_of_run hall).explained ((htrans.running hr).knows hrun' hknown hspares)

/-- A scope that is left at the end can be checked there. -/
theorem spares_of_last {op : Operation} (hops : ∀ op ∈ ops, ∀ n, op ≠ .pop n)
    (h : s.run (ops ++ [op]) = .ok (s', as)) {t : Term} (ht : s'.Knows t) :
    s.Spares t (ops ++ [op]) := by
  induction ops generalizing s as with
  | nil =>
    obtain ⟨s₁, a, as', hstep, hrun, rfl⟩ := run_cons_eq_ok h
    obtain ⟨rfl, -⟩ := Prod.mk.inj (Except.ok.inj hrun)
    intro s₂ b hstep₂
    cases hstep.symm.trans hstep₂
    exact ⟨fun _ _ => ht, trivial⟩
  | cons op' ops ih =>
    obtain ⟨s₁, a, as', hstep, hrun, rfl⟩ := run_cons_eq_ok h
    intro s₂ b hstep₂
    cases hstep.symm.trans hstep₂
    exact ⟨fun n hn => absurd hn (hops op' List.mem_cons_self n),
      ih (fun op hop => hops op (List.mem_cons_of_mem _ hop)) hrun⟩

/-- A check of `5 ≤ x` in a scope, when `0 ≤ x` is known of. -/
def loosened : List Operation :=
  [.register (.rel .ge (.var "x") (.const 0)), .push, .assert (.rel .ge (.var "x") (.const 5)),
    .check .standard]

/-- Another scope that is opened and left. -/
def visit : List Operation :=
  [.push, .assert (.rel .ge (.var "y") (.const 1)), .check .full, .pop 1]

/-- The weaker bound is sent, and is still explained after the scope. -/
theorem explained_of_loosened :
    ∃ s as s' as', (start {}).run loosened = .ok (s, as) ∧
      s.propagate.2.propagations = [.rel .ge (.var "x") (.const 0)] ∧
        s.propagate.1.run visit = .ok (s', as') ∧
          s'.Explained (.of (loosened ++ .propagate :: visit) (as ++ .sent s.propagate.2 :: as'))
            (.rel .ge (.var "x") (.const 0)) := by
  have h : ((start {}).run loosened >>= fun p => p.1.propagate.1.run visit >>= fun q =>
      Except.ok (p.1.propagate.2.propagations,
        q.1.database.lookup (.rel .ge (.var "x") (.const 0)),
        (q.1.database.stored ⟨0⟩).map Constraint.hasProof)) =
      .ok ([.rel .ge (.var "x") (.const 0)], some ⟨0⟩, some true) := by decide +kernel
  obtain ⟨⟨s, as⟩, hrun, h⟩ := bind_eq_ok.mp h
  obtain ⟨⟨s', as'⟩, hvisit, h⟩ := bind_eq_ok.mp h
  simp only [Except.ok.injEq, Prod.mk.injEq] at h
  obtain ⟨hsent, hlook, hproof⟩ := h
  obtain ⟨k, hk, hp⟩ := Option.map_eq_some_iff.mp hproof
  have hspares : s.propagate.1.Spares (.rel .ge (.var "x") (.const 0))
      ([.push, .assert (.rel .ge (.var "y") (.const 1)), .check .full] ++ [.pop 1]) :=
    spares_of_last (by simp) hvisit ⟨⟨0⟩, k, hlook, hk, hp⟩
  refine ⟨s, as, s', as', hrun, hsent, hvisit,
    (explained_of_run hrun).2 _ ?_ _ _ _ hvisit hspares⟩
  rw [hsent]
  exact List.mem_singleton_self _

/-- What is sent are the literals of the constraints that got a proof from another constraint since
the queue was emptied last, and have it still. -/
theorem sends_of_run {s₀ : Theory} {mid : List Operation} {bs : List Answer}
    (hrun : (start o).run ops = .ok (s₀, as))
    (hflush : ∀ op, ops.getLast? = some op → op.flushes = true)
    (hmid : s₀.run mid = .ok (s, bs)) (hquiet : ∀ op ∈ mid, op.flushes = false) :
    s.propagate.2.propagations.Nodup ∧ ∀ t, t ∈ s.propagate.2.propagations ↔
      ∃ c, s.Implied c t ∧ ¬ s₀.now.Proven c := by
  have hempty : s₀.propagations = [] := by
    cases ops using List.reverseRecOn with
    | nil =>
      obtain ⟨rfl, -⟩ := Prod.mk.inj (Except.ok.inj hrun)
      rfl
    | append_singleton ops op =>
      obtain ⟨s₁, as₁, as₂, hrun₁, hlast, rfl⟩ := run_append_eq_ok hrun
      obtain ⟨s₂, a, as₃, hstep, hdone, rfl⟩ := run_cons_eq_ok hlast
      obtain ⟨rfl, -⟩ := Prod.mk.inj (Except.ok.inj hdone)
      exact (running_of_run hrun₁).empty_of_flushes hstep (hflush op (by simp))
  have howes := (running_of_run hrun).owes hmid hquiet (owes_of_empty hempty)
  exact ⟨howes.nodup, howes.mem_iff⟩

/-- The weaker bound is sent once, also from a scope that was opened after it was found. -/
theorem sends_of_loosened :
    ∃ s as, (start {}).run (loosened ++ [.push]) = .ok (s, as) ∧
      s.propagate.2.propagations = [.rel .ge (.var "x") (.const 0)] ∧
        s.propagate.2.propagations.Nodup ∧ ∀ t, t ∈ s.propagate.2.propagations ↔
          ∃ c, s.Implied c t ∧ ¬ (start {}).now.Proven c := by
  have h : ((start {}).run (loosened ++ [.push]) >>= fun p =>
      Except.ok p.1.propagate.2.propagations) = .ok [.rel .ge (.var "x") (.const 0)] := by
    decide +kernel
  obtain ⟨⟨s, as⟩, hrun, h⟩ := bind_eq_ok.mp h
  have hstart : (start {}).run [] = .ok (start {}, []) := rfl
  exact ⟨s, as, hrun, Except.ok.inj h, sends_of_run hstart (by simp) hrun (by decide)⟩

/-- A check of `5 ≤ x`, when `0 ≤ x` is known of, and a scope that is opened and left. -/
def forgotten : List Operation :=
  [.register (.rel .ge (.var "x") (.const 0)), .register (.rel .ge (.var "x") (.const 5)),
    .assert (.rel .ge (.var "x") (.const 5)), .check .standard, .push, .pop 1]

/-- The proof of the weaker bound survives the scope, but its literal is not sent. -/
theorem unsent_of_forgotten :
    ∃ s as, (start {}).run forgotten = .ok (s, as) ∧
      s.Implied ⟨0⟩ (.rel .ge (.var "x") (.const 0)) ∧ ¬ (start {}).now.Proven ⟨0⟩ ∧
        s.propagate.2.propagations = [] := by
  have h : ((start {}).run forgotten >>= fun p =>
      Except.ok (p.1.propagate.2.propagations,
        (p.1.database.stored ⟨0⟩).map fun k => (k.proof, k.literal))) =
      .ok ([], some (some [⟨2⟩], some (.rel .ge (.var "x") (.const 0)))) := by decide +kernel
  obtain ⟨⟨s, as⟩, hrun, h⟩ := bind_eq_ok.mp h
  simp only [Except.ok.injEq, Prod.mk.injEq, Option.map_eq_some_iff] at h
  obtain ⟨hsent, k, hk, hp, hlit⟩ := h
  exact ⟨s, as, hrun, ⟨k, _, _, hk, hp, hlit⟩, fun hproven => hproven rfl, hsent⟩

end Runs

end LinearArithmetic.Theory
