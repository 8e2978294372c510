import LinearArithmetic.Proofs.Journal

/-!
# Every state of a run

The theory is sane at the start, and each operation of a run does one of five things: it leaves the
facts alone, queues a literal, checks the facts, opens a scope or leaves some. So every state that a
run leads to is sane, and has the facts of the journal of the run.
-/

namespace LinearArithmetic.Theory

/-! ## The start -/

section Start

variable (o : Options)

theorem row?_start (v : Var) : (start o).simplex.tableau.row? v = none := rfl

theorem infos_start (k : Nat) : (start o).infos.get? k = none := rfl

theorem not_active_start (v : Var) : ¬ (start o).Active v := by
  rintro ⟨i, hi, _⟩
  rw [infos_start] at hi
  cases hi

theorem arranged_start : (start o).Arranged where
  coherent :=
    { tableau :=
        { nonbasic := fun {b v r} h _ => nomatch (row?_start o b).symm.trans h
          inRange := fun {b v r} h _ => nomatch (row?_start o b).symm.trans h
          uses_iff := fun {v b} => ⟨fun h => (by cases h), fun ⟨r, hr, _⟩ => (by cases hr)⟩
          numRows := rfl
          numEntries := rfl }
      room := rfl }
  room := rfl
  definitions v r h := nomatch h
  mentions v h := by
    rcases h with ⟨r, hr⟩ | ⟨b, r, hr, _⟩
    · exact nomatch (row?_start o v).symm.trans hr
    · exact nomatch (row?_start o b).symm.trans hr
  eliminated e he := nomatch he
  triangular := ⟨.nil, fun e he => (by cases he)⟩
  apart e he := nomatch he
  ejected v r h := nomatch h

theorem sound_start : (start o).now.Sound (start o).database where
  stored c hc := (hc rfl).elim
  consistent c k hk := nomatch hk
  blank c _ := rfl
  self c k hk := nomatch hk
  implied c k a as hk := nomatch hk
  reasons side v b hb := by cases side <;> cases hb
  ordered v l u hl := nomatch hl
  disequalities d hd := nomatch hd

theorem level_start : (start o).level = 0 := rfl

theorem levelled_start : (start o).Levelled := ⟨rfl, rfl, rfl⟩

theorem sane_start : (start o).Sane where
  framed :=
    { toArranged := arranged_start o
      values := fun b r hr => nomatch (row?_start o b).symm.trans hr
      safe := fun b r hr => nomatch (row?_start o b).symm.trans hr
      dormant := fun _ _ => rfl }
  named :=
    { leaves := fun t v => ⟨fun h => (by cases h), fun h => (by cases h)⟩
      slacks := fun r v => ⟨fun h => (by cases h), fun ⟨_, h⟩ => (by cases h)⟩
      leaf := fun t v h => nomatch h
      listed := fun e he => nomatch he
      normal := fun t r v h => nomatch h }
  linked :=
    { valid :=
        { find_iff := fun st c => ⟨fun h => (by cases h), fun ⟨_, h, _⟩ => (by cases h)⟩
          negation := fun c k h => nomatch h
          representable := fun c k h => nomatch h
          tidy := fun v x slots h => nomatch h
          keys := .nil
          known := fun t c h => nomatch h
          named := fun c k h => nomatch h }
      denotes := fun t c k h => nomatch h
      linear := fun t c h => nomatch h
      constants := fun a b h => nomatch h }
  balanced M _ _ σ := by
    constructor
    · intro _ v i r hi
      exact nomatch (infos_start o v.id).symm.trans hi
    · intro _
      exact ⟨fun b r hr => (nomatch (row?_start o b).symm.trans hr), fun e he => (by cases he)⟩
  trimmed :=
    { eliminated := fun v hv => nomatch hv
      active := fun v hv => (not_active_start o v hv).elim }
  recorded :=
    { levelled := levelled_start o
      tracked := fun c hc => nomatch hc
      sound := fun n hn => by
        rw [level_start, Nat.le_zero] at hn
        rw [hn, ← level_start o, (levelled_start o).ledgerAt_level]
        exact sound_start o
      nested := fun m n hm hn => by
        rw [level_start, Nat.le_zero] at hn
        rw [hn, Nat.le_zero] at hm
        rw [hm, hn]
        exact .refl _
      bounded := fun side v b hb => by cases side <;> cases hb
      excluded := fun d hd => nomatch hd
      linear := fun f hf => nomatch hf }

theorem committed_start : (start o).simplex.model.Committed := fun _ => rfl

/-- The start, with an empty journal. -/
theorem running_start : Running (start o) {} where
  sane := sane_start o
  committed := committed_start o
  level := rfl
  facts := rfl
  timely n hn f hf := by
    rw [level_start, Nat.le_zero] at hn
    rw [hn, ← level_start o, (levelled_start o).ledgerAt_level] at hf
    cases hf
  waiting f hf := nomatch hf

end Start

/-! ## One operation -/

/-- Variables were eliminated, or the one that was to be. -/
def Answer.eliminates : Answer → Bool
  | .count n => n != 0
  | .decided b => b
  | _ => false

/-- What an operation other than a check does to the values and the marks. Eliminating variables
can take marked variables out of the basis, and a reset moves the values. -/
def Moves (s s' : Theory) : Operation → Answer → Prop
  | .presolve, a | .eliminate _, a =>
    (∀ u, ¬ s.Dormant u → s'.simplex.model.valueOf u = s.simplex.model.valueOf u) ∧
      (a.eliminates = false → Steady s s')
  | .reset, _ => s'.simplex.Queued
  | .restart, _ => s'.simplex.Queued ∨ Steady s s'
  | .check _, _ => False
  | _, _ => Steady s s'

/-- What an operation can do. -/
inductive Transition (s : Theory) : Operation → Answer → Theory → Prop where
  /-- the facts stay as they are, and nothing is noted; while a conflict waits, no value changes -/
  | maintains {op : Operation} {a : Answer} {s' : Theory} (quiet : ∀ j : Journal, j.note op a = j)
      (h : Maintains s s') (pending : s'.pending = s.pending)
      (queue : op = .propagate ∨ s'.propagations = s.propagations)
      (still : ∀ j : Journal, j.Allows op → j.conflict = none ∨
        s'.simplex.model = s.simplex.model) (moves : s.Moves s' op a) : Transition s op a s'
  /-- a literal is accepted -/
  | asserts {t : Term} {s' : Theory} (h : Maintains s s')
      (pending : s'.pending = s.pending ++ [⟨t, s.level⟩])
      (queue : s'.propagations = s.propagations) (steady : Steady s s') :
      Transition s (.assert t) .done s'
  /-- the facts are checked -/
  | checks {effort : Effort} {r : Report} {s' : Theory} (h : Verdict effort s s' r) :
      Transition s (.check effort) (.sent r) s'
  /-- a scope is opened -/
  | opens {s' : Theory} (h : Opened s s') : Transition s .push .done s'
  /-- scopes are left -/
  | leaves {levels : Nat} {s' : Theory} (hle : levels ≤ s.level)
      (h : Left (s.level - levels) s s') : Transition s (.pop levels) .done s'

theorem orRefuse_eq_ok {α : Type} {s s' : Theory} {f : α → Theory × Answer}
    {x : Except Failure α} {a : Answer} (h : s.orRefuse f x = .ok (s', a)) :
    (∃ b, x = .ok b ∧ f b = (s', a)) ∨ ∃ why, x = .error (.refusal why) ∧ s' = s ∧
      a = .refused why := by
  cases x with
  | ok b => exact .inl ⟨b, rfl, Except.ok.inj h⟩
  | error e =>
    cases e with
    | refusal why =>
      obtain ⟨rfl, rfl⟩ := Prod.mk.inj (Except.ok.inj h)
      exact .inr ⟨why, rfl, rfl, rfl⟩
    | fault f => cases h

/-- An elimination that succeeds was of a variable without constraints. -/
theorem hasConstraints_of_eliminate {s : Theory} {v : Var} {p : Theory × Bool}
    (h : s.eliminate v = .ok p) : s.database.hasConstraints v = false := by
  by_contra hc
  rw [Bool.not_eq_false] at hc
  rw [eliminate, if_pos hc] at h
  cases h

/-- Scopes that were left were open. -/
theorem le_of_pop {s s' : Theory} {levels : Nat} (h : s.pop levels = .ok s') :
    levels ≤ s.level := by
  by_contra hc
  rw [pop, if_pos (Nat.lt_of_not_le hc)] at h
  cases h

/-- A check answers with its report. -/
theorem Sane.verdict_of_step {s s' : Theory} (hs : s.Sane) {effort : Effort} {a : Answer}
    (h : s.step (.check effort) = .ok (s', a)) : ∃ r, a = .sent r ∧ Verdict effort s s' r := by
  rw [step] at h
  obtain ⟨⟨s₁, r⟩, hok, heq⟩ := bind_eq_ok.mp h
  obtain ⟨rfl, rfl⟩ := Prod.mk.inj (Except.ok.inj heq)
  have hv := hs.check_spec effort
  rw [hok] at hv
  exact ⟨r, rfl, hv⟩

/-- An operation after which the state is the same, and of which the journal notes nothing. -/
theorem Sane.idle {s : Theory} (hs : s.Sane) {op : Operation} {a : Answer}
    (quiet : ∀ j : Journal, j.note op a = j) (moves : s.Moves s op a) : Transition s op a s :=
  .maintains quiet hs.maintains_refl rfl (.inr rfl) (fun _ _ => .inr rfl) moves

theorem Sane.step_spec {s s' : Theory} (hs : s.Sane) (hc : s.simplex.model.Committed)
    {op : Operation} {a : Answer} (h : s.step op = .ok (s', a)) : Transition s op a s' := by
  have hsame : Steady s s := .of_simplex rfl
  cases op with
  | register t =>
    rcases orRefuse_eq_ok h with ⟨s₁, hok, heq⟩ | ⟨why, _, rfl, rfl⟩
    · obtain ⟨rfl, rfl⟩ := Prod.mk.inj heq
      rcases hs.register_spec t with ⟨why, herr⟩ | ⟨s₂, hok₂, hm, ⟨hpending, hqueue⟩, hsteady⟩
      · rw [herr] at hok
        cases hok
      · cases hok₂.symm.trans hok
        exact .maintains (fun _ => rfl) hm hpending (.inr hqueue) (fun _ h => .inl h) hsteady
    · exact hs.idle (fun _ => rfl) hsame
  | assert t =>
    rcases orRefuse_eq_ok h with ⟨s₁, hok, heq⟩ | ⟨why, _, rfl, rfl⟩
    · obtain ⟨rfl, rfl⟩ := Prod.mk.inj heq
      rcases hs.assertLiteral_spec t with ⟨why, herr⟩ | ⟨s₂, hok₂, hm, ⟨hpending, hqueue⟩, hsteady⟩
      · rw [herr] at hok
        cases hok
      · cases hok₂.symm.trans hok
        exact .asserts hm hpending hqueue hsteady
    · exact hs.idle (fun _ => rfl) hsame
  | check effort =>
    obtain ⟨r, rfl, hv⟩ := hs.verdict_of_step h
    exact .checks hv
  | propagate =>
    obtain ⟨rfl, rfl⟩ := Prod.mk.inj (Except.ok.inj h)
    exact .maintains (fun _ => rfl) hs.maintains_propagate rfl (.inl rfl) (fun _ _ => .inr rfl)
      ⟨fun _ _ => rfl, fun _ _ hw => hw⟩
  | explain t =>
    rcases orRefuse_eq_ok h with ⟨u, _, heq⟩ | ⟨why, _, rfl, rfl⟩
    · obtain ⟨rfl, rfl⟩ := Prod.mk.inj heq
      exact hs.idle (fun _ => rfl) hsame
    · exact hs.idle (fun _ => rfl) hsame
  | push =>
    obtain ⟨rfl, rfl⟩ := Prod.mk.inj (Except.ok.inj h)
    exact .opens hs.push_spec
  | pop levels =>
    rw [step] at h
    obtain ⟨s₁, hok, heq⟩ := bind_eq_ok.mp h
    obtain ⟨rfl, rfl⟩ := Prod.mk.inj (Except.ok.inj heq)
    obtain ⟨s₂, hok₂, hleft⟩ := hs.pop_spec (le_of_pop hok)
    cases hok₂.symm.trans hok
    exact .leaves (le_of_pop hok) hleft
  | restart =>
    rw [step] at h
    obtain ⟨s₁, hok, heq⟩ := bind_eq_ok.mp h
    obtain ⟨rfl, rfl⟩ := Prod.mk.inj (Except.ok.inj heq)
    obtain ⟨hm, ⟨hpending, hqueue⟩, hmoves⟩ := (hs.restart_spec hc).of_ok hok
    exact .maintains (fun _ => rfl) hm hpending (.inr hqueue) (fun _ h => .inl h)
      (hmoves.imp_right .of_simplex)
  | presolve =>
    rw [step] at h
    obtain ⟨s₁, n, hok, hm, ⟨hpending, hqueue⟩, hvalues, hidle⟩ := hs.presolve_spec hc
    rw [hok] at h
    obtain ⟨rfl, rfl⟩ := Prod.mk.inj (Except.ok.inj h)
    exact .maintains (fun _ => rfl) hm hpending (.inr hqueue) (fun _ h => .inl h)
      ⟨hvalues, fun hn => hidle (bne_eq_false_iff_eq.mp hn)⟩
  | reset =>
    rw [step] at h
    obtain ⟨s₁, hok, hm, ⟨hpending, hqueue⟩, hqueued⟩ := hs.resetTableau_spec hc
    rw [hok] at h
    obtain ⟨rfl, rfl⟩ := Prod.mk.inj (Except.ok.inj h)
    exact .maintains (fun _ => rfl) hm hpending (.inr hqueue) (fun _ h => .inl h) hqueued
  | eliminate v =>
    rw [step] at h
    obtain ⟨p, hok, heq⟩ := bind_eq_ok.mp h
    obtain ⟨rfl, rfl⟩ := Prod.mk.inj (Except.ok.inj heq)
    obtain ⟨s₂, b, hok₂, hm, ⟨hpending, hqueue⟩, hmodel, hidle⟩ :=
      hs.eliminate_spec hc (hasConstraints_of_eliminate hok)
    cases hok₂.symm.trans hok
    refine .maintains (fun _ => rfl) hm hpending (.inr hqueue) (fun _ h => .inl h)
      ⟨fun _ _ => by rw [hmodel], fun hb => ?_⟩
    rw [hidle hb]
    exact hsame

theorem Transition.options {s s' : Theory} {op : Operation} {a : Answer}
    (h : Transition s op a s') : s'.options = s.options := by
  cases h with
  | maintains _ h _ _ _ _ => exact h.options
  | asserts h _ _ _ => exact h.options
  | checks h => exact h.continues.options
  | opens h => exact h.options
  | leaves _ h => exact h.options

/-- The journal after an operation is that of the new state. -/
theorem Transition.running {s s' : Theory} {op : Operation} {a : Answer} {j : Journal}
    (h : Transition s op a s') (hr : Running s j) : Running s' (j.note op a) := by
  cases h with
  | maintains quiet h pending _ _ _ =>
    rw [quiet]
    exact h.running hr pending
  | asserts h pending _ _ => exact hr.assert h pending
  | checks h =>
    refine (h.running hr).of_conflict ?_ ?_
    · simp only [Journal.note]
      split <;> rfl
    · simp only [Journal.note]
      split <;> rfl
  | opens h => exact h.running hr
  | leaves hle h =>
    rw [hr.level] at h hle
    exact h.running hr (by rw [hr.level]; exact Nat.sub_le _ _) _

/-! ## Runs -/

theorem run_cons_eq_ok {s s' : Theory} {op : Operation} {ops : List Operation} {as : List Answer}
    (h : s.run (op :: ops) = .ok (s', as)) : ∃ s₁ a as', s.step op = .ok (s₁, a) ∧
      s₁.run ops = .ok (s', as') ∧ as = a :: as' := by
  rw [run] at h
  obtain ⟨⟨s₁, a⟩, hstep, h⟩ := bind_eq_ok.mp h
  obtain ⟨⟨s₂, as'⟩, hrun, h⟩ := bind_eq_ok.mp h
  obtain ⟨rfl, rfl⟩ := Prod.mk.inj (Except.ok.inj h)
  exact ⟨s₁, a, as', hstep, hrun, rfl⟩

/-- The state that a run leads to has the facts of the journal of the run. -/
theorem Running.run {s s' : Theory} {j : Journal} {ops : List Operation} {as : List Answer}
    (hr : Running s j) (h : s.run ops = .ok (s', as)) : Running s' (j.noteAll ops as) := by
  induction ops generalizing s j as with
  | nil =>
    obtain ⟨rfl, rfl⟩ := Prod.mk.inj (Except.ok.inj h)
    exact hr
  | cons op ops ih =>
    obtain ⟨s₁, a, as', hstep, hrun, rfl⟩ := run_cons_eq_ok h
    exact ih ((hr.sane.step_spec hr.committed hstep).running hr) hrun

/-- What each operation of a run preserves holds at its end. -/
theorem Running.preserve {s s' : Theory} {j : Journal} {ops : List Operation} {as : List Answer}
    (hr : Running s j) (h : s.run ops = .ok (s', as)) {P : Theory → Prop} (hs : P s)
    (hstep : ∀ {s₁ s₂ j op a}, op ∈ ops → Running s₁ j → s₁.step op = .ok (s₂, a) →
      Transition s₁ op a s₂ → P s₁ → P s₂) : P s' := by
  induction ops generalizing s j as with
  | nil =>
    obtain ⟨rfl, rfl⟩ := Prod.mk.inj (Except.ok.inj h)
    exact hs
  | cons op ops ih =>
    obtain ⟨s₁, a, as', hop, hrun, rfl⟩ := run_cons_eq_ok h
    have ht := hr.sane.step_spec hr.committed hop
    exact ih (ht.running hr) hrun (hstep List.mem_cons_self hr hop ht hs) fun hmem =>
      hstep (List.mem_cons_of_mem _ hmem)

/-- The options never change. -/
theorem Running.options {s s' : Theory} {j : Journal} {ops : List Operation} {as : List Answer}
    (hr : Running s j) (h : s.run ops = .ok (s', as)) : s'.options = s.options :=
  hr.preserve h (P := fun t => t.options = s.options) rfl
    fun _ _ _ ht => ht.options.trans

theorem running_of_run {o : Options} {s : Theory} {ops : List Operation} {as : List Answer}
    (h : (start o).run ops = .ok (s, as)) : Running s (.of ops as) :=
  (running_start o).run h

end LinearArithmetic.Theory
