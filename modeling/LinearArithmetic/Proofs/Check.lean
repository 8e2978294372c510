import LinearArithmetic.Proofs.Termination
import LinearArithmetic.Proofs.Processing

/-!
# Checks

A check processes the queued facts and repairs the bounds. With a conflict it reports a
conjunction of literals of processed facts and goes back to the values of the last commit; without
one, all values are within their bounds. A full check decides violated disequalities.
-/

namespace LinearArithmetic.Theory

/-! ## The simplex procedure at work -/

/-- The simplex procedure has the same equations, bounds and variables, and its values fit. -/
structure Resolves (s : Theory) (x : Simplex) : Prop where
  coherent : x.Coherent
  rebased : Simplex.Rebased s.simplex.tableau x.tableau
  room : x.model.numVariables = s.simplex.model.numVariables
  trail : x.model.trail = s.simplex.model.trail
  bounds : x.model.boundOf = s.simplex.model.boundOf
  values : x.tableau.Solves x.model.valueOf
  safe : x.tableau.Solves x.model.safeOf
  dormant : ∀ v, s.Dormant v → x.model.savedOf v = none

section Resolves

variable {s : Theory} {x : Simplex} (h : s.Resolves x)

include h

theorem Resolves.sameLedgers : SameLedgers s { s with simplex := x } :=
  ⟨rfl, rfl, h.trail, h.bounds, rfl, rfl⟩

theorem Resolves.framed (hs : s.Framed) : ({ s with simplex := x } : Theory).Framed where
  coherent := h.coherent
  room := h.room.trans hs.room
  definitions := hs.definitions
  mentions v hv := hs.mentions v (h.rebased.mentions v hv)
  eliminated := hs.eliminated
  triangular := hs.triangular
  apart e he hm := hs.apart e he (h.rebased.mentions _ hm)
  ejected v r hr := hs.ejected v r (h.rebased.ejected ▸ hr)
  values := h.values
  safe := h.safe
  dormant := h.dormant

theorem Resolves.balanced (hb : s.Balanced) : ({ s with simplex := x } : Theory).Balanced := by
  intro M _ _ σ
  refine Iff.trans ?_ (hb M σ)
  exact and_congr (h.rebased.solves_iff M σ) Iff.rfl

theorem Resolves.sane (hs : s.Sane) : ({ s with simplex := x } : Theory).Sane where
  framed := h.framed hs.framed
  named := hs.named.congr rfl rfl rfl
  linked := hs.linked.congr hs.framed.toArranged rfl rfl (.refl _)
  balanced := h.balanced hs.balanced
  trimmed := hs.trimmed.congr rfl rfl fun _ => rfl
  recorded := h.sameLedgers.recorded hs.recorded
    (fun _ _ => Ledger.keeps_of_agrees (.refl _) _) (Nat.le_of_eq h.room.symm)
    (fun _ _ _ _ hd => hd) (fun _ _ _ _ hd => hd)
    fun f hf => hs.recorded.linear f (List.mem_append_right _ hf)

theorem Resolves.continues : Continues s { s with simplex := x } where
  options := rfl
  level := rfl
  below n _ := h.sameLedgers.ledgerAt n
  more := h.sameLedgers.now.symm ▸ .refl _
  stored _ k hc := ⟨k, hc, rfl⟩
  lookup _ _ hc := hc
  contents _ _ hp := hp
  constants _ _ hb := hb
  awake _ hu := hu
  owes _ hL := ⟨hL.nodup, hL.mem_iff, hL.proven⟩
  inherits := .refl _

theorem Resolves.complete (hc : s.now.Complete s) :
    ({ s with simplex := x } : Theory).now.Complete { s with simplex := x } where
  settled f hf := h.continues.settles (hc.settled f hf)
  effective := by
    rw [h.sameLedgers.now]
    exact hc.effective

theorem Resolves.closed (hc : s.now.Closed s.database) :
    ({ s with simplex := x } : Theory).now.Closed s.database := by
  rw [h.sameLedgers.now]
  exact hc

end Resolves

/-- Values go back to the last commit. -/
theorem Sane.resolves_revert {s : Theory} (hs : s.Sane) :
    s.Resolves { s.simplex with model := s.simplex.model.revert } where
  coherent := ⟨hs.framed.coherent.tableau, by
    rw [Model.numVariables_revert]
    exact hs.framed.coherent.room⟩
  rebased := .refl _
  room := Model.numVariables_revert _
  trail := Model.trail_revert _
  bounds := Model.boundOf_revert _
  values := by
    rw [Model.valueOf_revert]
    exact hs.framed.safe
  safe := by
    rw [Model.safeOf_revert]
    exact hs.framed.safe
  dormant v _ := Model.committed_revert _ v

/-- The queue of formulas does not matter. -/
theorem Sane.resolves_lemmas {s : Theory} (hs : s.Sane) (ls : List Term) :
    s.Resolves { s.simplex with lemmas := ls } :=
  ⟨⟨hs.framed.coherent.tableau, hs.framed.coherent.room⟩, .refl _, rfl, rfl, rfl, hs.framed.values,
    hs.framed.safe, hs.framed.dormant⟩

theorem resolves_of_repaired {s : Theory} {x : Simplex} {conflict : Option Conflict}
    (hs : s.simplex.Coherent) (h : Simplex.Repaired s.simplex x conflict) : s.Resolves x where
  coherent := ⟨h.grounded.tableau, h.rebased.room.trans (hs.room.trans h.kept.room.symm)⟩
  rebased := h.rebased
  room := h.kept.room
  trail := h.kept.trail
  bounds := h.kept.bounds
  values := h.solves
  safe := by
    rw [h.committed.safeOf_eq]
    exact h.solves
  dormant v _ := h.committed v

/-! ## Looking for a conflict -/

/-- A row that is stuck names asserted bounds. -/
theorem Sane.clashes_of_row {s : Theory} (hs : s.Sane) {bounds : Side → Var → Option Bound}
    (hbounds : bounds = s.simplex.model.boundOf) {c : Conflict}
    (h : Simplex.RowStuck s.simplex.tableau bounds c) : s.Clashes c := by
  have hreasons : ∀ side v β, bounds side v = some β →
      (s.database.marksOf β.reason).proof = some [] ∧
        ∃ k, s.database.stored β.reason = some k ∧ Bounds k side v β.value := by
    intro side v β hβ
    rw [hbounds] at hβ
    exact hs.recorded.sound_now.reasons side v β hβ
  obtain ⟨hclash, hnodup, hsource⟩ := clash_of_row hs.named hs.framed.toArranged hs.balanced
    hs.linked (fun side v β hβ => (hreasons side v β hβ).2) h
  refine ⟨hclash, hnodup, fun d hd => ?_⟩
  obtain ⟨side, v, β, hβ, rfl⟩ := hsource d hd
  exact (hreasons side v β hβ).1

/-- What a check without a conflict leaves. -/
structure Accepts (s s' : Theory) : Prop where
  done : s'.pending = []
  complete : s.now.Complete s → s'.now.Complete s'
  closed : s.options.propagateBounds = true → s.ForeseesFacts s.pending →
    s.now.Closed s.database → s'.now.Closed s'.database
  within : s.simplex.Queued → ∀ u, s'.simplex.model.Within u
  committed : s'.simplex.model.Committed

/-- What looking for a conflict leads to. -/
structure Finds (s s' : Theory) (conflict : Option Term) : Prop where
  sane : s'.Sane
  continues : Continues s s'
  facts : s'.processed.toList ++ s'.pending = s.processed.toList ++ s.pending
  blames : ∀ x, conflict = some x → s'.Blames x
  safe : ∀ x, conflict = some x → ∀ u, ¬ s.Dormant u →
    s'.simplex.model.safeOf u = s.simplex.model.safeOf u
  foreseen : s.ForeseesFacts s.pending → Foreseen s s'
  foresees : s'.database.constraints.size = s.database.constraints.size →
    s.ForeseesFacts s.pending
  accepts : conflict = none → Accepts s s'

theorem Sane.findConflict_spec {s : Theory} (hs : s.Sane) :
    Checked.Meets (fun _ => ¬ s.simplex.Queued) (fun p => Finds s p.1 p.2) s.findConflict := by
  obtain ⟨s₁, conflict, hprocess, hp⟩ := processAll_spec s.pending hs fun f hf =>
    hs.recorded.linear f (List.mem_append_right _ hf)
  rw [findConflict, hprocess, ok_bind]
  cases conflict with
  | some x =>
    exact ⟨hp.sane, hp.proceeds.toContinues, hp.facts, hp.blames, fun _ _ => hp.proceeds.safe,
      hp.foreseen, hp.foresees, fun h => (by cases h)⟩
  | none =>
    have hf := hp.sane.framed
    refine Checked.Meets.bind ((Simplex.repair_spec hf.coherent.grounded hf.values hf.safe
      hp.sane.recorded.sound_now.ordered).mono_fault fun _ hf hq =>
        hf (hp.proceeds.queued hq)) fun p hrep => ?_
    obtain ⟨x, conflict⟩ := p
    have hres := resolves_of_repaired hf.coherent hrep
    have hsane := hres.sane hp.sane
    have hcont := hp.proceeds.toContinues.trans hres.continues
    cases conflict with
    | none =>
      refine ⟨hsane, hcont, hp.facts, fun _ h => (by cases h), fun _ h => (by cases h),
        hp.foreseen, hp.foresees, fun _ => ⟨hp.done rfl,
          fun hc => hres.complete (hp.complete rfl hc),
          fun hon hf hc => hres.closed (hp.closed rfl hon hf hc), fun hq => ?_, hrep.committed⟩⟩
      exact hrep.within rfl hp.sane.recorded.sound_now.ordered (hp.proceeds.queued hq)
    | some c =>
      obtain ⟨hvalue, hstuck⟩ := hrep.stuck c rfl
      obtain ⟨t, hterm, hblames⟩ :=
        hsane.conflictTerm_spec (hsane.clashes_of_row hrep.kept.bounds.symm hstuck)
      simp only [hterm, ok_bind, pure_eq_ok, Checked.meets_ok]
      refine ⟨hsane, hcont, hp.facts, fun y hy => ?_, fun _ _ u hu => ?_, hp.foreseen,
        hp.foresees, fun h => (by cases h)⟩
      · rw [← Option.some.inj hy]
        exact hblames
      · rw [← hp.proceeds.safe u hu, ← hvalue]
        exact congrFun hrep.committed.safeOf_eq u

/-! ## Deciding disequalities -/

/-- The literal of an equality is an equation. -/
theorem Sane.literal_of_equality {s : Theory} (hs : s.Sane) {d : ConstraintId} {k : Constraint}
    (hd : s.database.stored d = some k) (hlive : k.live = true)
    (hkind : k.statement.kind = .disequality) :
    ∃ l lhs rhs, s.database.stored k.negation = some l ∧ l.literal = some (.rel .eq lhs rhs) := by
  obtain ⟨l, hl, hback, _, hllive⟩ := hs.linked.valid.negation d k hd
  obtain ⟨t, hlit, ht⟩ := hs.linked.valid.named _ l hl (hllive.trans hlive)
  obtain ⟨hliteral, l', hl', _, hneg⟩ := hs.linked.valid.known t _ ht
  rw [hl] at hl'
  obtain rfl := Option.some.inj hl'
  rw [hback] at hneg
  have hdis := (hs.linked.denotes _ d k hneg hd).kind.mp hkind
  have heq : ∃ lhs rhs, t = .rel .eq lhs rhs := by
    cases t with
    | rel r a b => cases r <;> first | exact ⟨a, b, rfl⟩ | exact hdis.elim
    | neg u =>
      cases u with
      | rel r a b => exact hdis.elim
      | _ => cases hliteral
    | _ => cases hliteral
  obtain ⟨lhs, rhs, rfl⟩ := heq
  exact ⟨l, lhs, rhs, hl, hlit⟩

/-- The asserted disequality is not split and its variable has the excluded value. -/
def Violated (s : Theory) (d : ConstraintId) : Prop :=
  ∃ k, s.database.stored d = some k ∧ k.split = false ∧
    s.simplex.model.valueOf k.statement.var = k.statement.value

theorem Sane.violatedDisequalities_spec {s : Theory} (hs : s.Sane) :
    ∃ l, s.violatedDisequalities = .ok l ∧
      ∀ d, d ∈ l ↔ d ∈ s.disequalities.toList ∧ s.Violated d := by
  classical
  refine ⟨s.disequalities.toList.filter fun d => decide (s.Violated d),
    Checked.filterM_eq_ok fun d hd => ?_, fun d => by simp⟩
  obtain ⟨hself, k, hk, _⟩ := hs.recorded.sound_now.disequalities d hd
  simp only [Database.get_eq_ok hk, Model.value_eq_ok (hs.lt_model hk (hs.live hk hself)), ok_bind,
    pure_eq_ok]
  congr 1
  have hiff : s.Violated d ↔ k.split = false ∧
      s.simplex.model.valueOf k.statement.var = k.statement.value := by
    refine ⟨fun ⟨k', hk', h⟩ => ?_, fun h => ⟨k, hk, h⟩⟩
    rw [hk] at hk'
    rw [Option.some.inj hk']
    exact h
  rw [Bool.eq_iff_iff, decide_eq_true_iff, hiff]
  simp

/-- Disequalities are decided by formulas alone. -/
structure Splits (s s' : Theory) (ds : List ConstraintId) : Prop where
  sane : s'.Sane
  continues : Continues s s'
  model : s'.simplex.model = s.simplex.model
  disequalities : s'.disequalities = s.disequalities
  processed : s'.processed = s.processed
  pending : s'.pending = s.pending
  agrees : Database.Agrees s.database s'.database
  proofs : Database.SameProofs s.database.marksOf s'.database.marksOf
  silent : s'.simplex.lemmas = [] → s' = s ∧ ds = []

theorem Splits.complete {s s' : Theory} {ds : List ConstraintId} (h : Splits s s' ds)
    (hs : s.Sane) (hc : s.now.Complete s) : s'.now.Complete s' where
  settled f hf := by
    rw [facts_now, h.processed] at hf
    exact h.continues.settles (hc.settled f hf)
  effective d k hk hp := by
    have hp' := (h.proofs d).1.symm.trans hp
    obtain ⟨k₀, hk₀, hb⟩ := (h.continues.keeps s.now).of_stored hs.recorded.sound_now
      (proven_of_self hp') hk
    have hf := hc.effective d k₀ hk₀ hp'
    rw [Constraint.statement_of_bare hb]
    rw [Ledger.Fulfils, Ledger.InEffect, Ledger.Pinned] at hf ⊢
    rw [bounds_now, disequalities_now] at hf ⊢
    rw [h.model, h.disequalities]
    exact hf

theorem Splits.closed {s s' : Theory} {ds : List ConstraintId} (h : Splits s s' ds)
    (hc : s.now.Closed s.database) : s'.now.Closed s'.database :=
  hc.agrees h.agrees fun d => by
    rw [Ledger.Proven, Ledger.Proven, marks_now, marks_now, (h.proofs d).1]

/-- One disequality is decided. -/
theorem Sane.split {s : Theory} (hs : s.Sane) {d : ConstraintId}
    (hd : d ∈ s.disequalities.toList) :
    ∃ db t, s.database.split d = .ok (db, t) ∧
      Splits s { s with
        database := db
        simplex := (splitLemmas t).foldl (fun x f => x.pushLemma f) s.simplex } [d] := by
  obtain ⟨hself, k, hk, hkind⟩ := hs.recorded.sound_now.disequalities d hd
  obtain ⟨l, lhs, rhs, hl, hlit⟩ := hs.literal_of_equality hk (hs.live hk hself) hkind
  obtain ⟨db, hsplit, hflags⟩ := hs.linked.valid.split_spec hk (by rw [hkind]; rfl)
    (e := k.negation) (by rw [hkind]; rfl) hl hlit
  obtain ⟨hs₁, hp₁⟩ := hs.flagging hflags
  have hres := hs₁.resolves_lemmas (s.simplex.lemmas ++ splitLemmas ⟨lhs, rhs⟩)
  have hpush : (splitLemmas ⟨lhs, rhs⟩).foldl (fun x f => x.pushLemma f) s.simplex =
      { s.simplex with lemmas := s.simplex.lemmas ++ splitLemmas ⟨lhs, rhs⟩ } := by
    simp [splitLemmas, Simplex.pushLemma]
  refine ⟨db, ⟨lhs, rhs⟩, hsplit, ?_⟩
  rw [hpush]
  exact ⟨hres.sane hs₁, hp₁.toContinues.trans hres.continues, rfl, rfl, rfl, rfl,
    hflags.advances.agrees, hflags.proofs,
    fun h => by simp [splitLemmas] at h⟩

theorem Sane.splitDisequalities_spec {s : Theory} (hs : s.Sane) :
    ∃ s' ds, s.splitDisequalities = .ok s' ∧ Splits s s' ds ∧
      ∀ d, d ∈ ds ↔ d ∈ s.disequalities.toList ∧ s.Violated d := by
  obtain ⟨ds, hds, hmem⟩ := hs.violatedDisequalities_spec
  rw [splitDisequalities, hds, ok_bind]
  have hdone : ∀ s', s' = s ∧ [] = ds ∨ Splits s s' ds → Splits s s' ds := by
    rintro s' (⟨rfl, rfl⟩ | hsplits)
    · exact ⟨hs, .refl s', rfl, rfl, rfl, rfl, .refl _, .refl _, fun _ => ⟨rfl, rfl⟩⟩
    · exact hsplits
  refine (Checked.exists_foldlM (fun rest t => (∀ d ∈ rest, d ∈ s.disequalities.toList) ∧
      (t = s ∧ rest = ds ∨ Splits s t ds)) (fun d rest t h => ?_) ds s
    ⟨fun d hd => ((hmem d).mp hd).1, .inl ⟨rfl, rfl⟩⟩).imp
    fun s' h => ⟨ds, h.1, hdone s' h.2.2, hmem⟩
  obtain ⟨hrest, ht⟩ := h
  have htail : ∀ e ∈ rest, e ∈ s.disequalities.toList :=
    fun e he => hrest e (List.mem_cons_of_mem _ he)
  rcases ht with ⟨rfl, rfl⟩ | ht
  · obtain ⟨db, tri, hsplit, hsplits⟩ := hs.split (hrest d List.mem_cons_self)
    exact ⟨_, by rw [hsplit]; rfl, htail, .inr { hsplits with
      silent := fun h => absurd (hsplits.silent h).2 (List.cons_ne_nil _ _) }⟩
  · obtain ⟨db, tri, hsplit, hsplits⟩ := ht.sane.split (d := d) (by
      rw [ht.disequalities]
      exact hrest d List.mem_cons_self)
    exact ⟨_, by rw [hsplit]; rfl, htail, .inr ⟨hsplits.sane, ht.continues.trans hsplits.continues,
      hsplits.model.trans ht.model, hsplits.disequalities.trans ht.disequalities,
      hsplits.processed.trans ht.processed, hsplits.pending.trans ht.pending,
      ht.agrees.trans hsplits.agrees, ht.proofs.trans hsplits.proofs,
      fun h => absurd (hsplits.silent h).2 (List.cons_ne_nil _ _)⟩⟩

/-! ## Checking -/

/-- What a check leads to and reports. -/
structure Verdict (effort : Effort) (s s' : Theory) (r : Report) : Prop where
  sane : s'.Sane
  continues : Continues s s'
  facts : s'.processed.toList ++ s'.pending = s.processed.toList ++ s.pending
  committed : s'.simplex.model.Committed
  blames : ∀ x ∈ r.conflicts, s'.Blames x
  reverted : r.conflicts ≠ [] → ∀ u, ¬ s.Dormant u →
    s'.simplex.model.valueOf u = s.simplex.model.safeOf u
  foreseen : s.ForeseesFacts s.pending → Foreseen s s'
  foresees : s'.database.constraints.size = s.database.constraints.size →
    s.ForeseesFacts s.pending
  accepts : r.conflicts = [] → Accepts s s'
  decided : r.conflicts = [] → effort = .full → r.lemmas = [] →
    ∀ d ∈ s'.disequalities.toList, ¬ s'.Violated d

theorem Sane.check_spec {s : Theory} (hs : s.Sane) (effort : Effort) :
    Checked.Meets (fun _ => ¬ s.simplex.Queued)
      (fun p => Verdict effort s p.1 p.2) (s.check effort) := by
  rw [check]
  refine hs.findConflict_spec.bind fun p hf => ?_
  obtain ⟨s₁, conflict⟩ := p
  cases conflict with
  | some x =>
    have hres := hf.sane.resolves_revert
    refine ⟨hres.sane hf.sane, hf.continues.trans hres.continues, hf.facts,
      Model.committed_revert _, fun y hy => ?_, fun _ u hu => ?_, hf.foreseen,
      hf.foresees, fun h => (by cases h), fun h => (by cases h)⟩
    · rw [List.mem_singleton.mp (show y ∈ [x] from hy)]
      exact hf.blames x rfl
    · rw [← hf.safe x rfl u hu]
      exact congrFun (Model.valueOf_revert _) u
  | none =>
    have hacc := hf.accepts rfl
    by_cases hfull : effort = .full
    · obtain ⟨s₂, ds, hsplit, hsplits, hmem⟩ := hf.sane.splitDisequalities_spec
      have hres := hsplits.sane.resolves_lemmas []
      have hcont := (hf.continues.trans hsplits.continues).trans hres.continues
      simp only [if_pos hfull, hsplit, ok_bind, pure_eq_ok, Checked.meets_ok]
      refine ⟨hres.sane hsplits.sane, hcont, ?_, ?_, fun y hy => (by cases hy),
        fun h => absurd rfl h, fun h => ?_,
        fun h => hf.foresees (hsplits.agrees.size_eq.symm.trans h),
        fun _ => ⟨?_, fun hc => ?_, fun hon h hc => ?_, fun hq u => ?_, ?_⟩,
        fun _ _ hnone d hd hv => ?_⟩
      · show s₂.processed.toList ++ s₂.pending = _
        rw [hsplits.processed, hsplits.pending]
        exact hf.facts
      · show s₂.simplex.model.Committed
        rw [hsplits.model]
        exact hacc.committed
      · exact (hf.foreseen h).imp_left hsplits.agrees.size_eq.trans
      · exact hsplits.pending.trans hacc.done
      · exact hres.complete (hsplits.complete hf.sane (hacc.complete hc))
      · exact hres.closed (hsplits.closed (hacc.closed hon h hc))
      · show s₂.simplex.model.Within u
        rw [hsplits.model]
        exact hacc.within hq u
      · show s₂.simplex.model.Committed
        rw [hsplits.model]
        exact hacc.committed
      · -- without a formula sent nothing was violated
        obtain ⟨rfl, rfl⟩ := hsplits.silent hnone
        exact List.not_mem_nil ((hmem d).mpr ⟨hd, hv⟩)
    · simp only [if_neg hfull, pure_eq_ok, Checked.meets_ok]
      exact ⟨hf.sane, hf.continues, hf.facts, hacc.committed, fun y hy => (by cases hy),
        fun h => absurd rfl h, hf.foreseen, hf.foresees, fun _ => hacc, fun _ h => absurd h hfull⟩

end LinearArithmetic.Theory
