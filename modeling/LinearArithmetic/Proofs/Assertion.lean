import LinearArithmetic.Proofs.Effects

/-!
# Asserting facts

A fact that is asserted gets a proof, its statement takes effect, and what it implies is marked,
unless it clashes with what is asserted already.
-/

namespace LinearArithmetic.Theory

/-! ## Implied constraints -/

/-- The second state has more proofs, but no more asserted constraints. -/
structure Infers (s s' : Theory) : Prop where
  sane : s'.Sane
  proceeds : Proceeds s s'
  simplex : s'.simplex = s.simplex
  disequalities : s'.disequalities = s.disequalities
  processed : s'.processed = s.processed
  pending : s'.pending = s.pending
  agrees : Database.Agrees s.database s'.database
  asserted : ∀ d, (s'.database.marksOf d).proof = some [] → (s.database.marksOf d).proof = some []

theorem Infers.effective {s s' : Theory} (h : Infers s s') (hs : s.Sane)
    (he : s.now.Effective s.database) : s'.now.Effective s'.database := by
  have hfulfils : ∀ d st, s.now.Fulfils d st → s'.now.Fulfils d st := by
    intro d st hf
    have hb : s'.now.bounds = s.now.bounds := by rw [bounds_now, bounds_now, h.simplex]
    have hd : s'.now.disequalities = s.now.disequalities := by
      rw [disequalities_now, disequalities_now, h.disequalities]
    rw [Ledger.Fulfils, Ledger.InEffect, Ledger.Pinned, hb, hd]
    exact hf
  intro d k hk hp
  have hp' := h.asserted d hp
  obtain ⟨k₀, hk₀, hb⟩ := (h.proceeds.keeps s.now).of_stored hs.recorded.sound_now
    (proven_of_self hp') hk
  rw [Constraint.statement_of_bare hb]
  exact hfulfils d _ (he d k₀ hk₀ hp')

theorem Infers.refl {s : Theory} (hs : s.Sane) : Infers s s :=
  ⟨hs, .refl s, rfl, rfl, rfl, rfl, .refl _, fun _ => id⟩

theorem Infers.trans {s₁ s₂ s₃ : Theory} (h : Infers s₁ s₂) (k : Infers s₂ s₃) : Infers s₁ s₃ where
  sane := k.sane
  proceeds := h.proceeds.trans k.proceeds
  simplex := k.simplex.trans h.simplex
  disequalities := k.disequalities.trans h.disequalities
  processed := k.processed.trans h.processed
  pending := k.pending.trans h.pending
  agrees := h.agrees.trans k.agrees
  asserted d hd := h.asserted d (k.asserted d hd)

/-- What is implied after one more constraint got its proof from another one. -/
theorem implied_iff_of_marked {s : Theory} {db : Database}
    (hagrees : Database.Agrees s.database db) {c d : ConstraintId} {l : Constraint}
    (hd : s.database.stored d = some l) (hnew : ¬ s.now.Proven d) {t : Term}
    (ht : l.literal = some t) {m : Marks} (hp : m.proof = some [c])
    (hm : db.marksOf = Function.update s.database.marksOf d m) (ls : List Term)
    (e : ConstraintId) (u : Term) :
    ({ s with database := db, propagations := ls } : Theory).Implied e u ↔
      s.Implied e u ∨ e = d ∧ u = t := by
  have hbare : (∃ k, db.stored e = some k ∧ k.literal = some u) ↔
      ∃ k, s.database.stored e = some k ∧ k.literal = some u := by
    constructor
    · rintro ⟨k', hk', hlit⟩
      obtain ⟨k, hk, hb⟩ := hagrees.symm.stored hk'
      exact ⟨k, hk, (Constraint.literal_of_bare hb).trans hlit⟩
    · rintro ⟨k, hk, hlit⟩
      obtain ⟨k', hk', hb⟩ := hagrees.stored hk
      exact ⟨k', hk', (Constraint.literal_of_bare hb).trans hlit⟩
  rw [implied_iff, implied_iff]
  change (∃ a as, (db.marksOf e).proof = some (a :: as)) ∧
    (∃ k, db.stored e = some k ∧ k.literal = some u) ↔ _
  rw [hbare, hm]
  by_cases hed : e = d
  · subst hed
    have hnone : (s.database.marksOf e).proof = none := not_not.mp hnew
    simp [hp, hd, ht, hnone, eq_comm]
  · simp [hed]

/-- The literal of a constraint that gets a proof from another one joins the queue. -/
theorem Sane.owes_append {s : Theory} (hs : s.Sane) {L : Ledger} (h : s.Owes L) {db : Database}
    (hagrees : Database.Agrees s.database db) {c d : ConstraintId} {l : Constraint}
    (hd : s.database.stored d = some l) (hlive : l.live = true) (hnew : ¬ s.now.Proven d)
    {t : Term} (ht : l.literal = some t) {m : Marks} (hp : m.proof = some [c])
    (hm : db.marksOf = Function.update s.database.marksOf d m) :
    ({ s with database := db, propagations := s.propagations ++ [t] } : Theory).Owes L := by
  have himplied := implied_iff_of_marked hagrees hd hnew ht hp hm (s.propagations ++ [t])
  have hlook : s.database.lookup t = some d := by
    obtain ⟨u, hu, hud⟩ := hs.linked.valid.named d l hd hlive
    rw [ht] at hu
    rw [Option.some.inj hu]
    exact hud
  -- a literal that waits leads to a constraint with a proof
  have hfresh : t ∉ s.propagations := by
    intro hmem
    obtain ⟨e, he, _⟩ := (h.mem_iff t).mp hmem
    have hlook' := hs.lookup_of_implied he
    rw [hlook] at hlook'
    obtain rfl := Option.some.inj hlook'
    exact hnew he.proven
  refine ⟨?_, fun u => ?_, fun e he => ?_⟩
  · exact List.nodup_append.mpr ⟨h.nodup, List.nodup_singleton t, fun u hu v hv huv =>
      hfresh (List.mem_singleton.mp hv ▸ huv ▸ hu)⟩
  · simp only [himplied, List.mem_append, List.mem_singleton, h.mem_iff, or_and_right,
      exists_or]
    refine or_congr Iff.rfl ⟨fun hu => ⟨d, ⟨rfl, hu⟩, fun hL => hnew (h.proven d hL)⟩, ?_⟩
    rintro ⟨_, ⟨_, hu⟩, _⟩
    exact hu
  · change Ledger.Proven { s.now with marks := db.marksOf } e
    rw [hm]
    exact (Ledger.extends_marking hnew m).proven (h.proven e he)

/-- A constraint that is asserted joins no queue. -/
theorem Sane.owes_asserted {s : Theory} (hs : s.Sane) {L : Ledger} (h : s.Owes L) {db : Database}
    (hagrees : Database.Agrees s.database db) {c : ConstraintId} (hnew : ¬ s.now.Proven c)
    {m : Marks} (hp : m.proof = some [])
    (hm : db.marksOf = Function.update s.database.marksOf c m) :
    ({ s with database := db } : Theory).Owes L := by
  refine h.congr hs.recorded.sound_now (Ledger.keeps_of_agrees hagrees _) (fun d a as => ?_)
    (fun d hd => ?_) rfl
  · change (db.marksOf d).proof = _ ↔ _
    rw [hm]
    by_cases hdc : d = c
    · have hnone : (s.database.marksOf c).proof = none := not_not.mp hnew
      simp [hdc, hp, hnone]
    · rw [Function.update_of_ne hdc]
  · change Ledger.Proven { s.now with marks := db.marksOf } d
    rw [hm]
    exact (Ledger.extends_marking hnew m).proven hd

/-- One constraint that follows from an asserted one is marked, and its literal queued. -/
theorem Sane.infer {s : Theory} (hs : s.Sane) {c d : ConstraintId} {k l : Constraint}
    (hc : s.database.stored c = some k) (hself : (s.database.marksOf c).proof = some [])
    (heff : s.now.InEffect k.statement) (hfollows : s.database.Follows k.statement d)
    (hu : s.database.Unknown d) (hd : s.database.stored d = some l) {t : Term}
    (ht : l.literal = some t) :
    ∃ db, s.database.mark d [c] = .ok db ∧ Database.Advances s.database db ∧
      (∃ m, m.proof = some [c] ∧ db.marksOf = Function.update s.database.marksOf d m) ∧
      Infers s { s with database := db, propagations := s.propagations ++ [t] } := by
  obtain ⟨l', n, hl', _, hn, _⟩ := id hu
  rw [hd] at hl'
  obtain rfl := Option.some.inj hl'
  obtain ⟨hpd, hpn⟩ := (Database.unknown_iff hd hn).mp hu
  have hnew : ¬ s.now.Proven d := fun h => h hpd
  obtain ⟨l', hl', hlive, himp⟩ := hfollows
  rw [hd] at hl'
  obtain rfl := Option.some.inj hl'
  have hblank : l.asserted = none := by
    have hb := hs.recorded.sound_now.blank d hnew
    rw [marks_now, Database.marksOf_of_stored hd] at hb
    exact hb
  have hproof : k.proof = some [] := by
    rw [Database.marksOf_of_stored hc] at hself
    exact hself
  obtain ⟨db, hmark, hadv, hm⟩ := Database.mark_spec hs.linked.valid.toIndexed hd hu hblank
    [c] (.inl (List.cons_ne_nil c [])) fun a ha =>
      ⟨k, List.mem_singleton.mp ha ▸ hc, by rw [hproof]; exact Option.some_ne_none _⟩
  obtain ⟨hsane, hproceeds⟩ := hs.marking hadv hm hd hlive hnew (fun h => h hpn)
    (.inr ⟨c, k, rfl, hself, hc, himp, heff⟩) (s.propagations ++ [t])
    fun _ hL => hs.owes_append hL hadv.agrees hd hlive hnew ht rfl hm
  refine ⟨db, hmark, hadv, ⟨_, rfl, hm⟩, hsane, hproceeds, rfl, rfl, rfl, rfl, hadv.agrees,
    fun e he => ?_⟩
  have he' : (db.marksOf e).proof = some [] := he
  by_cases hed : e = d
  · rw [hed, hm, Function.update_self] at he'
    cases he'
  · rw [hm, Function.update_of_ne hed] at he'
    exact he'

/-- What a new bound or equality implies is not known to be false: if it were, the new constraint
would have been known to be false. -/
theorem Sane.not_proven_negation {s : Theory} (hs : s.Sane) {c d : ConstraintId} {k l : Constraint}
    (hc : s.database.stored c = some k) (hself : (s.database.marksOf c).proof = some [])
    (hkind : k.statement.kind ≠ .disequality)
    (hclose : ∀ e, s.now.Proven e → e ≠ c → s.now.Closes s.database e)
    (hd : s.database.stored d = some l) (hfollows : s.database.Follows k.statement d)
    (hdc : d ≠ c) : ¬ s.now.Proven l.negation := by
  intro hproven
  have hv := hs.linked.valid
  have hklive := hs.live hc hself
  have hrep := hv.representable c k hc
  obtain ⟨l', hl', hlive, hvar, himp⟩ := id hfollows
  rw [hd] at hl'
  obtain rfl := Option.some.inj hl'
  obtain ⟨n, hn, _, hneg, _⟩ := hv.negation d l hd
  obtain ⟨m, hm, _, hcneg, hmlive⟩ := hv.negation c k hc
  have hne : l.negation ≠ c := fun heq =>
    hfollows.not_negation hv.toIndexed hrep hd (heq ▸ ⟨k, hc, hklive, .refl _⟩)
  by_cases hnkind : n.statement.kind = .disequality
  · -- a bound or an equality implies no other equality
    have hequality : l.statement.kind = .equality := by
      have hback := Statement.negation?_negation? hneg
      rw [Statement.negation?, hnkind] at hback
      rw [← Option.some.inj hback]
    cases hrep.reaches (hv.representable d l hd) hvar hkind fun q => himp _ with
    | same heq => exact hdc (hv.eq_of_statement_eq hd hc hlive hklive heq)
    | beyond side hside _ hreached =>
      rw [hequality] at hreached
      rcases hreached with rfl | hreached
      · exact hside
      · cases hreached
    | bound _ _ hreached =>
      rw [hequality] at hreached
      rcases hreached with hreached | hreached <;> cases hreached
  · -- the negation implies that the new constraint does not hold
    have hvar' : m.statement.var = n.statement.var := by
      rw [Statement.var_of_negation? hcneg, Statement.var_of_negation? hneg, hvar]
    have hreach := (hv.representable _ n hn).reaches (hv.representable _ m hm) hvar' hnkind
      fun q hq => (Statement.holds_negation? hcneg q).mpr fun hk =>
        (Statement.holds_negation? hneg q).mp hq (himp _ hk)
    exact hs.recorded.sound_now.consistent c k hc (proven_of_self hself)
      (hclose _ hproven hne n hn hnkind _ ⟨m, hm, hmlive.trans hklive, hreach.implies hvar'⟩)

/-- Everything that a new bound or equality implies is collected or known already, since a walk only
ends at known bounds, and what those imply is known. -/
theorem Sane.collected_or_proven {s : Theory} (hs : s.Sane) {c d : ConstraintId} {k : Constraint}
    (hc : s.database.stored c = some k) (hself : (s.database.marksOf c).proof = some [])
    (hkind : k.statement.kind ≠ .disequality)
    (hclose : ∀ e, s.now.Proven e → e ≠ c → s.now.Closes s.database e)
    (hd : s.database.Follows k.statement d) {l : List ConstraintId}
    (hl : d ≠ c → s.database.Covered k.statement l d) : d ∈ l ∨ s.now.Proven d := by
  by_cases hdc : d = c
  · exact .inr (hdc ▸ proven_of_self hself)
  rcases hl hdc with (hmem | hknown) | ⟨side, b, m, hlimits, hfollows⟩
  · exact .inl hmem
  · refine .inr (by_contra fun hnew => hknown ?_)
    obtain ⟨kd, hkd, _⟩ := id hd
    obtain ⟨n, hn, _⟩ := hs.linked.valid.negation d kd hkd
    exact (Database.unknown_iff hkd hn).mpr ⟨not_not.mp hnew,
      not_not.mp (hs.not_proven_negation hc hself hkind hclose hkd hd hdc)⟩
  · have hbproven : s.now.Proven b := by
      rw [Ledger.Proven, marks_now, Database.marksOf_of_stored hlimits.stored]
      exact Option.isSome_iff_ne_none.mp hlimits.proven
    have hbc : b ≠ c := by
      rintro rfl
      have hb := hlimits.stored
      rw [hc] at hb
      exact hlimits.statement_ne (by rw [Option.some.inj hb])
    exact .inr (hclose b hbproven hbc m hlimits.stored hlimits.kind_ne d hfollows)

/-- While what a statement implies is marked, one constraint of the list after the other: the rest
is still unknown, the others have proofs, and nothing else got one. -/
structure Inferring (s : Theory) (st : Statement) (l rest : List ConstraintId) (t : Theory) :
    Prop where
  infers : Infers s t
  nodup : rest.Nodup
  todo : ∀ d ∈ rest, t.database.Unknown d ∧ t.database.Follows st d
  done : ∀ d ∈ l, d ∈ rest ∨ t.now.Proven d
  only : ∀ d, t.now.Proven d → s.now.Proven d ∨ s.database.Follows st d

theorem Inferring.start {s : Theory} (hs : s.Sane) {st : Statement} {l : List ConstraintId}
    (hnodup : l.Nodup) (hunknown : ∀ d ∈ l, s.database.Unknown d)
    (hfollows : ∀ d ∈ l, s.database.Follows st d) : Inferring s st l l s :=
  ⟨.refl hs, hnodup, fun d hd => ⟨hunknown d hd, hfollows d hd⟩, fun _ => .inl, fun _ => .inl⟩

theorem Inferring.step {s t : Theory} {c : ConstraintId} {k : Constraint}
    (hs : s.Sane) (hc : s.database.stored c = some k)
    (hself : (s.database.marksOf c).proof = some []) (heff : s.now.InEffect k.statement)
    {l rest : List ConstraintId} {d : ConstraintId}
    (h : Inferring s k.statement l (d :: rest) t) :
    ∃ kd literal db, t.database.stored d = some kd ∧ kd.literal = some literal ∧
      t.database.mark d [c] = .ok db ∧ Inferring s k.statement l rest
        { t with database := db, propagations := t.propagations ++ [literal] } := by
  obtain ⟨hu, hfollows⟩ := h.todo d List.mem_cons_self
  obtain ⟨hnotin, hnodup⟩ := List.nodup_cons.mp h.nodup
  obtain ⟨kd, hkd, hlive, _⟩ := id hfollows
  obtain ⟨literal, hlit, _⟩ := h.infers.sane.linked.valid.named d kd hkd hlive
  obtain ⟨kt, hkt, hb⟩ := h.infers.proceeds.stored c k hc
  have hst := Constraint.statement_of_bare hb
  have hselft : (t.database.marksOf c).proof = some [] :=
    (h.infers.proceeds.more.proofs c (proven_of_self hself)).1.trans hself
  have hefft : t.now.InEffect kt.statement := by
    rw [hst]
    exact heff.extends h.infers.proceeds.more h.infers.sane.recorded.sound_now.ordered
  obtain ⟨db, hmark, hadv, ⟨m, hproof, hm⟩, hinfer⟩ :=
    h.infers.sane.infer hkt hselft hefft (hst ▸ hfollows) hu hkd hlit
  have hproven : ∀ e, Ledger.Proven { t.now with marks := db.marksOf } e ↔
      e = d ∨ t.now.Proven e := by
    intro e
    rw [Ledger.Proven, Ledger.Proven]
    dsimp only
    rw [hm]
    by_cases hed : e = d
    · simp [hed, hproof]
    · rw [Function.update_of_ne hed]
      simp [hed]
  refine ⟨kd, literal, db, hkd, hlit, hmark, h.infers.trans hinfer, hnodup, fun e he => ?_,
    fun e he => ?_, fun e he => ?_⟩
  · obtain ⟨hue, hfe⟩ := h.todo e (List.mem_cons_of_mem _ he)
    exact ⟨Database.unknown_of_marked h.infers.sane.linked.valid.toIndexed hadv hm
      (hs.linked.valid.representable c k hc) hfollows hfe (fun h => hnotin (h ▸ he)) hue,
      hadv.agrees.follows hfe⟩
  · rcases h.done e he with he | he
    · exact (List.mem_cons.mp he).symm.imp_right fun hed => (hproven e).mpr (.inl hed)
    · exact .inr ((hproven e).mpr (.inr he))
  · rcases (hproven e).mp he with rfl | he
    · exact .inr (h.infers.agrees.symm.follows hfollows)
    · exact h.only e he

/-- If the list has everything that the constraint implies and that was not known, the ledger ends
closed. -/
theorem Inferring.closed {s t : Theory} {c : ConstraintId} {k : Constraint}
    (hc : s.database.stored c = some k) {l : List ConstraintId}
    (h : Inferring s k.statement l [] t)
    (hall : ∀ d, s.database.Follows k.statement d → d ∈ l ∨ s.now.Proven d)
    (hclose : ∀ e, s.now.Proven e → e ≠ c → s.now.Closes s.database e) :
    t.now.Closed t.database := by
  have hdone : ∀ d, s.database.Follows k.statement d → t.now.Proven d := fun d hd =>
    (hall d hd).elim (fun hmem => (h.done d hmem).resolve_left List.not_mem_nil)
      h.infers.proceeds.more.proven
  intro e he
  rcases h.only e he with hes | ⟨k₀, hk₀, _, himp⟩
  · by_cases hec : e = c
    · refine Ledger.Closes.agrees (L := t.now) (fun k' hk' _ d hd => ?_) h.infers.agrees
        fun _ => id
      rw [hec, hc] at hk'
      exact hdone d (Option.some.inj hk' ▸ hd)
    · exact (hclose e hes hec).agrees h.infers.agrees fun _ => h.infers.proceeds.more.proven
  · refine Ledger.Closes.agrees (L := t.now) (fun k' hk' _ d hd => ?_) h.infers.agrees fun _ => id
    rw [hk₀] at hk'
    exact hdone d (hd.trans (Option.some.inj hk' ▸ himp))

theorem Sane.propagateImplied_spec {s : Theory} (hs : s.Sane) {c : ConstraintId}
    {k : Constraint} (hc : s.database.stored c = some k)
    (hself : (s.database.marksOf c).proof = some []) (heff : s.now.InEffect k.statement)
    (hkind : k.statement.kind ≠ .disequality) :
    ∃ s', s.propagateImplied c = .ok s' ∧ Infers s s' ∧
      ((∀ e, s.now.Proven e → e ≠ c → s.now.Closes s.database e) →
        s'.now.Closed s'.database) := by
  obtain ⟨l, hl, hcollects, _, hcovered⟩ := hs.linked.valid.impliedBy_spec hc
  rw [propagateImplied, hl, ok_bind]
  refine (Checked.exists_foldlM (Inferring s k.statement l) (fun d rest t h => ?_) l s
    (.start hs hcollects.nodup hcollects.unknown hcollects.follows)).imp fun s' h =>
      ⟨h.1, h.2.infers, fun hclose => h.2.closed hc (fun d hd => ?_) hclose⟩
  · obtain ⟨kd, literal, db, hkd, hlit, hmark, hnext⟩ := h.step hs hc hself heff
    exact ⟨_, by simp only [Database.get_eq_ok hkd, ok_bind, hlit, hmark]; rfl, hnext⟩
  · exact hs.collected_or_proven hc hself hkind hclose hd
      (hcovered (hs.live hc hself) hkind d hd)

/-! ## Facts -/

/-- What processing a fact leads to: a conflict, or the fact is settled. -/
structure Handles (s s' : Theory) (t : Term) (conflict : Option Term) : Prop where
  sane : s'.Sane
  proceeds : Proceeds s s'
  processed : s'.processed = s.processed
  pending : s'.pending = s.pending
  blames : ∀ x, conflict = some x → s'.Blames x
  settles : conflict = none → s'.now.Settles s' t
  effective : conflict = none → s.now.Effective s.database → s'.now.Effective s'.database
  closed : conflict = none → s.options.propagateBounds = true → Foreseen s s' →
    s.now.Closed s.database → s'.now.Closed s'.database

/-- A fact that is settled already leaves the state as it was. -/
theorem Sane.handles_settled {s : Theory} (hs : s.Sane) {t : Term} (h : s.now.Settles s t) :
    Handles s s t none where
  sane := hs
  proceeds := .refl s
  processed := rfl
  pending := rfl
  blames _ hx := nomatch hx
  settles _ := h
  effective _ := id
  closed _ _ _ := id

/-- A conflict with what is known already leaves the state as it was. -/
theorem Sane.handles_conflict {s : Theory} (hs : s.Sane) {t x : Term} (h : s.Blames x) :
    Handles s s t (some x) where
  sane := hs
  proceeds := .refl s
  processed := rfl
  pending := rfl
  blames _ hy := Option.some.inj hy ▸ h
  settles hx := nomatch hx
  effective hx := nomatch hx
  closed hx := nomatch hx

/-- Effects stay when other constraints keep theirs and the new one has its own. -/
theorem Enacts.effective {s s' : Theory} {c : ConstraintId} {k : Constraint}
    (h : Enacts s s' c k none) (hc : s.database.stored c = some k)
    (he : ∀ d l, s.database.stored d = some l → (s.database.marksOf d).proof = some [] → d ≠ c →
      s.now.Fulfils d l.statement) : s'.now.Effective s'.database := by
  intro d l hl hp
  rw [marks_now] at hp
  rw [h.database] at hl hp
  by_cases hdc : d = c
  · subst hdc
    rw [hc] at hl
    rw [← Option.some.inj hl]
    exact h.fulfils rfl
  · exact h.others rfl d l hl hp (he d l hl hp hdc)

/-- What is in effect is so in a state with the same records. -/
theorem SameLedgers.fulfils {s s' : Theory} (h : SameLedgers s s') {d : ConstraintId}
    {st : Statement} (hf : s.now.Fulfils d st) : s'.now.Fulfils d st := h.now.symm ▸ hf

/-- The constraint is marked as asserted, and its variable made available. -/
structure TakesUp (s s' : Theory) (c : ConstraintId) : Prop where
  sane : s'.Sane
  proceeds : Proceeds s s'
  processed : s'.processed = s.processed
  pending : s'.pending = s.pending
  agrees : Database.Agrees s.database s'.database
  self : (s'.database.marksOf c).proof = some []
  others : ∀ d, d ≠ c → s'.database.marksOf d = s.database.marksOf d
  fulfils : ∀ d st, s.now.Fulfils d st → s'.now.Fulfils d st

theorem Sane.takeUp_spec {s : Theory} (hs : s.Sane) {c : ConstraintId} {k : Constraint}
    (hc : s.database.stored c = some k) (hu : s.database.Unknown c) {t : Term}
    (ht : s.database.lookup t = some c) (hfact : ∃ f ∈ s.processed.toList, f.literal = t) :
    ∃ db k' s', s.database.markAsserted c t = .ok db ∧ db.stored c = some k' ∧
      ({ s with database := db } : Theory).materialize k'.statement.var = .ok s' ∧
      s'.database = db ∧ ¬ s'.Dormant k'.statement.var ∧ TakesUp s s' c := by
  obtain ⟨_, k', hk', hlive, _⟩ := hs.linked.valid.known t c ht
  rw [hc] at hk'
  obtain rfl := Option.some.inj hk'
  obtain ⟨_, n, hk', _, hn, _⟩ := id hu
  rw [hc] at hk'
  obtain rfl := Option.some.inj hk'
  obtain ⟨hpc, hpn⟩ := (Database.unknown_iff hc hn).mp hu
  have hblank : k.asserted = none := by
    have hb := hs.recorded.sound_now.blank c fun h => h hpc
    rw [marks_now, Database.marksOf_of_stored hc] at hb
    exact hb
  obtain ⟨db, a, hmark, hadv, hm, ha⟩ :=
    Database.markAsserted_spec hs.linked.valid hc hu hblank ht
  obtain ⟨hs₁, hp₁⟩ := hs.marking hadv hm hc hlive (fun h => h hpc) (fun h => h hpn)
    (.inl ⟨rfl, t, ha, ht, hfact⟩) s.propagations fun _ hL =>
      hs.owes_asserted hL hadv.agrees (fun h => h hpc) rfl hm
  obtain ⟨k', hc', hb⟩ := hadv.agrees.stored hc
  have hlive' : k'.live = true := (Constraint.live_of_bare hb).trans hlive
  obtain ⟨s', hmat, hgrows, hrearranged, hawake, hactive⟩ :=
    hs₁.framed.materialize (hs₁.linked.inRange hc' hlive')
  have hdb : s'.database = db := hrearranged.database
  refine ⟨db, k', s', hmark, hc', hmat, hdb, hawake,
    hgrows.sane hrearranged hs₁ fun u hu => (hactive u hu).imp_right fun huv =>
      hs₁.linked.valid.hasConstraints_iff.mpr ⟨c, k', hc', hlive', huv.symm⟩,
    hp₁.trans (hgrows.proceeds hrearranged hs₁), hrearranged.processed, hrearranged.pending,
    hdb ▸ hadv.agrees, ?_, fun d hd => ?_,
    fun d st hf => hrearranged.sameLedgers.fulfils (d := d) hf⟩
  · rw [hdb, hm, Function.update_self]
  · rw [hdb, hm, Function.update_of_ne hd]

/-- Asserted constraints have their effect when the new one comes into effect without a conflict. -/
theorem TakesUp.effective {s s₁ s₂ : Theory} {c : ConstraintId} {k : Constraint}
    (h : TakesUp s s₁ c) (he : Enacts s₁ s₂ c k none) (hc : s₁.database.stored c = some k)
    (heffective : s.now.Effective s.database) : s₂.now.Effective s₂.database := by
  refine he.effective hc fun d l hl hp hdc => ?_
  rw [h.others d hdc] at hp
  obtain ⟨l₀, hl₀, hb⟩ := h.agrees.symm.stored hl
  rw [← Constraint.statement_of_bare hb]
  exact h.fulfils d _ (heffective d l₀ hl₀ hp)

/-- What the other constraints imply was known before. -/
theorem TakesUp.closes {s s₁ s₂ : Theory} {c : ConstraintId} {k : Constraint} {x : Option Conflict}
    (h : TakesUp s s₁ c) (he : Enacts s₁ s₂ c k x) (hclosed : s.now.Closed s.database)
    {e : ConstraintId} (hp : s₂.now.Proven e) (hec : e ≠ c) : s₂.now.Closes s₂.database e := by
  rw [Ledger.Proven, marks_now, he.database, h.others e hec] at hp
  exact (hclosed e hp).agrees (he.database ▸ h.agrees)
    fun _ => (h.proceeds.trans he.proceeds).more.proven

/-- After the constraint has come into effect, what it implies is marked if this is asked for. -/
theorem TakesUp.handles {s s₁ s₂ : Theory} {c : ConstraintId} {k : Constraint} {t : Term}
    (h : TakesUp s s₁ c) (he : Enacts s₁ s₂ c k none) (hc : s₁.database.stored c = some k)
    (ht : s.database.lookup t = some c) :
    ∃ s', (if s₂.options.propagateBounds && k.statement.kind ≠ .disequality then
        return (← s₂.propagateImplied c, none) else return (s₂, none) :
          Checked (Theory × Option Term)) = .ok (s', none) ∧ Handles s s' t none := by
  have hproceeds := h.proceeds.trans he.proceeds
  have hself : (s₂.database.marksOf c).proof = some [] := by
    rw [he.database]
    exact h.self
  have hsettles : s₂.now.Settles s₂ t := .inr ⟨c, hproceeds.lookup t c ht, proven_of_self hself⟩
  by_cases hprop : (s₂.options.propagateBounds && k.statement.kind ≠ .disequality) = true
  · have hkind : k.statement.kind ≠ .disequality :=
      of_decide_eq_true (Bool.and_eq_true _ _ ▸ hprop).2
    obtain ⟨s', hs', hinfers, hclosed⟩ := he.sane.propagateImplied_spec (he.database.symm ▸ hc)
      hself ((he.fulfils rfl).1 hkind) hkind
    exact ⟨s', by simp only [if_pos hprop, hs']; rfl, hinfers.sane,
      hproceeds.trans hinfers.proceeds,
      hinfers.processed.trans (he.processed.trans h.processed),
      hinfers.pending.trans (he.pending.trans h.pending), fun _ h => (by cases h),
      fun _ => hinfers.proceeds.settles hsettles,
      fun _ hs => hinfers.effective he.sane (h.effective he hc hs),
      fun _ _ _ hs => hclosed fun _ => h.closes he hs⟩
  · refine ⟨s₂, by simp only [if_neg hprop]; rfl, he.sane, hproceeds,
      he.processed.trans h.processed, he.pending.trans h.pending, fun _ h => (by cases h),
      fun _ => hsettles, fun _ => h.effective he hc, fun _ hon _ hs e hp => ?_⟩
    by_cases hec : e = c
    · -- only what disequalities imply is not looked for
      intro k' hk' hkind
      rw [hec, he.database, hc] at hk'
      refine absurd (Bool.and_eq_true_iff.mpr ⟨hproceeds.options ▸ hon, ?_⟩) hprop
      exact decide_eq_true (Option.some.inj hk' ▸ hkind)
    · exact h.closes he hs hp hec

theorem Sane.assertConstraint_spec {s : Theory} (hs : s.Sane) {c : ConstraintId} {k : Constraint}
    (hc : s.database.stored c = some k) (hu : s.database.Unknown c) {t : Term}
    (ht : s.database.lookup t = some c) (hfact : ∃ f ∈ s.processed.toList, f.literal = t) :
    ∃ s' conflict, s.assertConstraint c t = .ok (s', conflict) ∧ Handles s s' t conflict := by
  obtain ⟨db, k', s₁, hmark, hc', hmat, hdb, hawake, htakes⟩ := hs.takeUp_spec hc hu ht hfact
  have hc₁ : s₁.database.stored c = some k' := hdb ▸ hc'
  obtain ⟨s₂, conflict, hassert, henacts⟩ :=
    htakes.sane.assertStatement_spec hc₁ htakes.self hawake
  rw [assertConstraint]
  simp only [hmark, ok_bind, Database.get_eq_ok hc', hmat, hassert]
  cases conflict with
  | some x =>
    obtain ⟨u, hterm, hblames⟩ := henacts.sane.conflictTerm_spec (henacts.clashes x rfl)
    refine ⟨s₂, some u, by simp only [hterm]; rfl, henacts.sane,
      htakes.proceeds.trans henacts.proceeds, henacts.processed.trans htakes.processed,
      henacts.pending.trans htakes.pending, fun y hy => ?_, fun h => (by cases h),
      fun h => (by cases h), fun h => (by cases h)⟩
    rw [← Option.some.inj hy]
    exact hblames
  | none =>
    obtain ⟨s₃, hok, hhandles⟩ := htakes.handles henacts hc₁ ht
    exact ⟨s₃, none, hok, hhandles⟩

/-- A fact is processed after its literal is registered. -/
theorem Registers.handles {s s' s'' : Theory} (h : Registers s s') (hs : s.Sane) {t : Term}
    {conflict : Option Term} (k : Handles s' s'' t conflict) : Handles s s'' t conflict where
  sane := k.sane
  proceeds := (h.proceeds hs).trans k.proceeds
  processed := k.processed.trans h.processed
  pending := k.pending.trans h.pending
  blames := k.blames
  settles := k.settles
  effective hnone he := by
    refine k.effective hnone ?_
    rw [h.sameLedgers.now]
    exact Ledger.Effective.keeps he (Ledger.keeps_of_grown h.database _) hs.recorded.sound_now
  closed hnone hon hforeseen hclosed := by
    obtain ⟨hbefore, hafter⟩ := hforeseen.split h.database.inherits.size
      k.proceeds.inherits.size h.sameLedgers.now
    refine k.closed hnone (h.options ▸ hon) hafter ?_
    exact hclosed.transfer hs.recorded.sound_now (fun c => by rw [h.sameLedgers.now])
      (Ledger.keeps_of_grown h.database _) h.database.inherits
      (hbefore.imp_right unproven_iff.mp)

/-- A processed fact and an asserted constraint that clash. -/
theorem Sane.blames_pair {s : Theory} (hs : s.Sane) {t u : Term} {c e : ConstraintId}
    (ht : s.database.lookup t = some c) (hu : s.database.lookup u = some e) (hne : e ≠ c)
    (hclash : s.Clash [c, e]) (htf : ∃ f ∈ s.processed.toList, f.literal = t)
    (huf : ∃ f ∈ s.processed.toList, f.literal = u) : s.Blames (.all [t, u].eraseDups) := by
  have hlit : [c, e].map (fun d => if d = c then t else u) = [t, u] := by simp [hne]
  have htu : t ≠ u := by
    rintro rfl
    rw [ht] at hu
    exact hne (Option.some.inj hu).symm
  have hlook : ∀ d ∈ [c, e], s.database.lookup (if d = c then t else u) = some d := by
    rw [List.forall_mem_cons, List.forall_mem_singleton, if_pos rfl, if_neg hne]
    exact ⟨ht, hu⟩
  obtain ⟨hcore, href⟩ := hclash.core hs.linked (fun d => if d = c then t else u) hlook
    (by simp [hne.symm])
  rw [hlit] at hcore href
  refine ⟨[t, u], by simp [List.eraseDups_cons, htu.symm], hcore, href, ?_⟩
  rw [List.forall_mem_cons, List.forall_mem_singleton]
  exact ⟨htf, huf⟩

/-- A processed fact that is false is a conflict of its own. -/
theorem blames_singleton {s : Theory} {t : Term} (hno : ∀ ρ, ¬ t.Holds ρ)
    (hfact : ∃ f ∈ s.processed.toList, f.literal = t) : s.Blames t := by
  obtain ⟨hcore, href⟩ := core_singleton hno
  exact ⟨[t], rfl, hcore, href, List.forall_mem_singleton.mpr hfact⟩

/-- A fact whose negation has a proof is explained away by one asserted constraint. -/
theorem Sane.negation_explained {s : Theory} (hs : s.Sane) {t : Term} {c : ConstraintId}
    {k n : Constraint} (ht : s.database.lookup t = some c) (hc : s.database.stored c = some k)
    (hn : s.database.stored k.negation = some n) (hp : n.proof ≠ none)
    (htf : ∃ f ∈ s.processed.toList, f.literal = t) :
    ∃ u, s.database.explanationLiterals [k.negation] = .ok [u] ∧
      s.Blames (.all [t, u].eraseDups) := by
  obtain ⟨_, k', hk', hlive, _⟩ := hs.linked.valid.known t c ht
  rw [hc] at hk'
  obtain rfl := Option.some.inj hk'
  have hmn := Database.marksOf_of_stored hn
  obtain ⟨as, has⟩ := Option.ne_none_iff_exists'.mp hp
  have hpm : (s.now.marks k.negation).proof = some as := by
    rw [marks_now, hmn]
    exact has
  cases as with
  | nil =>
    obtain ⟨u, hself, hu, huf⟩ := hs.recorded.selfExplained hpm
    refine ⟨u, Database.explanationLiterals_of_self (List.nodup_singleton _) (fun _ => u)
      fun d hd => ?_, hs.blames_pair ht hu (hs.linked.valid.negation_ne hc)
        (clash_of_negation hs.named hs.framed.toArranged hs.linked hc hn hlive) htf huf⟩
    rw [List.mem_singleton.mp hd]
    exact hself
  | cons a as =>
    obtain ⟨rfl, ha, l, hl, himp, heff⟩ := hs.recorded.sound_now.implied _ n a as hn hpm
    obtain ⟨u, hself, hu, huf⟩ := hs.recorded.selfExplained ha
    have hkind : l.statement.kind ≠ .disequality := by
      intro hk
      rw [Ledger.InEffect, hk] at heff
      exact heff
    have hne : a ≠ c := by
      rintro rfl
      exact hs.recorded.sound_now.consistent a k hc (proven_of_self ha)
        (by rw [Ledger.Proven, hpm]; simp)
    exact ⟨u, Database.explanationLiterals_of_antecedent hn has hself,
      hs.blames_pair ht hu hne (clash_of_implied hs.named hs.framed.toArranged hs.linked hc hn
        hlive hl (hs.live hl ha) himp hkind) htf huf⟩

theorem Sane.assertFact_spec {s : Theory} (hs : s.Sane) {t : Term} (hlin : t.Linear)
    (hfact : ∃ f ∈ s.processed.toList, f.literal = t) :
    ∃ s' conflict, s.assertFact t = .ok (s', conflict) ∧ Handles s s' t conflict := by
  rcases registerLiteral_spec hs.framed hs.named hs.linked t with
    ⟨_, _, hnot⟩ | ⟨s₁, c?, hok, hreg, _, hregistered⟩
  · exact absurd hlin hnot
  have hs₁ := hreg.sane hs
  have hfact₁ : ∃ f ∈ s₁.processed.toList, f.literal = t := by
    rw [hreg.processed]
    exact hfact
  suffices hsuff : ∃ s' conflict, s.assertFact t = .ok (s', conflict) ∧
      Handles s₁ s' t conflict by
    obtain ⟨s', conflict, hs', hhandles⟩ := hsuff
    exact ⟨s', conflict, hs', hreg.handles hs hhandles⟩
  rw [assertFact, hok]
  cases c? with
  | none =>
    obtain ⟨b, hb⟩ := hregistered
    obtain ⟨q, hq⟩ : ∃ q, s₁.constantTruth? t = some q :=
      ⟨_, by rw [constantTruth?, hb]; rfl⟩
    cases q with
    | true => exact ⟨s₁, none, by simp only [hq]; rfl, hs₁.handles_settled (.inl hq)⟩
    | false =>
      have hno : ∀ ρ, ¬ t.Holds ρ := by
        intro ρ
        rw [hs₁.linked.holds_iff_constantTruth hq]
        rintro ⟨⟩
      exact ⟨s₁, some t, by simp only [hq]; rfl,
        hs₁.handles_conflict (blames_singleton hno hfact₁)⟩
  | some c =>
    have ht : s₁.database.lookup t = some c := hregistered
    obtain ⟨_, k, hc, hlive, _⟩ := hs₁.linked.valid.known t c ht
    obtain ⟨n, hn, _⟩ := hs₁.linked.valid.negation c k hc
    simp only [Database.negationHasProof_eq_ok hc hn, Database.get_eq_ok hc,
      Database.hasProof_eq_ok hc, ok_bind, pure_eq_ok]
    by_cases hnp : n.proof = none
    · have hnp' : n.proof.isSome = false := by rw [hnp]; rfl
      by_cases hkp : k.proof = none
      · have hkp' : k.proof.isSome = false := by rw [hkp]; rfl
        obtain ⟨s', conflict, hs', hhandles⟩ :=
          hs₁.assertConstraint_spec hc ⟨k, n, hc, hkp, hn, hnp⟩ ht hfact₁
        exact ⟨s', conflict, by simp only [hnp', hkp', hs']; rfl, hhandles⟩
      · have hkp' : k.proof.isSome = true := Option.isSome_iff_ne_none.mpr hkp
        refine ⟨s₁, none, by simp only [hnp', hkp']; rfl,
          hs₁.handles_settled (.inr ⟨c, ht, ?_⟩)⟩
        rw [Ledger.Proven, marks_now, Database.marksOf_of_stored hc]
        exact hkp
    · have hnp' : n.proof.isSome = true := Option.isSome_iff_ne_none.mpr hnp
      obtain ⟨u, hexplain, hblames⟩ := hs₁.negation_explained ht hc hn hnp hfact₁
      exact ⟨s₁, some (.all [t, u].eraseDups), by simp only [hnp', hexplain]; rfl,
        hs₁.handles_conflict hblames⟩

end LinearArithmetic.Theory
