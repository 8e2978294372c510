import LinearArithmetic.Proofs.Clash

/-!
# States of a search

Between and during the operations of a search the rows, the names, the literals and the ledgers
of all open scopes are in order. Steps that record something in the innermost scope leave the
ledgers of the outer ones alone.
-/

namespace LinearArithmetic.Theory

/-- What the theory knows now. -/
def now (s : Theory) : Ledger where
  marks := s.database.marksOf
  bounds := s.simplex.model.boundOf
  disequalities := s.disequalities.toList
  facts := s.processed.toList

@[simp] theorem marks_now (s : Theory) : s.now.marks = s.database.marksOf := rfl

@[simp] theorem bounds_now (s : Theory) : s.now.bounds = s.simplex.model.boundOf := rfl

@[simp] theorem disequalities_now (s : Theory) : s.now.disequalities = s.disequalities.toList := rfl

@[simp] theorem facts_now (s : Theory) : s.now.facts = s.processed.toList := rfl

/-- All trails have the same number of open scopes. -/
structure Levelled (s : Theory) : Prop where
  database : s.database.changes.level = s.level
  model : s.simplex.model.trail.level = s.level
  disequalities : s.disequalities.level = s.level

theorem Levelled.ledgerAt_level {s : Theory} (h : s.Levelled) : s.ledgerAt s.level = s.now := by
  have hp : s.processed.kept s.level = s.processed := Trail.kept_level _
  have hd : s.disequalities.kept s.level = s.disequalities := by
    rw [← h.disequalities]
    exact Trail.kept_level _
  have hm : s.database.marksAt s.level = s.database.marksOf := by
    rw [← h.database]
    exact Database.marksAt_level _
  have hb : s.simplex.model.boundsAt s.level = s.simplex.model.boundOf := by
    rw [← h.model]
    exact Model.boundsAt_level _
  rw [ledgerAt, now, hp, hd, hm, hb]

/-- The ledgers of all open scopes are sound and extend each other, and no variable with a bound
or a disequality is dormant. -/
structure Recorded (s : Theory) : Prop where
  levelled : s.Levelled
  tracked : s.simplex.model.Tracked
  sound : ∀ n ≤ s.level, (s.ledgerAt n).Sound s.database
  nested : ∀ m n, m ≤ n → n ≤ s.level → Ledger.Extends (s.ledgerAt m) (s.ledgerAt n)
  bounded : ∀ side v b, s.simplex.model.boundOf side v = some b → ¬ s.Dormant v
  excluded : ∀ d ∈ s.disequalities.toList, ∀ k, s.database.stored d = some k →
    ¬ s.Dormant k.statement.var
  linear : ∀ f ∈ s.processed.toList ++ s.pending, f.literal.Linear

/-- The state of a search. -/
structure Sane (s : Theory) : Prop where
  framed : s.Framed
  named : s.Named
  linked : s.Linked
  balanced : s.Balanced
  trimmed : s.Trimmed
  recorded : s.Recorded

theorem Recorded.sound_now {s : Theory} (h : s.Recorded) : s.now.Sound s.database :=
  h.levelled.ledgerAt_level ▸ h.sound s.level (Nat.le_refl _)

theorem Recorded.extends_now {s : Theory} (h : s.Recorded) {n : Nat} (hn : n ≤ s.level) :
    Ledger.Extends (s.ledgerAt n) s.now :=
  h.levelled.ledgerAt_level ▸ h.nested n s.level hn (Nat.le_refl _)

/-- What has a proof in an outer scope has one now. -/
theorem Recorded.proven_now {s : Theory} (h : s.Recorded) {n : Nat} (hn : n ≤ s.level)
    {c : ConstraintId} (hc : (s.ledgerAt n).Proven c) : (s.database.marksOf c).proof ≠ none :=
  (h.extends_now hn).proven hc

theorem proven_of_self {s : Theory} {c : ConstraintId}
    (hc : (s.database.marksOf c).proof = some []) : s.now.Proven c := by
  rw [Ledger.Proven, marks_now, hc]
  simp

/-- A constraint with a proof is live. -/
theorem Recorded.live {s : Theory} (h : s.Recorded) {c : ConstraintId} {k : Constraint}
    (hc : s.database.stored c = some k) (hself : (s.database.marksOf c).proof = some []) :
    k.live = true := by
  obtain ⟨k', hk', hlive⟩ := h.sound_now.stored c (proven_of_self hself)
  rw [hc] at hk'
  rw [Option.some.inj hk']
  exact hlive

theorem Sane.live {s : Theory} (hs : s.Sane) {c : ConstraintId} {k : Constraint}
    (hc : s.database.stored c = some k) (hself : (s.database.marksOf c).proof = some []) :
    k.live = true := hs.recorded.live hc hself

/-! ## What waits to be sent -/

/-- The constraint follows from others, and the literal is the one it got first. -/
def Implied (s : Theory) (c : ConstraintId) (t : Term) : Prop :=
  ∃ k a as, s.database.stored c = some k ∧ k.proof = some (a :: as) ∧ k.literal = some t

/-- The literals that wait to be sent are those of the implied constraints that had no proof in the
ledger, each once. -/
structure Owes (s : Theory) (L : Ledger) : Prop where
  nodup : s.propagations.Nodup
  mem_iff : ∀ t, t ∈ s.propagations ↔ ∃ c, s.Implied c t ∧ ¬ L.Proven c
  proven : ∀ c, L.Proven c → s.now.Proven c

theorem Implied.proven {s : Theory} {c : ConstraintId} {t : Term} (h : s.Implied c t) :
    s.now.Proven c := by
  obtain ⟨k, a, as, hc, hp, _⟩ := h
  rw [Ledger.Proven, marks_now, Database.marksOf_of_stored hc, Constraint.marks, hp]
  simp

theorem implied_iff {s : Theory} {c : ConstraintId} {t : Term} :
    s.Implied c t ↔ (∃ a as, (s.database.marksOf c).proof = some (a :: as)) ∧
      ∃ k, s.database.stored c = some k ∧ k.literal = some t := by
  constructor
  · rintro ⟨k, a, as, hc, hp, hlit⟩
    exact ⟨⟨a, as, by rw [Database.marksOf_of_stored hc]; exact hp⟩, k, hc, hlit⟩
  · rintro ⟨⟨a, as, hp⟩, k, hc, hlit⟩
    rw [Database.marksOf_of_stored hc] at hp
    exact ⟨k, a, as, hc, hp, hlit⟩

/-- The literal of an implied constraint leads to it. -/
theorem Sane.lookup_of_implied {s : Theory} (hs : s.Sane) {c : ConstraintId} {t : Term}
    (h : s.Implied c t) : s.database.lookup t = some c := by
  obtain ⟨k, hc, hlive⟩ := hs.recorded.sound_now.stored c h.proven
  obtain ⟨u, hu, hlook⟩ := hs.linked.valid.named c k hc hlive
  obtain ⟨k', _, _, hc', _, hlit⟩ := h
  rw [hc] at hc'
  rw [← Option.some.inj hc', hu] at hlit
  exact Option.some.inj hlit ▸ hlook

/-- What is implied stays so with the proofs that are not the constraint's own. -/
theorem implied_congr {s s' : Theory} (hsound : s.now.Sound s.database)
    (hkeeps : s.now.Keeps s.database s'.database)
    (hproofs : ∀ c a as, (s'.database.marksOf c).proof = some (a :: as) ↔
      (s.database.marksOf c).proof = some (a :: as)) (c : ConstraintId) (t : Term) :
    s'.Implied c t ↔ s.Implied c t := by
  rw [implied_iff, implied_iff]
  simp only [hproofs]
  refine and_congr_right fun ⟨a, as, hp⟩ => ?_
  have hproven : s.now.Proven c := by
    rw [Ledger.Proven, marks_now, hp]
    simp
  constructor
  · rintro ⟨k', hc', hlit⟩
    obtain ⟨k, hc, hb⟩ := hkeeps.of_stored hsound hproven hc'
    exact ⟨k, hc, (Constraint.literal_of_bare hb).symm.trans hlit⟩
  · rintro ⟨k, hc, hlit⟩
    obtain ⟨k', hc', hb⟩ := hkeeps.stored c k hproven hc
    exact ⟨k', hc', (Constraint.literal_of_bare hb).trans hlit⟩

/-- The queue stays right as long as it and what is implied stay. -/
theorem Owes.congr {s s' : Theory} {L : Ledger} (h : s.Owes L) (hsound : s.now.Sound s.database)
    (hkeeps : s.now.Keeps s.database s'.database)
    (hproofs : ∀ c a as, (s'.database.marksOf c).proof = some (a :: as) ↔
      (s.database.marksOf c).proof = some (a :: as))
    (hmore : ∀ c, s.now.Proven c → s'.now.Proven c)
    (hqueue : s'.propagations = s.propagations) : s'.Owes L where
  nodup := hqueue ▸ h.nodup
  mem_iff t := by
    simp only [hqueue, h.mem_iff, implied_congr hsound hkeeps hproofs]
  proven c hc := hmore c (h.proven c hc)

/-! ## Steps in the innermost scope -/

/-- The second state knows more in the innermost scope and the same in the outer ones. -/
structure Continues (s s' : Theory) : Prop where
  options : s'.options = s.options
  level : s'.level = s.level
  below : ∀ n < s.level, s'.ledgerAt n = s.ledgerAt n
  more : Ledger.Extends s.now s'.now
  stored : ∀ c k, s.database.stored c = some k →
    ∃ k', s'.database.stored c = some k' ∧ k'.bare = k.bare
  lookup : ∀ t c, s.database.lookup t = some c → s'.database.lookup t = some c
  contents : ∀ v p, s.content? v = some p → s'.content? v = some p
  constants : ∀ a b, s.constantAtoms.lookup a = some b → s'.constantAtoms.lookup a = some b
  awake : ∀ u, s'.Dormant u → s.Dormant u
  owes : ∀ L, s.Owes L → s'.Owes L
  inherits : Database.Inherits s.database s'.database

theorem Continues.refl (s : Theory) : Continues s s :=
  ⟨rfl, rfl, fun _ _ => rfl, .refl _, fun _ k hc => ⟨k, hc, rfl⟩, fun _ _ => id, fun _ _ => id,
    fun _ _ => id, fun _ => id, fun _ => id, .refl _⟩

theorem Continues.trans {s₁ s₂ s₃ : Theory} (h : Continues s₁ s₂) (k : Continues s₂ s₃) :
    Continues s₁ s₃ where
  options := k.options.trans h.options
  level := k.level.trans h.level
  below n hn := (k.below n (h.level ▸ hn)).trans (h.below n hn)
  more := h.more.trans k.more
  stored c l hc := by
    obtain ⟨l', hc', hb⟩ := h.stored c l hc
    obtain ⟨l'', hc'', hb'⟩ := k.stored c l' hc'
    exact ⟨l'', hc'', hb'.trans hb⟩
  lookup t c hc := k.lookup t c (h.lookup t c hc)
  contents v p hp := k.contents v p (h.contents v p hp)
  constants a b hb := k.constants a b (h.constants a b hb)
  awake u hu := h.awake u (k.awake u hu)
  owes L hL := k.owes L (h.owes L hL)
  inherits := h.inherits.trans k.inherits

theorem Continues.keeps {s s' : Theory} (h : Continues s s') (L : Ledger) :
    L.Keeps s.database s'.database :=
  ⟨fun c k _ => h.stored c k, fun t c _ => h.lookup t c⟩

/-- What is settled stays settled. -/
theorem Continues.settles {s s' : Theory} (h : Continues s s') {t : Term}
    (ht : s.now.Settles s t) : s'.now.Settles s' t := by
  rcases ht with ht | ⟨c, hc, hp⟩
  · exact .inl (Ledger.constantTruth?_mono h.constants ht)
  · exact .inr ⟨c, h.lookup t c hc, h.more.proven hp⟩

/-- No constraint has a proof. -/
def Unproven (s : Theory) : Prop :=
  ∀ c k, s.database.stored c = some k → k.hasProof = false

/-- No constraint was created on the way from one state to the next while some constraint had a
proof. -/
def Foreseen (s s' : Theory) : Prop :=
  s'.database.constraints.size = s.database.constraints.size ∨ s.Unproven

theorem unproven_iff {s : Theory} : s.Unproven ↔ ∀ c, ¬ s.now.Proven c := by
  simp only [Ledger.Proven, marks_now, not_not]
  constructor
  · intro h c
    cases hc : s.database.stored c with
    | none => rw [Database.marksOf_eq_of_unstored hc]
    | some k =>
      rw [Database.marksOf_of_stored hc]
      exact Option.not_isSome_iff_eq_none.mp (Bool.eq_false_iff.mp (h c k hc))
  · intro h c k hc
    have hp := h c
    rw [Database.marksOf_of_stored hc] at hp
    rw [Constraint.hasProof, show k.proof = none from hp]
    rfl

theorem Foreseen.trans {s₁ s₂ s₃ : Theory} (hc : Continues s₁ s₂) (h : Foreseen s₁ s₂)
    (k : Foreseen s₂ s₃) : Foreseen s₁ s₃ := by
  rcases h with h | h
  · refine k.imp (fun k => k.trans h) fun k => ?_
    exact unproven_iff.mpr fun c hp => unproven_iff.mp k c (hc.more.proven hp)
  · exact .inr h

/-- No constraint was created on either part of the way, if the first one gives no proofs. -/
theorem Foreseen.split {s₁ s₂ s₃ : Theory} (h : Foreseen s₁ s₃)
    (hsize₁ : s₁.database.constraints.size ≤ s₂.database.constraints.size)
    (hsize₂ : s₂.database.constraints.size ≤ s₃.database.constraints.size)
    (hnow : s₂.now = s₁.now) : Foreseen s₁ s₂ ∧ Foreseen s₂ s₃ := by
  rcases h with h | h
  · exact ⟨.inl (by omega), .inl (by omega)⟩
  · refine ⟨.inr h, .inr (unproven_iff.mpr fun c => ?_)⟩
    rw [hnow]
    exact unproven_iff.mp h c

/-- A step before the next repair: values that are safe stay, and violations are queued. -/
structure Proceeds (s s' : Theory) : Prop extends Continues s s' where
  safe : ∀ u, ¬ s.Dormant u → s'.simplex.model.safeOf u = s.simplex.model.safeOf u
  lemmas : s'.simplex.lemmas = s.simplex.lemmas
  queued : s.simplex.Queued → s'.simplex.Queued

theorem Proceeds.refl (s : Theory) : Proceeds s s := ⟨.refl s, fun _ _ => rfl, rfl, id⟩

theorem Proceeds.trans {s₁ s₂ s₃ : Theory} (h : Proceeds s₁ s₂) (k : Proceeds s₂ s₃) :
    Proceeds s₁ s₃ where
  toContinues := h.toContinues.trans k.toContinues
  safe u hu := (k.safe u fun hd => hu (h.awake u hd)).trans (h.safe u hu)
  lemmas := k.lemmas.trans h.lemmas
  queued hq := k.queued (h.queued hq)

/-- The records stay in order if the innermost ledger does. -/
theorem Recorded.continues {s s' : Theory} (hr : s.Recorded) (h : Continues s s')
    (hlevel : s'.Levelled) (htracked : s'.simplex.model.Tracked)
    (hsound : s'.now.Sound s'.database)
    (hbounded : ∀ side v b, s'.simplex.model.boundOf side v = some b → ¬ s'.Dormant v)
    (hexcluded : ∀ d ∈ s'.disequalities.toList, ∀ k, s'.database.stored d = some k →
      ¬ s'.Dormant k.statement.var)
    (hlinear : ∀ f ∈ s'.processed.toList ++ s'.pending, f.literal.Linear) : s'.Recorded where
  levelled := hlevel
  tracked := htracked
  sound n hn := by
    rcases Nat.lt_or_eq_of_le hn with hlt | rfl
    · rw [h.level] at hlt
      rw [h.below n hlt]
      exact (hr.sound n hlt.le).keeps (h.keeps _)
    · rw [hlevel.ledgerAt_level]
      exact hsound
  nested m n hmn hn := by
    rcases Nat.lt_or_eq_of_le hn with hlt | rfl
    · rw [h.level] at hlt
      rw [h.below n hlt, h.below m (Nat.lt_of_le_of_lt hmn hlt)]
      exact hr.nested m n hmn hlt.le
    · rw [hlevel.ledgerAt_level]
      rcases Nat.lt_or_eq_of_le hmn with hlt | rfl
      · rw [h.level] at hlt
        rw [h.below m hlt]
        exact (hr.extends_now hlt.le).trans h.more
      · rw [hlevel.ledgerAt_level]
        exact .refl _
  bounded := hbounded
  excluded := hexcluded
  linear := hlinear

/-! ## Steps that record nothing -/

/-- The second state has the same ledgers. -/
structure SameLedgers (s s' : Theory) : Prop where
  marksOf : s'.database.marksOf = s.database.marksOf
  changes : s'.database.changes = s.database.changes
  trail : s'.simplex.model.trail = s.simplex.model.trail
  bounds : s'.simplex.model.boundOf = s.simplex.model.boundOf
  disequalities : s'.disequalities = s.disequalities
  processed : s'.processed = s.processed

section SameLedgers

variable {s s' : Theory} (h : SameLedgers s s')

include h

theorem SameLedgers.ledgerAt (n : Nat) : s'.ledgerAt n = s.ledgerAt n := by
  rw [Theory.ledgerAt, Theory.ledgerAt, Database.marksAt_congr h.changes h.marksOf,
    Model.boundsAt_congr h.trail h.bounds, h.disequalities, h.processed]

theorem SameLedgers.now : s'.now = s.now := by
  rw [Theory.now, Theory.now, h.marksOf, h.bounds, h.disequalities, h.processed]

theorem SameLedgers.level : s'.level = s.level := by rw [Theory.level, Theory.level, h.processed]

theorem SameLedgers.levelled (hl : s.Levelled) : s'.Levelled where
  database := by rw [h.changes, h.level, hl.database]
  model := by rw [h.trail, h.level, hl.model]
  disequalities := by rw [h.disequalities, h.level, hl.disequalities]

/-- The records stay in order if constraints with proofs stay and nothing in use gets dormant. -/
theorem SameLedgers.recorded (hr : s.Recorded)
    (hkeeps : ∀ n ≤ s.level, (s.ledgerAt n).Keeps s.database s'.database)
    (hroom : s.simplex.model.numVariables ≤ s'.simplex.model.numVariables)
    (hbounded : ∀ side v b, s.simplex.model.boundOf side v = some b → s'.Dormant v → s.Dormant v)
    (hexcluded : ∀ d ∈ s.disequalities.toList, ∀ k, s'.database.stored d = some k →
      s'.Dormant k.statement.var → s.Dormant k.statement.var)
    (hlinear : ∀ f ∈ s'.pending, f.literal.Linear) : s'.Recorded where
  levelled := h.levelled hr.levelled
  tracked c hc := by
    rw [h.trail] at hc
    exact Nat.lt_of_lt_of_le (hr.tracked c hc) hroom
  sound n hn := by
    rw [h.level] at hn
    rw [h.ledgerAt]
    exact (hr.sound n hn).keeps (hkeeps n hn)
  nested m n hmn hn := by
    rw [h.level] at hn
    rw [h.ledgerAt, h.ledgerAt]
    exact hr.nested m n hmn hn
  bounded side v b hb hd := by
    rw [h.bounds] at hb
    exact hr.bounded side v b hb (hbounded side v b hb hd)
  excluded d hd k hk hdorm := by
    rw [h.disequalities] at hd
    obtain ⟨hp, _⟩ := hr.sound_now.disequalities d hd
    have hkeep := hkeeps s.level (Nat.le_refl _)
    rw [hr.levelled.ledgerAt_level] at hkeep
    obtain ⟨k₀, hk₀, hb⟩ := hkeep.of_stored hr.sound_now (by rw [Ledger.Proven, hp]; simp) hk
    refine hr.excluded d hd k₀ hk₀ ?_
    rw [← Constraint.statement_of_bare hb]
    exact hexcluded d hd k hk hdorm
  linear f hf := by
    rcases List.mem_append.mp hf with hf | hf
    · rw [h.processed] at hf
      exact hr.linear f (List.mem_append_left _ hf)
    · exact hlinear f hf

theorem SameLedgers.owes (hsound : s.now.Sound s.database)
    (hkeeps : s.now.Keeps s.database s'.database) (hqueue : s'.propagations = s.propagations)
    (L : Ledger) (hL : s.Owes L) : s'.Owes L :=
  hL.congr hsound hkeeps (fun c a as => by rw [h.marksOf]) (fun c hc => h.now.symm ▸ hc) hqueue

end SameLedgers

/-! ## Registering and materialising -/

theorem Grows.room {s s' : Theory} (h : Grows s s') (ha : s.Arranged)
    (hcontents : ∀ v p, s.content? v = some p → s'.content? v = some p) :
    s.simplex.model.numVariables ≤ s'.simplex.model.numVariables := by
  rw [ha.room, h.framed.room]
  by_contra hlt
  have hlt' := Nat.lt_of_not_le hlt
  have hv := lt_of_contents hcontents (v := ⟨s'.infos.size⟩) hlt'
  exact Nat.lt_irrefl _ hv

theorem Registers.sameLedgers {s s' : Theory} (h : Registers s s') : SameLedgers s s' :=
  ⟨h.database.marksOf, h.database.changes, h.trail, h.bounds, h.disequalities, h.processed⟩

theorem Registers.sane {s s' : Theory} (h : Registers s s') (hs : s.Sane) : s'.Sane where
  framed := h.grows.framed
  named := h.named
  linked := h.linked
  balanced := h.grows.balanced hs.balanced
  trimmed := h.trimmed hs.trimmed
  recorded := h.sameLedgers.recorded hs.recorded
    (fun _ _ => Ledger.keeps_of_grown h.database _) (h.grows.room hs.framed.toArranged h.contents)
    (fun _ v _ _ => h.grows.awake v) (fun _ _ k _ => h.grows.awake k.statement.var)
    (fun f hf => hs.recorded.linear f (List.mem_append_right _ (h.pending ▸ hf)))

/-- No dormant variable has a bound. -/
theorem Recorded.free {s : Theory} (h : s.Recorded) :
    ∀ u, s.Dormant u → ∀ side, s.simplex.model.boundOf side u = none := by
  intro u hu side
  cases hb : s.simplex.model.boundOf side u with
  | none => rfl
  | some b => exact absurd hu (h.bounded side u b hb)

theorem Registers.proceeds {s s' : Theory} (h : Registers s s') (hs : s.Sane) :
    Proceeds s s' where
  options := h.options
  level := h.sameLedgers.level
  below n _ := h.sameLedgers.ledgerAt n
  more := h.sameLedgers.now.symm ▸ .refl _
  stored c k hc := ⟨k, h.database.stored c k hc, rfl⟩
  lookup := h.database.lookup
  contents := h.contents
  constants := h.constants
  awake := h.grows.awake
  owes := h.sameLedgers.owes hs.recorded.sound_now (Ledger.keeps_of_grown h.database _)
    h.propagations
  inherits := h.database.inherits
  safe u hu := (h.grows.values u hu).2
  lemmas := h.lemmas
  queued := h.grows.queued hs.recorded.free

/-- The theory after materialising a variable, or any number of them. -/
theorem Rearranged.sameLedgers {s s' : Theory} (h : Rearranged s s') : SameLedgers s s' :=
  ⟨by rw [h.database], by rw [h.database], h.trail, h.bounds, h.disequalities, h.processed⟩

/-- The theory after rows came back, new ones for variables with constraints alone. -/
theorem Grows.sane {s s' : Theory} (h : Grows s s') (hr : Rearranged s s') (hs : s.Sane)
    (hfresh : ∀ u, s'.Active u → s.Active u ∨ s.database.hasConstraints u = true) : s'.Sane where
  framed := h.framed
  named := hr.named hs.named
  linked := hr.widened.linked hs.framed.toArranged hs.linked
  balanced := h.balanced hs.balanced
  trimmed := hs.trimmed.step hr.database (fun _ => hr.isLeaf)
    (fun _ hv => .inl ((h.sublist.map Prod.fst).subset hv)) fun u hu => (hfresh u hu).imp_right .inr
  recorded := hr.sameLedgers.recorded hs.recorded
    (fun _ _ => hr.database.symm ▸ Ledger.keeps_of_agrees (.refl _) _)
    (h.room hs.framed.toArranged hr.widened.contents)
    (fun _ v _ _ => h.awake v) (fun _ _ k _ => h.awake k.statement.var)
    (fun f hf => hs.recorded.linear f (List.mem_append_right _ (hr.pending ▸ hf)))

theorem Grows.proceeds {s s' : Theory} (h : Grows s s') (hr : Rearranged s s') (hs : s.Sane) :
    Proceeds s s' where
  options := hr.options
  level := hr.sameLedgers.level
  below n _ := hr.sameLedgers.ledgerAt n
  more := hr.sameLedgers.now.symm ▸ .refl _
  stored c k hc := ⟨k, by rw [hr.database]; exact hc, rfl⟩
  lookup t c hc := by rw [hr.database]; exact hc
  contents := hr.widened.contents
  constants a b hb := by rw [hr.constantAtoms]; exact hb
  awake := h.awake
  owes := hr.sameLedgers.owes hs.recorded.sound_now
    (hr.database.symm ▸ Ledger.keeps_of_agrees (.refl _) _) hr.propagations
  inherits := hr.database.symm ▸ .refl _
  safe u hu := (h.values u hu).2
  lemmas := hr.lemmas
  queued := h.queued hs.recorded.free

end LinearArithmetic.Theory
